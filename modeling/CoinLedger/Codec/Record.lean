import CoinLedger.Codec.VarInt

/-!
# Records

A record type has a canonical encoding and a reader for it. Byte strings and
lists are written behind their length; decoding a whole byte string as a record
must use all of it.
-/

namespace CoinLedger

class Record (α : Type) where
  encode : α → Bytes
  read : Reader α

namespace Record

/-- Reads a byte string that is one record and nothing more. -/
def decode {α : Type} [Record α] (data : Bytes) : Except CodecError α :=
  match (read : Reader α) data with
  | .error e => .error e
  | .ok (value, []) => .ok value
  | .ok (_, rest) => .error (.trailingBytes rest.length)

/-- A byte string behind its length. -/
def encodeBytes (bytes : Bytes) : Bytes :=
  VarInt.ofLength bytes ++ bytes

def readBytes : Reader Bytes := do
  Reader.take (← VarInt.readLength)

/-- The records of a list behind their number. -/
def encodeList {α : Type} [Record α] (items : List α) : Bytes :=
  VarInt.ofLength items ++ items.flatMap encode

def readList {α : Type} [Record α] : Reader (List α) := do
  Reader.times (← VarInt.readLength) read

end Record

end CoinLedger
