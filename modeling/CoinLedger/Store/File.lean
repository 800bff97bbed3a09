import CoinLedger.Codec.Record
import CoinLedger.Store

/-!
# Stores as files

Between two runs of the program a store is one file: its records in key order,
each key and each value behind its length.
-/

namespace CoinLedger.Store

/-- A record of a store. -/
structure Slot where
  key : Bytes
  value : Bytes

instance : Record Slot where
  encode slot := Record.encodeBytes slot.key ++ Record.encodeBytes slot.value
  read := return ⟨← Record.readBytes, ← Record.readBytes⟩

def toFile (s : Store) : Bytes :=
  Record.encodeList (s.toList.map fun (key, value) => Slot.mk key value)

def insertSlot (s : Store) (slot : Slot) : Store := s.insert slot.key slot.value

/-- Reads a file from its beginning; what follows the last record is ignored. -/
def ofFile (file : Bytes) : Result Store :=
  match (Record.readList : Reader (List Slot)) file with
  | .error e => .error (.undecodable e)
  | .ok (slots, _) => .ok (slots.foldl insertSlot empty)

end CoinLedger.Store
