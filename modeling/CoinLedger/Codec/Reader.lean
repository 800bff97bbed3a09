import CoinLedger.Digest

/-!
# Reading records

A reader takes a value off the front of a byte string and leaves the rest. Data
may end too early, announce a length that the rest cannot hold, or go on behind
the record; these are the three ways in which a record is undecodable.
-/

namespace CoinLedger

/-- Why a byte string is no record. -/
inductive CodecError where
  /-- The data ended inside a field. -/
  | truncated
  /-- Bytes were left over behind the record. -/
  | trailingBytes (count : Nat)
  /-- An announced length exceeds what is left of the data. -/
  | lengthOverflow (length : UInt64)
deriving DecidableEq

namespace CodecError

/-- The words for data that ends inside a field. -/
def endOfData : String := "failed to fill whole buffer"

def message : CodecError → String
  | truncated => "unexpected end of data: " ++ endOfData
  | trailingBytes count => toString count ++ " trailing bytes after record"
  | lengthOverflow length => "length " ++ toString length.toNat ++ " exceeds remaining data"

end CodecError

/-- Takes a value off the front of the data and returns it with the rest. -/
abbrev Reader := StateT Bytes (Except CodecError)

namespace Reader

/-- Exactly `count` bytes. -/
def take (count : Nat) : Reader Bytes := fun data =>
  if count ≤ data.length then .ok (data.take count, data.drop count) else .error .truncated

/-- Exactly the 32 bytes of a digest. -/
def digest : Reader Digest := fun data =>
  if h : 32 ≤ data.length then
    .ok (⟨data.take 32, by simp [h]⟩, data.drop 32)
  else .error .truncated

/-- A number of `width` bytes, least significant first. -/
def number (width : Nat) : Reader Nat := do
  return Bytes.ofLittleEndian (← take width)

/-- Exactly `count` values, one behind the other. -/
def times {α : Type} (count : Nat) (item : Reader α) : Reader (List α) :=
  match count with
  | 0 => pure []
  | count + 1 => do
    let first ← item
    let rest ← times count item
    return first :: rest

end Reader

end CoinLedger
