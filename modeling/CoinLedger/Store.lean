import Std.Data.ExtTreeMap
import CoinLedger.Error
import CoinLedger.Text.Utf8

/-!
# The store

All that a ledger keeps is one finite map from byte strings to byte strings, in
the order of the keys byte by byte. Two stores with the same records are equal,
so that "no byte of the store changes" is an equation.

Four kinds of keys share the map: blocks under `b` and their hash, index entries
under `utxo-` and a transaction id, the tip's hash under `lh`, and the reason of
a halt under `halted`.
-/

namespace CoinLedger

abbrev Store := Std.ExtTreeMap Bytes Bytes

namespace Store

def empty : Store := ∅

def get? (s : Store) (key : Bytes) : Option Bytes := s[key]?

/-! ## Keys -/

/-- The key of the tip's hash, `lh`. -/
def tipKey : Bytes := [0x6c, 0x68]

/-- The key of the reason of a halt, `halted`. -/
def haltKey : Bytes := [0x68, 0x61, 0x6c, 0x74, 0x65, 0x64]

/-- What the keys of blocks begin with, `b`. -/
def blockTag : Bytes := [0x62]

/-- What the keys of index entries begin with, `utxo-`. -/
def entryTag : Bytes := [0x75, 0x74, 0x78, 0x6f, 0x2d]

def blockKey (hash : Digest) : Bytes := blockTag ++ hash.bytes

def entryKey (id : Digest) : Bytes := entryTag ++ id.bytes

/-! ## Index records -/

/-- The records of the index in key order, each key without its tag. -/
def entryRecords (s : Store) : List (Bytes × Bytes) :=
  (s.toList.filter fun record => entryTag.isPrefixOf record.1).map
    fun (key, value) => (key.drop entryTag.length, value)

/-- How many records the index has. -/
def entryCount (s : Store) : Nat := s.entryRecords.length

def withoutEntries (s : Store) : Store :=
  s.filter fun key _ => !entryTag.isPrefixOf key

/-! ## The halted marker -/

def markHalted (s : Store) (reason : String) : Store :=
  s.insert haltKey (Bytes.ofText reason)

/-- Why writing has been halted, none if it has not. -/
def haltReason? (s : Store) : Option String :=
  (s.get? haltKey).map Text.decodeLossy

def clearHalted (s : Store) : Store := s.erase haltKey

end Store

end CoinLedger
