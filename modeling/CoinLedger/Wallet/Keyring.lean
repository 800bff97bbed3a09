import Std.Data.ExtTreeMap
import CoinLedger.Json.Layout
import CoinLedger.Settings
import CoinLedger.Wallet.Payment

/-!
# Keyrings

A keyring holds secret keys by their addresses, in the order of the addresses. It
is kept in a JSON file, an array of records that state both the key and the
address; a file whose records do not belong together is refused.
-/

namespace CoinLedger

structure Keyring where
  keys : Std.ExtTreeMap String SecretKey

namespace Keyring

def empty : Keyring := ⟨∅⟩

def size (r : Keyring) : Nat := r.keys.size

/-- The addresses with their keys, sorted by address. -/
def toList (r : Keyring) : List (Address × SecretKey) :=
  r.keys.toList.map fun (address, key) => (⟨address⟩, key)

def addresses (r : Keyring) : List Address := r.toList.map Prod.fst

def key (r : Keyring) (a : Address) : Result SecretKey :=
  match r.keys[a.text]? with
  | some key => .ok key
  | none => .error (.notFound (.key a))

/-- Adds a key under the address that belongs to it. -/
def insert (S : SignatureScheme) (r : Keyring) (key : SecretKey) : Keyring :=
  ⟨r.keys.insert (S.addressOf key).text key⟩

/-! ## Files -/

open Json (Value)

/-- A record of a keyring file. -/
structure FileEntry where
  secret : Bytes
  address : Address
deriving DecidableEq

namespace FileEntry

def secretName : String := "secret_key_bytes"

def addressName : String := "address"

def byte? (v : Value) : Option UInt8 := (v.natural? 256).map UInt8.ofNat

/-- The 32 bytes of a secret key. -/
def secret? (v : Value) : Option Bytes := do
  let bytes ← (← v.items?).mapM byte?
  if bytes.length = 32 then some bytes else none

def ofJson? (v : Value) : Option FileEntry := do
  match ← v.fields? [secretName, addressName] with
  | [some secret, some address] => return ⟨← secret? secret, ⟨← address.text?⟩⟩
  | _ => none

def toJson (e : FileEntry) : Value :=
  .object [
    (some secretName, .array (e.secret.map fun b => Value.ofNat b.toNat)),
    (some addressName, Value.ofText e.address.text)]

end FileEntry

/-- Adds a record of a file to a keyring, if the key is one and has the address. -/
def addEntry (S : SignatureScheme) (r : Keyring) (e : FileEntry) : Result Keyring :=
  match SecretKey.ofBytes? e.secret with
  | none => .error (.config .invalidSecretKey)
  | some key =>
    if S.addressOf key = e.address then .ok (r.insert S key)
    else .error (.invalidAddress (.foreignKey e.address))

def ofEntries (S : SignatureScheme) (entries : List FileEntry) : Result Keyring :=
  entries.foldlM (addEntry S) empty

def entries (r : Keyring) : List FileEntry :=
  r.toList.map fun (address, key) => ⟨key.bytes, address⟩

/-- Reads a keyring file; without a file the keyring is empty. -/
def load (S : SignatureScheme) : Option Bytes → Result Keyring
  | none => .ok empty
  | some file => do
    match (← Json.ofFile file).items?.bind (·.mapM FileEntry.ofJson?) with
    | none => throw .malformedJson
    | some entries => ofEntries S entries

/-- The text of the file that holds the given entries. -/
def renderEntries (es : List FileEntry) : String :=
  Json.render (.array (es.map FileEntry.toJson))

/-- The text of the file that holds a keyring. -/
def render (r : Keyring) : String := renderEntries r.entries

end Keyring

end CoinLedger
