import CoinLedger.Text.Hex

/-!
# Digests

A digest is a string of exactly 32 bytes: a transaction id, a block hash, a
Merkle node or a proof-of-work target. Digests are compared byte by byte from
the front, which is the order of the numbers they spell most significant byte
first.
-/

namespace CoinLedger

structure Digest where
  bytes : Bytes
  length_eq : bytes.length = 32
deriving DecidableEq

namespace Digest

/-- Why some bytes or a text are no digest. -/
inductive Error where
  | badHex (cause : Hex.Error)
  | badLength (length : Nat)
deriving DecidableEq

def Error.message : Error → String
  | .badHex cause => "Invalid hex string: " ++ cause.message
  | .badLength length => "Invalid hash length: expected 32, got " ++ toString length

/-- The digest of zeros: it stands for "no transaction" and "no parent". -/
def zero : Digest := ⟨List.replicate 32 0, rfl⟩

def isZero (d : Digest) : Bool := d = zero

def ofBytes (bytes : Bytes) : Except Error Digest :=
  if h : bytes.length = 32 then .ok ⟨bytes, h⟩ else .error (.badLength bytes.length)

/-- The low-order 256 bits of a number, most significant byte first. -/
def ofNat (n : Nat) : Digest := ⟨Bytes.bigEndian 32 n, Bytes.length_bigEndian 32 n⟩

/-- The number that the bytes spell, most significant first. -/
def toNat (d : Digest) : Nat := Bytes.ofBigEndian d.bytes

def toHex (d : Digest) : String := Hex.encode d.bytes

def ofHex (text : String) : Except Error Digest :=
  match Hex.decode (Bytes.ofText text) with
  | .error e => .error (.badHex e)
  | .ok bytes => ofBytes bytes

instance : Inhabited Digest := ⟨zero⟩

instance : ToString Digest := ⟨toHex⟩

instance : Ord Digest := ⟨fun a b => compare a.bytes b.bytes⟩

instance : LT Digest := ⟨fun a b => a.bytes < b.bytes⟩

instance (a b : Digest) : Decidable (a < b) :=
  inferInstanceAs (Decidable (a.bytes < b.bytes))

/-- Zero bits in front of the first one bit of a byte string. -/
def leadingZeroBits : Bytes → Nat
  | [] => 0
  | b :: rest => if b = 0 then 8 + leadingZeroBits rest else 7 - b.toNat.log2

def leadingZeros (d : Digest) : Nat := leadingZeroBits d.bytes

theorem ofBytes_bytes (d : Digest) : ofBytes d.bytes = .ok d := by
  simp [ofBytes, d.length_eq]

@[ext]
theorem ext {a b : Digest} (h : a.bytes = b.bytes) : a = b := by
  cases a
  cases b
  cases h
  rfl

end Digest

end CoinLedger
