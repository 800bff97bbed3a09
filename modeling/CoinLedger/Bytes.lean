/-!
# Byte strings

Records, hashes, keys and messages are all finite lists of bytes. This module
fixes the two ways in which a number is laid out as bytes: least significant
byte first, as record fields are, and most significant byte first, as hashes,
sealing inputs and curve coordinates are. Both writers take the width and keep
the low-order part of the number; both readers accept any length.

`length_littleEndian`, `length_bigEndian` say that the width is the length, and
`ofLittleEndian_littleEndian`, `ofBigEndian_bigEndian` that a number of `8 * width`
bits is read back.
-/

namespace CoinLedger

abbrev Bytes := List UInt8

namespace Bytes

/-- The low-order `width` bytes of a number, least significant first. -/
def littleEndian : Nat → Nat → Bytes
  | 0, _ => []
  | width + 1, n => UInt8.ofNat n :: littleEndian width (n / 256)

/-- The low-order `width` bytes of a number, most significant first. -/
def bigEndian (width n : Nat) : Bytes :=
  (littleEndian width n).reverse

/-- The number whose least significant byte comes first. -/
def ofLittleEndian : Bytes → Nat
  | [] => 0
  | b :: rest => b.toNat + 256 * ofLittleEndian rest

/-- The number whose most significant byte comes first. -/
def ofBigEndian (bytes : Bytes) : Nat :=
  bytes.foldl (fun n b => 256 * n + b.toNat) 0

/-- The UTF-8 form of a text. -/
def ofText (text : String) : Bytes :=
  text.toUTF8.toList

/-! ## Lengths and values -/

@[simp]
theorem length_littleEndian (width n : Nat) : (littleEndian width n).length = width := by
  induction width generalizing n with
  | zero => rfl
  | succ width ih => simp [littleEndian, ih]

@[simp]
theorem length_bigEndian (width n : Nat) : (bigEndian width n).length = width := by
  simp [bigEndian]

theorem ofLittleEndian_littleEndian {width n : Nat} (h : n < 1 <<< (8 * width)) :
    ofLittleEndian (littleEndian width n) = n := by
  induction width generalizing n with
  | zero =>
      have : n = 0 := by simpa using h
      simp [littleEndian, ofLittleEndian, this]
  | succ width ih =>
      have hdiv : n / 256 < 1 <<< (8 * width) := by
        rw [Nat.mul_succ, Nat.shiftLeft_add] at h
        omega
      simp only [littleEndian, ofLittleEndian, ih hdiv, UInt8.toNat_ofNat']
      omega

theorem ofBigEndian_eq (bytes : Bytes) : ofBigEndian bytes = ofLittleEndian bytes.reverse := by
  have key : ∀ (bs : Bytes), bs.foldr (fun b n => 256 * n + b.toNat) 0 = ofLittleEndian bs := by
    intro bs
    induction bs with
    | nil => rfl
    | cons b rest ih => simp only [List.foldr_cons, ofLittleEndian, ih]; omega
  rw [← key, List.foldr_reverse]
  rfl

theorem ofBigEndian_bigEndian {width n : Nat} (h : n < 1 <<< (8 * width)) :
    ofBigEndian (bigEndian width n) = n := by
  rw [ofBigEndian_eq, bigEndian, List.reverse_reverse, ofLittleEndian_littleEndian h]

end Bytes

end CoinLedger
