import CoinLedger.Proofs.CanonicalForm
import CoinLedger.Rules
import Mathlib.Data.Nat.Log
import Mathlib.Data.Nat.Size
import Mathlib.Tactic.Ring

/-!
# Targets

That a hash is admitted can be said in three ways: it comes before the target when both are
compared byte by byte, the number that it spells is below `2 ^ (256 - d)`, and it begins with `d`
zero bits. The first is how a ledger decides it.

Byte strings of one length are ordered as their numbers are: `Bytes.lt_iff_ofBigEndian_lt`. The
zero bits in front and the binary digits of the number are together all the bits there are:
`Digest.leadingZeroBits_add_size`. The main statement is `Difficulty.readings_agree`.
-/

namespace CoinLedger

/-! ## Byte strings as numbers -/

namespace Bytes

variable {xs ys : Bytes}

theorem ofLittleEndian_append (xs ys : Bytes) :
    ofLittleEndian (xs ++ ys) = ofLittleEndian xs + 2 ^ (8 * xs.length) * ofLittleEndian ys := by
  induction xs with
  | nil => simp [ofLittleEndian]
  | cons x xs ih =>
      rw [List.cons_append, ofLittleEndian, ofLittleEndian, ih, List.length_cons, Nat.mul_succ,
        Nat.pow_add]
      ring

theorem ofBigEndian_cons (b : UInt8) (rest : Bytes) :
    ofBigEndian (b :: rest) = b.toNat * 2 ^ (8 * rest.length) + ofBigEndian rest := by
  rw [ofBigEndian_eq, List.reverse_cons, ofLittleEndian_append, ← ofBigEndian_eq,
    List.length_reverse, Nat.add_comm, Nat.mul_comm]
  simp [ofLittleEndian]

theorem ofBigEndian_lt (bytes : Bytes) : ofBigEndian bytes < 2 ^ (8 * bytes.length) := by
  have hlt := ofLittleEndian_lt bytes.reverse
  rwa [← ofBigEndian_eq, List.length_reverse, (by rfl : 256 = 2 ^ 8), ← Nat.pow_mul] at hlt

/-- A leading digit decides, and the rest decides where leading digits are the same. -/
theorem lead_lt_iff {a a' r r' unit : Nat} (hr : r < unit) (hr' : r' < unit) :
    a * unit + r < a' * unit + r' ↔ a < a' ∨ a = a' ∧ r < r' := by
  rcases Nat.lt_trichotomy a a' with hlt | rfl | hgt
  · have hle := Nat.mul_le_mul_right unit (Nat.succ_le_of_lt hlt)
    rw [Nat.succ_mul] at hle
    omega
  · omega
  · have hle := Nat.mul_le_mul_right unit (Nat.succ_le_of_lt hgt)
    rw [Nat.succ_mul] at hle
    omega

/-- Byte strings of one length are in the order of the numbers that they spell most significant
byte first. -/
theorem lt_iff_ofBigEndian_lt (h : xs.length = ys.length) :
    xs < ys ↔ ofBigEndian xs < ofBigEndian ys := by
  induction xs generalizing ys with
  | nil =>
      obtain rfl := List.length_eq_zero_iff.mp h.symm
      simp
  | cons x xs ih =>
      cases ys with
      | nil => cases h
      | cons y ys =>
          have hlength := Nat.succ.inj h
          have hx := ofBigEndian_lt xs
          rw [hlength] at hx
          rw [List.cons_lt_cons_iff, ih hlength, ofBigEndian_cons, ofBigEndian_cons, hlength,
            lead_lt_iff hx (ofBigEndian_lt ys), UInt8.lt_iff_toNat_lt, UInt8.toNat_inj]

theorem littleEndian_zero (width : Nat) : littleEndian width 0 = List.replicate width 0 := by
  induction width with
  | zero => rfl
  | succ width ih =>
      rw [littleEndian, Nat.zero_div, ih]
      rfl

/-- A power of two has one byte that is not zero, with one bit in it. -/
theorem littleEndian_twoPow {width e : Nat} (h : e < 8 * width) :
    littleEndian width (2 ^ e) = List.replicate (e / 8) 0 ++ UInt8.ofNat (2 ^ (e % 8)) ::
      List.replicate (width - 1 - e / 8) 0 := by
  induction width generalizing e with
  | zero => omega
  | succ width ih =>
      rw [littleEndian]
      by_cases he : e < 8
      · have hrest : 2 ^ e / 256 = 0 := Nat.div_eq_of_lt (Nat.pow_lt_pow_right (by omega) he)
        rw [hrest, littleEndian_zero, Nat.div_eq_of_lt he, Nat.mod_eq_of_lt he]
        rfl
      · obtain ⟨k, rfl⟩ := Nat.exists_eq_add_of_le (Nat.le_of_not_lt he)
        have hpow : 2 ^ (8 + k) = 256 * 2 ^ k := Nat.pow_add 2 8 k
        have hhead : UInt8.ofNat (256 * 2 ^ k) = 0 := by
          rw [← UInt8.toNat_inj, UInt8.toNat_ofNat']
          exact Nat.mul_mod_right 256 _
        have hplace : (8 + k) / 8 = k / 8 + 1 := by omega
        have hbehind : width + 1 - 1 - (k / 8 + 1) = width - 1 - k / 8 := by omega
        rw [hpow, hhead, Nat.mul_div_cancel_left _ (by decide), ih (by omega), hplace, hbehind,
          Nat.add_mod_left, List.replicate_succ, List.cons_append]

end Bytes

/-! ## Zero bits in front -/

namespace Digest

/-- A leading digit that is not zero adds its own binary digits to the bits behind it. -/
theorem size_lead {a k r : Nat} (ha : a ≠ 0) (hr : r < 2 ^ k) :
    (a * 2 ^ k + r).size = a.size + k := by
  apply Nat.le_antisymm
  · have hle := Nat.mul_le_mul_right (2 ^ k) (Nat.succ_le_of_lt a.lt_size_self)
    rw [Nat.size_le, Nat.pow_add]
    rw [Nat.succ_mul] at hle
    omega
  · obtain ⟨m, hm⟩ := Nat.exists_eq_succ_of_ne_zero (mt Nat.size_eq_zero.mp ha)
    have hle := Nat.mul_le_mul_right (2 ^ k) (Nat.lt_size.mp (hm ▸ Nat.lt_succ_self m))
    rw [hm, Nat.succ_add, Nat.succ_le_iff, Nat.lt_size, Nat.pow_add]
    omega

theorem log2_add_one {n : Nat} (hn : n ≠ 0) : n.log2 + 1 = n.size := by
  rw [Nat.log2_eq_log_two]
  apply Nat.le_antisymm
  · exact Nat.lt_size.mpr (Nat.pow_log_le_self 2 hn)
  · exact Nat.size_le.mpr (Nat.lt_pow_succ_log_self (by decide) n)

/-- The zero bits in front and the binary digits of the number are all the bits. -/
theorem leadingZeroBits_add_size (bytes : Bytes) :
    leadingZeroBits bytes + (Bytes.ofBigEndian bytes).size = 8 * bytes.length := by
  induction bytes with
  | nil => rfl
  | cons b rest ih =>
      rw [leadingZeroBits, Bytes.ofBigEndian_cons, List.length_cons, Nat.mul_succ]
      split
      · rename_i hzero
        rw [hzero, UInt8.toNat_zero, Nat.zero_mul, Nat.zero_add]
        omega
      -- the first byte that is not zero ends the count
      · rename_i hne
        have hb : b.toNat ≠ 0 := fun hzero => hne (UInt8.toNat_inj.mp hzero)
        have hlog := log2_add_one hb
        have hsize : b.toNat.size ≤ 8 := Nat.size_le.mpr b.toNat_lt
        rw [size_lead hb (Bytes.ofBigEndian_lt rest)]
        omega

theorem le_leadingZeros_iff {hash : Digest} {bits : Nat} (h : bits ≤ 256) :
    bits ≤ hash.leadingZeros ↔ hash.toNat < 2 ^ (256 - bits) := by
  have hsum := leadingZeroBits_add_size hash.bytes
  rw [hash.length_eq] at hsum
  rw [← Nat.size_le, toNat, leadingZeros]
  omega

theorem lt_iff_toNat_lt {a b : Digest} : a < b ↔ a.toNat < b.toNat :=
  Bytes.lt_iff_ofBigEndian_lt (a.length_eq.trans b.length_eq.symm)

end Digest

/-! ## The target of a difficulty -/

namespace Difficulty

variable {d : Difficulty} {hash : Digest}

theorem toNat_target (d : Difficulty) : d.target.toNat = 2 ^ (256 - d.bits) := by
  have hpos := d.pos
  have hlt : 1 <<< (256 - d.bits) < 1 <<< (8 * 32) := by
    rw [Nat.one_shiftLeft, Nat.one_shiftLeft]
    exact Nat.pow_lt_pow_right (by decide) (by omega)
  rw [target, Digest.toNat, Digest.ofNat, Bytes.ofBigEndian_bigEndian hlt, Nat.one_shiftLeft]

/-- The one bit of the target is in the byte that is `(256 - d) / 8` places before the last. -/
theorem bytes_target (d : Difficulty) :
    d.target.bytes = List.replicate (31 - (256 - d.bits) / 8) 0 ++
      UInt8.ofNat (2 ^ ((256 - d.bits) % 8)) :: List.replicate ((256 - d.bits) / 8) 0 := by
  have hpos := d.pos
  show (Bytes.littleEndian 32 (1 <<< (256 - d.bits))).reverse = _
  rw [Nat.one_shiftLeft, Bytes.littleEndian_twoPow (by omega)]
  simp

theorem admits_iff_toNat_lt : d.admits hash = true ↔ hash.toNat < 2 ^ (256 - d.bits) := by
  rw [admits, decide_eq_true_iff, Digest.lt_iff_toNat_lt, toNat_target]

theorem admits_iff_le_leadingZeros : d.admits hash = true ↔ d.bits ≤ hash.leadingZeros := by
  rw [admits_iff_toNat_lt, Digest.le_leadingZeros_iff (Nat.le_of_lt d.lt)]

theorem ofBits_eq_ok_iff {bits : UInt32} : ofBits bits = .ok d ↔ d.bits = bits.toNat := by
  unfold ofBits ofNat?
  by_cases hrange : 0 < bits.toNat ∧ bits.toNat < 256
  · rw [dif_pos hrange]
    constructor
    · intro h
      rw [← Except.ok.inj h]
    · intro h
      exact congrArg Except.ok (Difficulty.ext h.symm)
  · rw [dif_neg hrange]
    constructor
    · intro h
      cases h
    · intro h
      exact absurd ⟨h ▸ d.pos, h ▸ d.lt⟩ hrange

/-- For every number of bits that makes a difficulty: a hash is admitted exactly when the number
that it spells is below a power of two, and exactly when it begins with as many zero bits; and
then it is admitted with fewer bits as well. The target, which the hash is compared with, is the
digest with the one bit of that power set. -/
theorem readings_agree (bits : UInt32) (d : Difficulty) (hbits : ofBits bits = .ok d)
    (hash : Digest) :
    (d.admits hash = true ↔ hash.toNat < 2 ^ (256 - bits.toNat)) ∧
    (hash.toNat < 2 ^ (256 - bits.toNat) ↔ bits.toNat ≤ hash.leadingZeros) ∧
    (∀ (fewer : UInt32) (d' : Difficulty), ofBits fewer = .ok d' → fewer ≤ bits →
      d.admits hash = true → d'.admits hash = true) ∧
    d.target.bytes = List.replicate (31 - (256 - bits.toNat) / 8) 0 ++
      UInt8.ofNat (2 ^ ((256 - bits.toNat) % 8)) ::
        List.replicate ((256 - bits.toNat) / 8) 0 := by
  rw [ofBits_eq_ok_iff] at hbits
  rw [← hbits]
  refine ⟨admits_iff_toNat_lt, ?_, ?_, bytes_target d⟩
  · rw [← admits_iff_toNat_lt, admits_iff_le_leadingZeros]
  · intro fewer d' hfewer hle hadmits
    rw [ofBits_eq_ok_iff] at hfewer
    rw [UInt32.le_iff_toNat_le, ← hfewer, ← hbits] at hle
    rw [admits_iff_le_leadingZeros] at hadmits ⊢
    exact Nat.le_trans hle hadmits

/-- The greatest hash that nine bits admit begins with nine zero bits, and eight bits admit it. -/
theorem readings_agree_nine :
    ofBits 9 = .ok ⟨9, by decide, by decide⟩ ∧
      9 ≤ (Digest.ofNat (2 ^ 247 - 1)).leadingZeros ∧
      admits ⟨8, by decide, by decide⟩ (Digest.ofNat (2 ^ 247 - 1)) = true := by
  have hspelled : (Digest.ofNat (2 ^ 247 - 1)).toNat = 2 ^ 247 - 1 := by decide
  obtain ⟨hadmits, hzeros, hfewer, _⟩ :=
    readings_agree 9 ⟨9, by decide, by decide⟩ rfl (Digest.ofNat (2 ^ 247 - 1))
  have hbelow : (Digest.ofNat (2 ^ 247 - 1)).toNat < 2 ^ (256 - (9 : UInt32).toNat) := by
    rw [hspelled]
    decide
  exact ⟨rfl, hzeros.mp hbelow, hfewer 8 _ rfl (by decide) (hadmits.mpr hbelow)⟩

end Difficulty

end CoinLedger
