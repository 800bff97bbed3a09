import CoinLedger.Proofs.Runs
import Mathlib.Data.List.Basic
import Std.Data.String.ToNat

/-!
# The notes of coinbases

A coinbase spends nothing, so that its note is all that can tell it from other coinbases that
pay as much under the same lock. The note of a reward has the miner and the height in it, and
both can be told from the note: `Ledger.rewardNote_injective`.

A coinbase is written with its note behind the note's length, which is cut down to 64 bits. So
equal bytes do not mean equal notes at once: one note might begin with the other and be longer
by a multiple of `2 ^ 64`. But a note that begins with another is of the same miner and goes on
in the digits of the height (`Ledger.eq_of_rewardNote_append`), and these are few.
-/

namespace CoinLedger

/-! ## Hexadecimal digits are read back -/

namespace Hex

/-- The bytes of the two digits of a byte. -/
def digitBytes (b : UInt8) : Bytes := (digits b).flatMap String.utf8EncodeChar

/-- The byte of a digit. -/
def digitByte (n : Nat) : UInt8 := UInt8.ofNat (digit n).toNat

theorem utf8EncodeChar_digit : ∀ n < 16, String.utf8EncodeChar (digit n) = [digitByte n] := by
  decide

theorem digitValue?_digitByte : ∀ n < 16, digitValue? (digitByte n) = some (UInt8.ofNat n) := by
  decide

theorem blank_ne_digitByte : ∀ n < 16, 0x20 ≠ digitByte n := by decide

theorem digitBytes_eq (b : UInt8) :
    digitBytes b = [digitByte (b.toNat / 16), digitByte (b.toNat % 16)] := by
  have hlt := b.toNat_lt
  rw [digitBytes, digits, List.flatMap_cons, List.flatMap_singleton,
    utf8EncodeChar_digit _ (by omega), utf8EncodeChar_digit _ (by omega)]
  rfl

theorem ofText_encode (bytes : Bytes) : Bytes.ofText (encode bytes) = bytes.flatMap digitBytes := by
  rw [Bytes.ofText_eq, encode, String.toList_ofList, List.flatMap_assoc]
  rfl

theorem decodePairs_flatMap (position : Nat) (bytes : Bytes) :
    decodePairs position (bytes.flatMap digitBytes) = .ok bytes := by
  induction bytes generalizing position with
  | nil => rfl
  | cons b rest ih =>
      have hlt := b.toNat_lt
      have hvalue : 16 * UInt8.ofNat (b.toNat / 16) + UInt8.ofNat (b.toNat % 16) = b := by
        rw [← UInt8.toNat_inj, UInt8.toNat_add, UInt8.toNat_mul, UInt8.toNat_ofNat',
          UInt8.toNat_ofNat']
        show (16 * _ % 256 + _) % 256 = _
        omega
      rw [List.flatMap_cons, digitBytes_eq]
      simp only [List.cons_append, List.nil_append, decodePairs,
        digitValue?_digitByte _ (show b.toNat / 16 < 16 by omega),
        digitValue?_digitByte _ (show b.toNat % 16 < 16 by omega), ih, hvalue]

theorem length_flatMap_digitBytes (bytes : Bytes) :
    (bytes.flatMap digitBytes).length = 2 * bytes.length := by
  induction bytes with
  | nil => rfl
  | cons b rest ih =>
      rw [List.flatMap_cons, List.length_append, ih, digitBytes_eq, List.length_cons]
      simp only [List.length_cons, List.length_nil]
      omega

/-- What is written in hexadecimal digits is read back. -/
theorem decode_encode (bytes : Bytes) : decode (Bytes.ofText (encode bytes)) = .ok bytes := by
  rw [ofText_encode, decode, length_flatMap_digitBytes, if_neg (by omega), decodePairs_flatMap]

theorem ofText_encode_injective : Function.Injective fun bytes => Bytes.ofText (encode bytes) := by
  intro bytes bytes' h
  have hread := congrArg decode h
  rw [decode_encode, decode_encode] at hread
  exact Except.ok.inj hread

/-- There is no blank among the digits. -/
theorem blank_notMem_ofText_encode (bytes : Bytes) : 0x20 ∉ Bytes.ofText (encode bytes) := by
  intro h
  rw [ofText_encode] at h
  obtain ⟨b, _, hb⟩ := List.mem_flatMap.mp h
  have hlt := b.toNat_lt
  rw [digitBytes_eq, List.mem_pair] at hb
  rcases hb with hb | hb
  · exact blank_ne_digitByte _ (by omega) hb
  · exact blank_ne_digitByte _ (by omega) hb

end Hex

/-! ## What a note tells -/

theorem Bytes.ofText_append (text text' : String) :
    ofText (text ++ text') = ofText text ++ ofText text' := by
  rw [ofText_eq, ofText_eq, ofText_eq, String.toList_append, List.flatMap_append]

/-- The first separator ends what stands before it. -/
theorem Bytes.append_separator_inj {separator : UInt8} {xs ys behind behind' : Bytes}
    (hx : separator ∉ xs) (hy : separator ∉ ys)
    (h : xs ++ separator :: behind = ys ++ separator :: behind') : xs = ys ∧ behind = behind' := by
  induction xs generalizing ys with
  | nil =>
      cases ys with
      | nil => exact ⟨rfl, (List.cons.inj h).2⟩
      | cons y ys => exact absurd ((List.cons.inj h).1 ▸ List.mem_cons_self) hy
  | cons x xs ih =>
      cases ys with
      | nil => exact absurd ((List.cons.inj h).1 ▸ List.mem_cons_self) hx
      | cons y ys =>
          obtain ⟨rfl, hrest⟩ := List.cons.inj h
          obtain ⟨rfl, hbehind⟩ :=
            ih (List.not_mem_of_not_mem_cons hx) (List.not_mem_of_not_mem_cons hy) hrest
          exact ⟨rfl, hbehind⟩

namespace Ledger

variable {miner miner' : Bytes} {height height' : UInt64}

/-- The parts of a reward note: no blank stands in the digits of the miner, and one behind them. -/
theorem rewardNote_eq (miner : Bytes) (height : UInt64) :
    rewardNote miner height = Bytes.ofText "Reward to " ++ (Bytes.ofText (Hex.encode miner) ++
      0x20 :: (Bytes.ofText "at height " ++ Bytes.ofText (toString height.toNat))) := by
  have hmiddle : Bytes.ofText " at height " = 0x20 :: Bytes.ofText "at height " := by decide +kernel
  rw [rewardNote, Bytes.ofText_append, Bytes.ofText_append, Bytes.ofText_append, hmiddle,
    List.append_assoc, List.append_assoc, List.cons_append]

/-- A note that goes on behind another is of the same miner, and goes on in the height. -/
theorem eq_of_rewardNote_append {behind : Bytes}
    (h : rewardNote miner' height' = rewardNote miner height ++ behind) : miner' = miner ∧
      Bytes.ofText (toString height'.toNat) = Bytes.ofText (toString height.toNat) ++ behind := by
  rw [rewardNote_eq, rewardNote_eq, List.append_assoc, List.append_cancel_left_eq,
    List.append_assoc, List.cons_append] at h
  obtain ⟨hminer, hheight⟩ := Bytes.append_separator_inj (Hex.blank_notMem_ofText_encode _)
    (Hex.blank_notMem_ofText_encode _) h
  rw [List.append_assoc, List.append_cancel_left_eq] at hheight
  exact ⟨Hex.ofText_encode_injective hminer, hheight⟩

theorem height_of_digits
    (h : Bytes.ofText (toString height'.toNat) = Bytes.ofText (toString height.toNat)) :
    height' = height :=
  UInt64.toNat_inj.mp (Nat.repr_injective (Bytes.ofText_injective h))

/-- The miner and the height can be told from the note. -/
theorem rewardNote_injective (h : rewardNote miner' height' = rewardNote miner height) :
    miner' = miner ∧ height' = height := by
  rw [← List.append_nil (rewardNote miner height)] at h
  obtain ⟨hminer, hheight⟩ := eq_of_rewardNote_append h
  rw [List.append_nil] at hheight
  exact ⟨hminer, height_of_digits hheight⟩

/-- A note behind another of the same length in 64 bits is the same note. -/
theorem eq_of_rewardNote_append_of_length {behind : Bytes}
    (h : rewardNote miner' height' = rewardNote miner height ++ behind)
    (hlength : UInt64.ofNat (rewardNote miner' height').length =
      UInt64.ofNat (rewardNote miner height).length) : miner' = miner ∧ height' = height := by
  obtain ⟨hminer, hheight⟩ := eq_of_rewardNote_append h
  have hdigits := length_digits_le height'
  have hshort := Bytes.length_ofText_le (toString height'.toNat)
  rw [hheight, List.length_append] at hshort
  rw [h, List.length_append, ← UInt64.toNat_inj, UInt64.toNat_ofNat', UInt64.toNat_ofNat']
    at hlength
  have hnone : behind = [] := List.length_eq_zero_iff.mp (by omega)
  rw [hnone, List.append_nil] at hheight
  exact ⟨hminer, height_of_digits hheight⟩

/-- No text begins with the note of a first block and with that of a reward. -/
theorem genesisNote_append_ne_rewardNote_append (miner : Bytes) (height : UInt64)
    (behind behind' : Bytes) : genesisNote ++ behind ≠ rewardNote miner height ++ behind' := by
  have hgenesis : genesisNote = 0x46 :: Bytes.ofText "irst Transaction from Genesis" := by
    decide +kernel
  have hreward : Bytes.ofText "Reward to " = 0x52 :: Bytes.ofText "eward to " := by decide +kernel
  rw [rewardNote_eq, hgenesis, hreward]
  intro h
  injection h with hfirst
  cases hfirst

theorem genesisNote_ne_rewardNote (miner : Bytes) (height : UInt64) :
    genesisNote ≠ rewardNote miner height := by
  intro h
  exact genesisNote_append_ne_rewardNote_append miner height [] [] (congrArg (· ++ []) h)

end Ledger

end CoinLedger
