import CoinLedger.Proofs.TextRoundTrip
import CoinLedger.Text.Base58
import Mathlib.Data.Nat.Digits.Lemmas

/-!
# Base58 text and byte strings

Base 58 is a bijection between the byte strings and the texts in its alphabet. Digits
without a zero in front and numbers correspond one to one in every base; the zeros in front
are counted apart, and `rebase` keeps their number. So digits that are written anew in
another base come back from there (`rebase_rebase`), and `decode_eq_ok_iff` says that a
text is read as the bytes for which it is written, and as no others.
-/

namespace CoinLedger.Base58

variable {base source target : Nat} {digits : List Nat}

/-! ## Numbers and their digits -/

theorem digitsOf_eq (h : 1 < base) (n : Nat) : digitsOf base n = (Nat.digits base n).reverse := by
  induction n using Nat.strongRecOn with
  | ind n ih =>
      rw [digitsOf]
      split_ifs with hpos
      · rw [ih _ (Nat.div_lt_self hpos.2 h), Nat.digits_def' h hpos.2, List.reverse_cons]
      · obtain rfl : n = 0 := by omega
        simp

theorem ofDigits_eq (base : Nat) (digits : List Nat) :
    ofDigits base digits = Nat.ofDigits base digits.reverse := by
  induction digits using List.reverseRecOn with
  | nil => rfl
  | append_singleton digits d ih =>
      rw [List.reverse_concat, Nat.ofDigits_cons, ← ih]
      simp [ofDigits, Nat.add_comm]

theorem ofDigits_digitsOf (h : 1 < base) (n : Nat) : ofDigits base (digitsOf base n) = n := by
  rw [ofDigits_eq, digitsOf_eq h, List.reverse_reverse, Nat.ofDigits_digits]

theorem digitsOf_ofDigits (h : 1 < base) (hlt : ∀ d ∈ digits, d < base)
    (hhead : digits.head? ≠ some 0) : digitsOf base (ofDigits base digits) = digits := by
  rw [digitsOf_eq h, ofDigits_eq, Nat.digits_ofDigits base h, List.reverse_reverse]
  · simpa using hlt
  · intro hne hlast
    apply hhead
    rw [← hlast, List.getLast_reverse, List.head?_eq_some_head]

theorem lt_of_mem_digitsOf (h : 1 < base) {n d : Nat} (hd : d ∈ digitsOf base n) : d < base := by
  rw [digitsOf_eq h, List.mem_reverse] at hd
  exact Nat.digits_lt_base h hd

theorem head?_digitsOf_ne_zero (h : 1 < base) (n : Nat) : (digitsOf base n).head? ≠ some 0 := by
  rw [digitsOf_eq h, List.head?_reverse]
  rcases Nat.eq_zero_or_pos n with rfl | hpos
  · simp
  · have hne : n ≠ 0 := Nat.pos_iff_ne_zero.mp hpos
    rw [List.getLast?_eq_some_getLast (Nat.digits_ne_nil_iff_ne_zero.mpr hne)]
    simpa using Nat.getLast_digit_ne_zero base hne

/-! ## Zeros in front -/

theorem ofDigits_zeros_append (base k : Nat) (digits : List Nat) :
    ofDigits base (List.replicate k 0 ++ digits) = ofDigits base digits := by
  rw [ofDigits_eq, ofDigits_eq, List.reverse_append, List.reverse_replicate,
    Nat.ofDigits_append_replicate_zero]

/-- Any digits are some zeros and then digits without a zero in front. -/
theorem exists_zeros_append (digits : List Nat) :
    ∃ k rest, digits = List.replicate k 0 ++ rest ∧ rest.head? ≠ some 0 := by
  induction digits with
  | nil => exact ⟨0, [], rfl, nofun⟩
  | cons d digits ih =>
      by_cases hd : d = 0
      · obtain ⟨k, rest, rfl, hrest⟩ := ih
        exact ⟨k + 1, rest, by rw [hd, List.replicate_succ, List.cons_append], hrest⟩
      · exact ⟨0, d :: digits, rfl, by simpa using hd⟩

/-- Zeros in front are kept, and what is behind them is written anew. -/
theorem rebase_zeros_append (source target k : Nat) (h : digits.head? ≠ some 0) :
    rebase source target (List.replicate k 0 ++ digits) =
      List.replicate k 0 ++ digitsOf target (ofDigits source digits) := by
  have hzeros : (digits.takeWhile (· == 0)) = [] := by
    cases digits with
    | nil => rfl
    | cons d digits => exact List.takeWhile_cons_of_neg (by simpa using h)
  rw [rebase, ofDigits_zeros_append, List.takeWhile_append_of_pos (by simp), hzeros]
  simp

/-- Digits that are written anew in another base are read back from there. -/
theorem rebase_rebase (hsource : 1 < source) (htarget : 1 < target)
    (hlt : ∀ d ∈ digits, d < source) :
    rebase target source (rebase source target digits) = digits := by
  obtain ⟨k, rest, rfl, hrest⟩ := exists_zeros_append digits
  -- the digits of a number begin with no zero, so the way back counts the same zeros
  rw [rebase_zeros_append source target k hrest,
    rebase_zeros_append target source k (head?_digitsOf_ne_zero htarget _),
    ofDigits_digitsOf htarget, digitsOf_ofDigits hsource _ hrest]
  intro d hd
  exact hlt d (List.mem_append_right _ hd)

theorem lt_of_mem_rebase (h : 1 < target) {d : Nat} (hd : d ∈ rebase source target digits) :
    d < target := by
  rcases List.mem_append.mp hd with hzero | hd
  · rw [List.eq_of_mem_replicate hzero]
    exact Nat.zero_lt_of_lt h
  · exact lt_of_mem_digitsOf h hd

/-! ## Digits and characters -/

/-- The character for a digit. -/
def digitChar (d : Nat) : Char := alphabet.getD d '1'

/-- The byte of that character. -/
def digitByte (d : Nat) : UInt8 := UInt8.ofNat (digitChar d).toNat

theorem digitValue?_digitByte : ∀ d < 58, digitValue? (digitByte d) = some d := by decide

theorem digitByte_le : ∀ d < 58, digitByte d ≤ 127 := by decide

theorem utf8EncodeChar_digitChar :
    ∀ d < 58, String.utf8EncodeChar (digitChar d) = [digitByte d] := by
  decide

/-- A byte has the value of a digit only if it is the digit's byte. -/
theorem digitByte_of_digitValue? {b : UInt8} {d : Nat} (h : digitValue? b = some d) :
    d < 58 ∧ digitByte d = b := by
  obtain ⟨hd, hchar, _⟩ := List.findIdx?_eq_some_iff_getElem.mp h
  have hd58 : d < 58 := hd
  refine ⟨hd58, ?_⟩
  rw [beq_iff_eq] at hchar
  rw [digitByte, digitChar, List.getD_eq_getElem?_getD, List.getElem?_eq_getElem hd,
    Option.getD_some,
    hchar, UInt8.ofNat_toNat]

/-- The bytes of the text of some digits. -/
theorem ofText_digits {ds : List Nat} (h : ∀ d ∈ ds, d < 58) :
    Bytes.ofText (String.ofList (ds.map digitChar)) = ds.map digitByte := by
  rw [Bytes.ofText_eq, String.toList_ofList]
  induction ds with
  | nil => rfl
  | cons d ds ih =>
      rw [List.forall_mem_cons] at h
      rw [List.map_cons, List.flatMap_cons, ih h.2, utf8EncodeChar_digitChar d h.1]
      rfl

theorem digitValues_digits {ds : List Nat} (position : Nat) (h : ∀ d ∈ ds, d < 58) :
    digitValues position (ds.map digitByte) = .ok ds := by
  induction ds generalizing position with
  | nil => rfl
  | cons d ds ih =>
      rw [List.forall_mem_cons] at h
      have hascii : ¬127 < digitByte d := UInt8.not_lt.mpr (digitByte_le d h.1)
      simp only [List.map_cons, digitValues, if_neg hascii, digitValue?_digitByte d h.1, ih _ h.2]

theorem eq_digits_of_digitValues {position : Nat} {bytes : Bytes} {ds : List Nat}
    (h : digitValues position bytes = .ok ds) : bytes = ds.map digitByte ∧ ∀ d ∈ ds, d < 58 := by
  induction bytes generalizing position ds with
  | nil =>
      obtain rfl := Except.ok.inj h
      simp
  | cons b bytes ih =>
      rw [digitValues] at h
      split at h
      · cases h
      · split at h
        · cases h
        · rename_i d hd
          split at h
          · cases h
          · rename_i rest hrest
            obtain rfl := Except.ok.inj h
            obtain ⟨hd58, rfl⟩ := digitByte_of_digitValue? hd
            obtain ⟨rfl, hlt⟩ := ih hrest
            exact ⟨rfl, List.forall_mem_cons.mpr ⟨hd58, hlt⟩⟩

/-! ## Texts -/

theorem map_toNat_map_ofNat {ds : List Nat} (h : ∀ d ∈ ds, d < 256) :
    (ds.map UInt8.ofNat).map UInt8.toNat = ds := by
  rw [List.map_map]
  conv_rhs => rw [← List.map_id ds]
  exact List.map_congr_left fun d hd => UInt8.toNat_ofNat_of_lt' (h d hd)

theorem decode_encode (bytes : Bytes) : decode (encode bytes) = .ok bytes := by
  have hlt : ∀ d ∈ rebase 256 58 (bytes.map UInt8.toNat), d < 58 :=
    fun d hd => lt_of_mem_rebase (by decide) hd
  have hbytes : ∀ d ∈ bytes.map UInt8.toNat, d < 256 := by
    simpa using fun b _ => b.toNat_lt
  have htext : Bytes.ofText (encode bytes) =
      (rebase 256 58 (bytes.map UInt8.toNat)).map digitByte := ofText_digits hlt
  have hback : rebase 58 256 (rebase 256 58 (bytes.map UInt8.toNat)) = bytes.map UInt8.toNat :=
    rebase_rebase (by decide) (by decide) hbytes
  rw [decode, htext, digitValues_digits 0 hlt]
  simp [hback, Function.comp_def]

/-- A text is read as the bytes for which it is written, and as no others. -/
theorem decode_eq_ok_iff {text : String} {bytes : Bytes} :
    decode text = .ok bytes ↔ text = encode bytes := by
  constructor
  · intro h
    rw [decode] at h
    split at h
    · cases h
    · rename_i ds hds
      obtain rfl := Except.ok.inj h
      obtain ⟨htext, hlt⟩ := eq_digits_of_digitValues hds
      have hbytes : ∀ d ∈ rebase 58 256 ds, d < 256 := fun d hd => lt_of_mem_rebase (by decide) hd
      apply Bytes.ofText_injective
      rw [encode, map_toNat_map_ofNat hbytes, rebase_rebase (by decide) (by decide) hlt, htext]
      exact (ofText_digits hlt).symm
  · rintro rfl
    exact decode_encode bytes

end CoinLedger.Base58
