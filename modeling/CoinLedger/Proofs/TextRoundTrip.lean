import CoinLedger.Text.Utf8
import Mathlib.Logic.Basic
import Mathlib.Tactic.SplitIfs

/-!
# Texts as bytes

`Text.decode?` reads back what `Bytes.ofText` writes: every character is written as bytes
that announce their own number, and no character's bytes are read as another's.
-/

namespace CoinLedger

/-- What is read item by item is what has been written item by item. -/
theorem List.mapM_map_eq_some {α β : Type} {write : α → β} {read : β → Option α} {xs : List α}
    (h : ∀ x ∈ xs, read (write x) = some x) : (xs.map write).mapM read = some xs := by
  induction xs with
  | nil => rfl
  | cons x rest ih =>
      rw [List.map_cons, List.mapM_cons, h x List.mem_cons_self,
        ih fun y hy => h y (List.mem_cons_of_mem x hy)]
      rfl

/-! ## The bytes of a text -/

theorem Bytes.toList_loop_eq (data : ByteArray) (i : Nat) (gathered : Bytes) :
    ByteArray.toList.loop data i gathered = gathered.reverse ++ data.data.toList.drop i := by
  fun_induction ByteArray.toList.loop data i gathered with
  | case1 i gathered hlt ih =>
      have hlt' : i < data.data.toList.length := by simpa using hlt
      rw [ih, List.reverse_cons, List.append_assoc, List.drop_eq_getElem_cons hlt']
      simp [ByteArray.get!, hlt]
  | case2 i gathered hge =>
      rw [List.drop_eq_nil_of_le, List.append_nil]
      simpa using hge

/-- The bytes of a text are those of its characters, one after another. -/
theorem Bytes.ofText_eq (text : String) :
    ofText text = text.toList.flatMap String.utf8EncodeChar := by
  have hbytes : text.toUTF8 = (text.toList.flatMap String.utf8EncodeChar).toByteArray :=
    String.utf8Encode_toList.symm
  rw [ofText, ByteArray.toList, toList_loop_eq, hbytes]
  simp

namespace Text

/-! ## Reading one character -/

theorem toNat_byte {n : Nat} (h : n < 256) : (UInt8.ofNat n).toNat = n :=
  UInt8.toNat_ofNat_of_lt' h

theorem firstChunk_of_lead {b : UInt8} {lead : Lead} (h : lead? b = some lead) (rest : Bytes) :
    firstChunk b rest = readFollowing lead.following lead.low lead.high lead.bits 1 rest := by
  rw [firstChunk, h]

theorem readFollowing_zero (low high : UInt8) (bits size : Nat) (rest : Bytes) :
    readFollowing 0 low high bits size rest = ⟨some (Char.ofNat bits), size⟩ := by
  rw [readFollowing.eq_def]

/-- A byte that continues a character, with the six bits that it adds. -/
theorem readFollowing_cons {low high : UInt8} {following bits size n : Nat} {rest : Bytes}
    (hlow : low.toNat ≤ n % 64 + 128) (hhigh : n % 64 + 128 ≤ high.toNat) :
    readFollowing (following + 1) low high bits size (UInt8.ofNat (n % 64 + 128) :: rest) =
      readFollowing following 0x80 0xbf (64 * bits + n % 64) (size + 1) rest := by
  have hbyte := toNat_byte (show n % 64 + 128 < 256 by omega)
  have hrange : low ≤ UInt8.ofNat (n % 64 + 128) ∧ UInt8.ofNat (n % 64 + 128) ≤ high := by
    rw [UInt8.le_iff_toNat_le, UInt8.le_iff_toNat_le, hbyte]
    exact ⟨hlow, hhigh⟩
  rw [readFollowing, if_pos hrange, hbyte, Nat.add_sub_cancel]

/-- Any byte that continues a character can be its third or fourth. -/
theorem readFollowing_tail {following bits size n : Nat} {rest : Bytes} :
    readFollowing (following + 1) 0x80 0xbf bits size (UInt8.ofNat (n % 64 + 128) :: rest) =
      readFollowing following 0x80 0xbf (64 * bits + n % 64) (size + 1) rest :=
  readFollowing_cons (by show 128 ≤ _; omega) (by show _ ≤ 191; omega)

theorem toNat_ite (p : Prop) [Decidable p] (a b : UInt8) :
    (if p then a else b).toNat = if p then a.toNat else b.toNat := by
  split <;> rfl

section

variable {c : Char} {n : Nat} (hchar : Char.ofNat n = c) (rest : Bytes)
include hchar

theorem firstChunk_one (h : n < 0x80) :
    firstChunk (UInt8.ofNat n) rest = ⟨some c, 1⟩ := by
  have hlead : lead? (UInt8.ofNat n) = some ⟨0, 0x80, 0xbf, n⟩ := by
    simp only [lead?, toNat_byte (show n < 256 by omega)]
    rw [if_pos h]
  rw [firstChunk_of_lead hlead, readFollowing_zero, hchar]

theorem firstChunk_two (hlow : 0x80 ≤ n) (hhigh : n < 0x800) :
    firstChunk (UInt8.ofNat (n / 64 % 32 + 192)) (UInt8.ofNat (n % 64 + 128) :: rest) =
      ⟨some c, 2⟩ := by
  have hlead : lead? (UInt8.ofNat (n / 64 % 32 + 192)) = some ⟨1, 0x80, 0xbf, n / 64⟩ := by
    simp only [lead?, toNat_byte (show n / 64 % 32 + 192 < 256 by omega)]
    rw [if_neg (by omega), if_neg (by omega), if_pos (by omega)]
    simp only [Option.some.injEq, Lead.mk.injEq, true_and]
    omega
  have hbits : 64 * (n / 64) + n % 64 = n := by omega
  rw [firstChunk_of_lead hlead, readFollowing_tail, hbits, readFollowing_zero, hchar]

theorem firstChunk_three (hlow : 0x800 ≤ n) (hhigh : n < 0x10000)
    (hvalid : n < 0xd800 ∨ 0xdfff < n) :
    firstChunk (UInt8.ofNat (n / 4096 % 16 + 224))
      (UInt8.ofNat (n / 64 % 64 + 128) :: UInt8.ofNat (n % 64 + 128) :: rest) = ⟨some c, 3⟩ := by
  have hlead : lead? (UInt8.ofNat (n / 4096 % 16 + 224)) =
      some ⟨2, if n / 4096 = 0 then 0xa0 else 0x80, if n / 4096 = 13 then 0x9f else 0xbf,
        n / 4096⟩ := by
    simp only [lead?, toNat_byte (show n / 4096 % 16 + 224 < 256 by omega)]
    rw [if_neg (by omega), if_neg (by omega), if_neg (by omega), if_pos (by omega)]
    simp only [Option.some.injEq, Lead.mk.injEq, true_and]
    exact ⟨if_congr (by omega) rfl rfl, if_congr (by omega) rfl rfl, by omega⟩
  have hbits : 64 * (64 * (n / 4096) + n / 64 % 64) + n % 64 = n := by omega
  rw [firstChunk_of_lead hlead, readFollowing_cons, readFollowing_tail, hbits,
    readFollowing_zero, hchar]
  -- an overlong form would have a smaller second byte, a surrogate a greater one
  · rw [toNat_ite]
    show (if n / 4096 = 0 then 160 else 128) ≤ _
    split <;> omega
  · rw [toNat_ite]
    show _ ≤ if n / 4096 = 13 then 159 else 191
    split <;> omega

theorem firstChunk_four (hlow : 0x10000 ≤ n) (hhigh : n < 0x110000) :
    firstChunk (UInt8.ofNat (n / 262144 % 8 + 240))
      (UInt8.ofNat (n / 4096 % 64 + 128) :: UInt8.ofNat (n / 64 % 64 + 128) ::
        UInt8.ofNat (n % 64 + 128) :: rest) = ⟨some c, 4⟩ := by
  have hlead : lead? (UInt8.ofNat (n / 262144 % 8 + 240)) =
      some ⟨3, if n / 262144 = 0 then 0x90 else 0x80, if n / 262144 = 4 then 0x8f else 0xbf,
        n / 262144⟩ := by
    simp only [lead?, toNat_byte (show n / 262144 % 8 + 240 < 256 by omega)]
    rw [if_neg (by omega), if_neg (by omega), if_neg (by omega), if_neg (by omega),
      if_pos (by omega)]
    simp only [Option.some.injEq, Lead.mk.injEq, true_and]
    exact ⟨if_congr (by omega) rfl rfl, if_congr (by omega) rfl rfl, by omega⟩
  have hbits :
      64 * (64 * (64 * (n / 262144) + n / 4096 % 64) + n / 64 % 64) + n % 64 = n := by omega
  rw [firstChunk_of_lead hlead, readFollowing_cons, readFollowing_tail, readFollowing_tail, hbits,
    readFollowing_zero, hchar]
  · rw [toNat_ite]
    show (if n / 262144 = 0 then 144 else 128) ≤ _
    split <;> omega
  · rw [toNat_ite]
    show _ ≤ if n / 262144 = 4 then 143 else 191
    split <;> omega

end

/-- The bytes of a character are read as one chunk, whatever comes after them. -/
theorem chars_utf8EncodeChar (c : Char) (rest : Bytes) :
    chars (String.utf8EncodeChar c ++ rest) = some c :: chars rest := by
  have hvalid : c.val.toNat < 0xd800 ∨ 0xdfff < c.val.toNat ∧ c.val.toNat < 0x110000 := c.valid
  have hchar : Char.ofNat c.val.toNat = c := Char.ofNat_toNat c
  simp only [String.utf8EncodeChar]
  split_ifs with hone htwo hthree
  · rw [List.cons_append, chars, firstChunk_one hchar _ (by omega)]
    rfl
  · rw [List.cons_append, chars]
    simp only [List.cons_append, List.nil_append]
    rw [firstChunk_two hchar _ (by omega) (by omega)]
    rfl
  · rw [List.cons_append, chars]
    simp only [List.cons_append, List.nil_append]
    rw [firstChunk_three hchar _ (by omega) (by omega) (by omega)]
    rfl
  · rw [List.cons_append, chars]
    simp only [List.cons_append, List.nil_append]
    rw [firstChunk_four hchar _ (by omega) (by omega)]
    rfl

/-! ## Reading a text -/

theorem chars_flatMap (cs : List Char) :
    chars (cs.flatMap String.utf8EncodeChar) = cs.map some := by
  induction cs with
  | nil => rw [List.flatMap_nil, chars, List.map_nil]
  | cons c rest ih => rw [List.flatMap_cons, chars_utf8EncodeChar, ih, List.map_cons]

/-- The bytes of a text are read as the text. -/
theorem decode?_ofText (text : String) : decode? (Bytes.ofText text) = some text := by
  have hread : (text.toList.map some).mapM id = some text.toList :=
    List.mapM_map_eq_some fun _ _ => rfl
  rw [decode?, Bytes.ofText_eq, chars_flatMap, hread, Option.map_some, String.ofList_toList]

end Text

theorem Bytes.ofText_injective : Function.Injective Bytes.ofText := by
  intro text text' h
  have hread := congrArg Text.decode? h
  rw [Text.decode?_ofText, Text.decode?_ofText] at hread
  exact Option.some.inj hread

end CoinLedger
