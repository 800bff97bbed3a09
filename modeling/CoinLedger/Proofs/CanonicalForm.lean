import CoinLedger.Proofs.RoundTrip

/-!
# Encodings are the shortest forms

Readers accept more than what is written: a length may come in a longer form than it
needs, and the place of an output is cut down to 32 bits. So several byte strings may
decode as one value, and the encoding of the value is the shortest of them.

A byte string `Covers` another if it is longer or the same. `Reader.Canonical` says of a
reader that the bytes it takes off cover the canonical form of the value it gives.
Readers in sequence are composed by `Canonical.bind`: what was taken before counts as
the part of the form that is known already. The main statement, `Record.encode_shortest`,
is the one for the record types of the ledger.
-/

namespace CoinLedger

namespace Bytes

/-- The first byte string is longer than the second, or is the same. -/
def Covers (used form : Bytes) : Prop := form.length < used.length ∨ form = used

variable {used form used' form' : Bytes}

theorem Covers.refl (form : Bytes) : Covers form form := Or.inr rfl

theorem Covers.trans {middle : Bytes} (h : Covers used middle) (h' : Covers middle form) :
    Covers used form := by
  rcases h with hlt | rfl
  · rcases h' with hlt' | rfl
    · exact Or.inl (Nat.lt_trans hlt' hlt)
    · exact Or.inl hlt
  · exact h'

theorem Covers.append (h : Covers used form) (h' : Covers used' form') :
    Covers (used ++ used') (form ++ form') := by
  rcases h with hlt | rfl
  · rcases h' with hlt' | rfl
    · exact Or.inl (by simp only [List.length_append]; omega)
    · exact Or.inl (by simp only [List.length_append]; omega)
  · rcases h' with hlt' | rfl
    · exact Or.inl (by simp only [List.length_append]; omega)
    · exact Covers.refl _

/-- No form is longer than what covers it, and one of the same length is the same. -/
theorem Covers.length_le (h : Covers used form) : form.length ≤ used.length := by
  rcases h with hlt | rfl
  · exact Nat.le_of_lt hlt
  · exact Nat.le_refl _

theorem Covers.eq_of_length_eq (h : Covers used form) (hlength : form.length = used.length) :
    form = used := by
  rcases h with hlt | rfl
  · omega
  · rfl

/-- Bytes are the digits of the number that they spell. -/
theorem littleEndian_ofLittleEndian (bytes : Bytes) :
    littleEndian bytes.length (ofLittleEndian bytes) = bytes := by
  induction bytes with
  | nil => rfl
  | cons b rest ih =>
      have hlow : UInt8.ofNat (b.toNat + 256 * ofLittleEndian rest) = b := by
        rw [← UInt8.toNat_inj, UInt8.toNat_ofNat']
        have := b.toNat_lt
        omega
      have hrest : (b.toNat + 256 * ofLittleEndian rest) / 256 = ofLittleEndian rest := by
        have := b.toNat_lt
        omega
      rw [List.length_cons, littleEndian, ofLittleEndian, hlow, hrest, ih]

theorem ofLittleEndian_lt (bytes : Bytes) : ofLittleEndian bytes < 256 ^ bytes.length := by
  induction bytes with
  | nil => exact Nat.one_pos
  | cons b rest ih =>
      have := b.toNat_lt
      rw [ofLittleEndian, List.length_cons, Nat.pow_succ]
      omega

end Bytes

open Bytes (Covers)

namespace Reader

variable {α β : Type}

/-- Behind bytes that have been taken as `known`, whatever else the reader takes off
completes them to a cover of the form of the value, and the value has the property. -/
def Canonical (r : Reader α) (known : Bytes) (form : α → Bytes) (P : α → Prop) : Prop :=
  ∀ data value rest, r data = .ok (value, rest) →
    P value ∧ ∃ used, data = used ++ rest ∧ Covers (known ++ used) (form value)

/-! ## Readers in sequence -/

theorem canonical_pure {value : α} {known : Bytes} {form : α → Bytes} {P : α → Prop}
    (hform : Covers known (form value)) (hvalue : P value) :
    Canonical (pure value) known form P := by
  intro data value' rest h
  obtain ⟨rfl, rfl⟩ := Prod.mk.inj (Except.ok.inj h)
  exact ⟨hvalue, [], rfl, by rwa [List.append_nil]⟩

theorem Canonical.bind {r : Reader α} {k : α → Reader β} {known : Bytes} {f : α → Bytes}
    {form : β → Bytes} {P : α → Prop} {Q : β → Prop} (hr : Canonical r [] f P)
    (hk : ∀ a, P a → Canonical (k a) (known ++ f a) form Q) : Canonical (r >>= k) known form Q := by
  intro data value rest h
  cases hfirst : r data with
  | error e =>
      rw [bind_of_error hfirst] at h
      cases h
  | ok p =>
      obtain ⟨a, middle⟩ := p
      rw [bind_of_ok hfirst] at h
      obtain ⟨ha, used, rfl, hused⟩ := hr data a middle hfirst
      obtain ⟨hvalue, more, rfl, hmore⟩ := hk a ha middle value rest h
      refine ⟨hvalue, used ++ more, (List.append_assoc _ _ _).symm, ?_⟩
      have hboth := ((Covers.refl known).append hused).append (Covers.refl more)
      rw [List.nil_append, List.append_assoc] at hboth
      exact hboth.trans hmore

/-- A reader behind others, where nothing is read after it. -/
theorem Canonical.last {r : Reader α} {known : Bytes} {f form : α → Bytes} {P Q : α → Prop}
    (hr : Canonical r [] f P) (hform : ∀ a, P a → known ++ f a = form a)
    (hPQ : ∀ a, P a → Q a) : Canonical r known form Q := by
  intro data value rest h
  obtain ⟨hvalue, used, hdata, hused⟩ := hr data value rest h
  refine ⟨hPQ value hvalue, used, hdata, ?_⟩
  rw [← hform value hvalue]
  exact (Covers.refl known).append hused

theorem canonical_take (count : Nat) :
    Canonical (take count) [] id fun bytes => bytes.length = count := by
  intro data bytes rest h
  unfold take at h
  split at h
  · rename_i hle
    obtain ⟨rfl, rfl⟩ := Prod.mk.inj (Except.ok.inj h)
    refine ⟨List.length_take_of_le hle, data.take count,
      (List.take_append_drop count data).symm, ?_⟩
    exact Covers.refl _
  · cases h

theorem canonical_digest : Canonical digest [] Digest.bytes fun _ => True := by
  intro data d rest h
  unfold digest at h
  split at h
  · obtain ⟨rfl, rfl⟩ := Prod.mk.inj (Except.ok.inj h)
    exact ⟨trivial, data.take 32, (List.take_append_drop 32 data).symm, Covers.refl _⟩
  · cases h

theorem canonical_number (width : Nat) :
    Canonical (number width) [] (Bytes.littleEndian width) (· < 256 ^ width) := by
  refine (canonical_take width).bind fun bytes hlength => ?_
  subst hlength
  apply canonical_pure
  · rw [Bytes.littleEndian_ofLittleEndian]
    exact Covers.refl bytes
  · exact Bytes.ofLittleEndian_lt bytes

/-- Items one behind the other, by induction on their number. -/
theorem canonical_times {item : Reader α} {f : α → Bytes} {P : α → Prop}
    (h : Canonical item [] f P) (count : Nat) :
    Canonical (times count item) [] (List.flatMap f)
      fun items => items.length = count ∧ ∀ a ∈ items, P a := by
  induction count with
  | zero => exact canonical_pure (Covers.refl []) ⟨rfl, fun a ha => nomatch ha⟩
  | succ count ih =>
      refine h.bind fun first hfirst => ih.bind fun rest hrest => ?_
      apply canonical_pure
      · rw [List.flatMap_cons, List.nil_append]
        exact Covers.refl _
      · refine ⟨by rw [List.length_cons, hrest.1], fun a ha => ?_⟩
        rcases List.mem_cons.mp ha with rfl | ha
        · exact hfirst
        · exact hrest.2 a ha

end Reader

/-! ## Variable-length integers and lengths -/

namespace VarInt

open Reader

theorem encode_eq (n : UInt64) : encode n =
    if n.toNat < 0xfd then [n.toUInt8]
    else if n.toNat < 256 ^ 2 then 0xfd :: Bytes.littleEndian 2 n.toNat
    else if n.toNat < 256 ^ 4 then 0xfe :: Bytes.littleEndian 4 n.toNat
    else 0xff :: Bytes.littleEndian 8 n.toNat := by
  unfold encode
  simp only [UInt64.lt_iff_toNat_lt, UInt64.le_iff_toNat_le, ← Nat.lt_add_one_iff]
  rfl

/-- No form with a marker is shorter than what is written for its number. -/
theorem covers_marked {marker : UInt8} {width m : Nat} (hwidth : markedWidth? marker = some width)
    (hm : m < 256 ^ width) :
    Covers (marker :: Bytes.littleEndian width m) (encode (UInt64.ofNat m)) := by
  have hmarker : (marker = 0xfd ∧ width = 2) ∨ (marker = 0xfe ∧ width = 4) ∨
      (marker = 0xff ∧ width = 8) := by
    unfold markedWidth? at hwidth
    split_ifs at hwidth with h2 h4 h8
    · exact Or.inl ⟨h2, (Option.some.inj hwidth).symm⟩
    · exact Or.inr (Or.inl ⟨h4, (Option.some.inj hwidth).symm⟩)
    · exact Or.inr (Or.inr ⟨h8, (Option.some.inj hwidth).symm⟩)
  have hnat : (UInt64.ofNat m).toNat = m := by
    apply UInt64.toNat_ofNat_of_lt'
    rcases hmarker with ⟨_, rfl⟩ | ⟨_, rfl⟩ | ⟨_, rfl⟩ <;> exact Nat.lt_of_lt_of_le hm (by decide)
  rw [encode_eq, hnat]
  -- a number that has a shorter form is written in it, the others in the form at hand
  unfold Bytes.Covers
  rcases hmarker with ⟨rfl, rfl⟩ | ⟨rfl, rfl⟩ | ⟨rfl, rfl⟩
  · split_ifs <;> simp
  · split_ifs <;> simp
  · split_ifs <;> simp

/-- A byte that is no marker is what is written for its number. -/
theorem encode_of_unmarked {first : Nat} (hfirst : first < 256)
    (hnone : markedWidth? (UInt8.ofNat first) = none) :
    encode (UInt64.ofNat first) = [UInt8.ofNat first] := by
  have hnat : (UInt64.ofNat first).toNat = first :=
    UInt64.toNat_ofNat_of_lt' (Nat.lt_trans hfirst (by decide))
  have hlt : first < 0xfd := by
    unfold markedWidth? at hnone
    split_ifs at hnone with h2 h4 h8
    simp only [← UInt8.toNat_inj, UInt8.toNat_ofNat', Nat.mod_eq_of_lt hfirst] at h2 h4 h8
    simp at h2 h4 h8
    omega
  rw [encode_eq, hnat, if_pos hlt]
  congr 1
  rw [← UInt8.toNat_inj, UInt64.toNat_toUInt8, hnat, UInt8.toNat_ofNat']

theorem canonical_read : Canonical read [] encode fun _ => True := by
  refine (canonical_number 1).bind fun first hfirst => ?_
  have hbyte : [] ++ Bytes.littleEndian 1 first = [UInt8.ofNat first] := rfl
  rw [hbyte]
  cases hmarked : markedWidth? (UInt8.ofNat first) with
  | none =>
      apply canonical_pure
      · rw [encode_of_unmarked hfirst hmarked]
        exact Covers.refl _
      · trivial
  | some width =>
      refine (canonical_number width).bind fun m hm => ?_
      exact canonical_pure (covers_marked hmarked hm) trivial

/-- What is left after a number is cut down to 32 bits takes no more bytes. -/
theorem covers_encode_toUInt32 (n : UInt64) : Covers (encode n) (encode n.toUInt32.toUInt64) := by
  by_cases hn : n.toNat < 256 ^ 4
  · have hsame : n.toUInt32.toUInt64 = n := by
      rw [← UInt64.toNat_inj, UInt32.toNat_toUInt64, UInt64.toNat_toUInt32]
      exact Nat.mod_eq_of_lt hn
    rw [hsame]
    exact Covers.refl _
  · have hlong : (encode n).length = 9 := by
      rw [encode_eq, if_neg (by omega), if_neg (by omega), if_neg hn]
      simp
    have hlt : n.toUInt32.toUInt64.toNat < 256 ^ 4 := by
      rw [UInt32.toNat_toUInt64]
      exact n.toUInt32.toNat_lt
    have hshort : (encode n.toUInt32.toUInt64).length ≤ 5 := by
      rw [encode_eq]
      split_ifs <;> simp
    exact Or.inl (by omega)

theorem canonical_readLength :
    Canonical readLength [] (fun length => encode (UInt64.ofNat length)) (· < 2 ^ 64) := by
  intro data length rest h
  obtain ⟨n, hread, _, rfl⟩ := readLength_eq_ok_iff.mp h
  obtain ⟨_, used, hdata, hused⟩ := canonical_read data n rest hread
  refine ⟨n.toNat_lt, used, hdata, ?_⟩
  show Covers _ (encode (UInt64.ofNat n.toNat))
  rwa [UInt64.ofNat_toNat]

end VarInt

namespace Record

open Reader

theorem canonical_readBytes :
    Canonical readBytes [] encodeBytes fun bytes => bytes.length < 2 ^ 64 := by
  refine VarInt.canonical_readLength.bind fun length hlength => ?_
  apply (canonical_take length).last
  · rintro bytes rfl
    rfl
  · rintro bytes rfl
    exact hlength

/-- A count and as many items. -/
theorem canonical_counted {α : Type} {item : Reader α} {f : α → Bytes} {P : α → Prop}
    (h : Canonical item [] f P) :
    Canonical (do times (← VarInt.readLength) item) []
      (fun items => VarInt.ofLength items ++ items.flatMap f)
      fun items => items.length < 2 ^ 64 ∧ ∀ a ∈ items, P a := by
  refine VarInt.canonical_readLength.bind fun count hcount => ?_
  apply (canonical_times h count).last
  · rintro items ⟨rfl, _⟩
    rfl
  · rintro items ⟨rfl, hitems⟩
    exact ⟨hcount, hitems⟩

end Record

/-- A record type whose reader takes no value off fewer bytes than its encoding has. -/
class CanonicalRecord (α : Type) [Record α] extends LawfulRecord α where
  canonical_read : Reader.Canonical Record.read [] (Record.encode : α → Bytes) Fits

namespace Record

open Reader

theorem decode_eq_ok {α : Type} [Record α] {data : Bytes} {value : α}
    (h : decode data = .ok value) : (read : Reader α) data = .ok (value, []) := by
  unfold decode at h
  split at h
  · cases h
  · rename_i hread
    rwa [← Except.ok.inj h]
  · cases h

variable {α : Type} [Record α] [CanonicalRecord α]

theorem canonical_readList : Canonical (readList : Reader (List α)) [] encodeList
    fun items => items.length < 2 ^ 64 ∧ ∀ a ∈ items, LawfulRecord.Fits a :=
  canonical_counted CanonicalRecord.canonical_read

/-- A byte string that decodes as a value covers the encoding of the value, and the
value fits. -/
theorem covers_of_decode {data : Bytes} {value : α} (h : decode data = .ok value) :
    LawfulRecord.Fits value ∧ Covers data (encode value) := by
  obtain ⟨hfits, used, hdata, hused⟩ :=
    CanonicalRecord.canonical_read data value [] (decode_eq_ok h)
  rw [List.append_nil] at hdata
  rw [hdata]
  exact ⟨hfits, hused⟩

end Record

/-! ## The record types of the ledger -/

open Reader

instance : CanonicalRecord Input where
  canonical_read := by
    refine canonical_digest.bind fun source _ => (canonical_number 4).bind fun index hindex =>
      Record.canonical_readBytes.bind fun signature hsignature =>
      Record.canonical_readBytes.bind fun key hkey => ?_
    apply canonical_pure
    · have hplace : (UInt32.ofNat index).toInt32.toUInt32.toNat = index := by
        rw [UInt32.toUInt32_toInt32]
        exact UInt32.toNat_ofNat_of_lt' hindex
      simp only [Record.encode, hplace, List.nil_append]
      exact Covers.refl _
    · exact ⟨hsignature, hkey⟩

instance : CanonicalRecord Output where
  canonical_read := by
    refine (canonical_number 8).bind fun value hvalue => Record.canonical_readBytes.bind
      fun lock hlock => ?_
    apply canonical_pure
    · have hamount : (UInt64.ofNat value).toNat = value := UInt64.toNat_ofNat_of_lt' hvalue
      simp only [Record.encode, hamount, List.nil_append]
      exact Covers.refl _
    · exact hlock

instance : CanonicalRecord Transaction where
  canonical_read := by
    refine canonical_digest.bind fun id _ => Record.canonical_readList.bind fun inputs hinputs =>
      Record.canonical_readList.bind fun outputs houtputs => ?_
    apply canonical_pure
    · simp only [Record.encode, List.nil_append]
      exact Covers.refl _
    · exact ⟨hinputs.1, hinputs.2, houtputs.1, houtputs.2⟩

instance : CanonicalRecord Block where
  canonical_read := by
    refine (canonical_number 8).bind fun timestamp htimestamp => canonical_digest.bind fun hash _ =>
      canonical_digest.bind fun parent _ => (canonical_number 8).bind fun nonce hnonce =>
      (canonical_number 8).bind fun height hheight => Record.canonical_readList.bind
      fun transactions htransactions => ?_
    apply canonical_pure
    · have htime : (UInt64.ofNat timestamp).toInt64.toUInt64.toNat = timestamp := by
        rw [UInt64.toUInt64_toInt64]
        exact UInt64.toNat_ofNat_of_lt' htimestamp
      have hword {n : Nat} (hn : n < 256 ^ 8) : (UInt64.ofNat n).toNat = n :=
        UInt64.toNat_ofNat_of_lt' hn
      simp only [Record.encode, htime, hword hnonce, hword hheight, List.nil_append]
      exact Covers.refl _
    · exact ⟨htransactions.1, htransactions.2⟩

/-- The place may be written in nine bytes and come back as one that needs fewer. -/
theorem Entry.canonical_item : Canonical (do
      let place ← VarInt.read
      let o ← Record.read
      return (place.toUInt32, o)) []
    (fun p : UInt32 × Output => VarInt.encode p.1.toUInt64 ++ Record.encode p.2)
    fun p => p.2.Fits := by
  refine VarInt.canonical_read.bind fun place _ =>
    CanonicalRecord.canonical_read.bind fun o ho => ?_
  apply canonical_pure
  · rw [List.nil_append]
    exact (VarInt.covers_encode_toUInt32 place).append (Covers.refl _)
  · exact ho

instance : CanonicalRecord Entry where
  canonical_read := by
    refine VarInt.canonical_readLength.bind fun count hcount =>
      (canonical_times Entry.canonical_item count).bind fun outputs houtputs => ?_
    apply canonical_pure
    · rw [← houtputs.1, List.nil_append]
      exact Covers.refl _
    · exact ⟨houtputs.1 ▸ hcount, houtputs.2⟩

namespace Record

variable {α : Type} [Record α]

/-- Of the byte strings that decode as one value, its encoding is the only shortest one,
and it decodes as the value. -/
def Shortest (α : Type) [Record α] : Prop :=
  ∀ (data : Bytes) (value : α), decode data = .ok value →
    (encode value).length ≤ data.length ∧
      ((encode value).length = data.length → encode value = data) ∧
      decode (encode value) = .ok value

theorem shortest_of_canonical [CanonicalRecord α] : Shortest α := by
  intro data value h
  obtain ⟨hfits, hcovers⟩ := covers_of_decode h
  exact ⟨hcovers.length_le, hcovers.eq_of_length_eq, decode_encode hfits⟩

/-- For every record type of the ledger and every byte string that decodes as a value:
the encoding of the value is no longer, it is the byte string itself if it is as long,
and decoding and encoding again changes nothing more. -/
theorem encode_shortest : Shortest Input ∧ Shortest Output ∧ Shortest Entry ∧
    Shortest Transaction ∧ Shortest Block :=
  ⟨shortest_of_canonical, shortest_of_canonical, shortest_of_canonical, shortest_of_canonical,
    shortest_of_canonical⟩

/-- An entry with one output of value 5, at place `2 ^ 32 + 3`, which is cut down to 3.
The number of outputs, the place and the length of the lock are all written longer than
they need to be. -/
def longEntry : Bytes :=
  [0xfd, 1, 0] ++ (0xff :: Bytes.littleEndian 8 (2 ^ 32 + 3)) ++ Bytes.littleEndian 8 5 ++
    [0xfe, 1, 0, 0, 0] ++ [7]

theorem longEntry_shortened : decode longEntry = .ok (⟨[(3, ⟨5, [7]⟩)]⟩ : Entry) ∧
    (encode (⟨[(3, ⟨5, [7]⟩)]⟩ : Entry)).length < longEntry.length ∧
    decode (encode (⟨[(3, ⟨5, [7]⟩)]⟩ : Entry)) = .ok (⟨[(3, ⟨5, [7]⟩)]⟩ : Entry) := by
  have hdecode : decode longEntry = .ok (⟨[(3, ⟨5, [7]⟩)]⟩ : Entry) := by decide +kernel
  obtain ⟨hlength, heq, hagain⟩ := encode_shortest.2.2.1 longEntry _ hdecode
  have hne : encode (⟨[(3, ⟨5, [7]⟩)]⟩ : Entry) ≠ longEntry := by decide +kernel
  exact ⟨hdecode, Nat.lt_of_le_of_ne hlength fun h => hne (heq h), hagain⟩

end Record

end CoinLedger
