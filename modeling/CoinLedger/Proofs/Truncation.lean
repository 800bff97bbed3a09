import CoinLedger.Proofs.RoundTrip

/-!
# Records cut short

A reader is *steady* when what it takes off the front does not depend on what follows:
bytes added behind the data are left over behind the rest. The only thing that depends on
them is whether a length is refused, and more bytes never make a reader refuse what it
took before. A steady reader that refuses data reports that some of it is missing.

All readers of records are steady, so that no part of an encoding but the whole of it
decodes: had a part been taken for a value, the same value would be taken off the whole
with bytes left over. The main statement is `Record.cuts_refused`.
-/

namespace CoinLedger

/-- What is reported of data that ends too early: it ended inside a field, or announced
more than was left. -/
def CodecError.IsShortage : CodecError → Prop
  | truncated => True
  | lengthOverflow _ => True
  | trailingBytes _ => False

namespace Reader

variable {α β : Type}

/-- The reader takes off the same value whatever is added behind the data, and refuses
data only for being too short. -/
structure Steady (r : Reader α) : Prop where
  extended : ∀ data value rest more, r data = .ok (value, rest) →
    r (data ++ more) = .ok (value, rest ++ more)
  shortage : ∀ data e, r data = .error e → e.IsShortage

/-! ## Readers in sequence -/

theorem steady_pure (value : α) : Steady (pure value) where
  extended data other rest more h := by
    obtain ⟨rfl, rfl⟩ := Prod.mk.inj (Except.ok.inj h)
    rfl
  shortage _ _ h := nomatch h

theorem Steady.bind {r : Reader α} {f : α → Reader β} (hr : Steady r) (hf : ∀ a, Steady (f a)) :
    Steady (r >>= f) where
  extended data value rest more h := by
    cases hfirst : r data with
    | error e =>
        rw [bind_of_error hfirst] at h
        cases h
    | ok p =>
        rw [bind_of_ok hfirst] at h
        rw [bind_of_ok (hr.extended data p.1 p.2 more hfirst)]
        exact (hf p.1).extended p.2 value rest more h
  shortage data e h := by
    cases hfirst : r data with
    | error e' =>
        rw [bind_of_error hfirst] at h
        obtain rfl := Except.error.inj h
        exact hr.shortage data e' hfirst
    | ok p =>
        rw [bind_of_ok hfirst] at h
        exact (hf p.1).shortage p.2 e h

/-- A reader that takes off a fixed number of bytes. -/
theorem steady_fixed {r : Reader α} {count : Nat} (g : (bytes : Bytes) → bytes.length = count → α)
    (hr : ∀ data, r data = if h : count ≤ data.length then
      .ok (g (data.take count) (List.length_take_of_le h), data.drop count)
      else .error .truncated) : Steady r where
  extended data other rest more h := by
    rw [hr] at h ⊢
    split at h
    · rename_i hle
      obtain ⟨rfl, rfl⟩ := Prod.mk.inj (Except.ok.inj h)
      rw [dif_pos (by rw [List.length_append]; omega)]
      simp only [List.take_append_of_le_length hle, List.drop_append_of_le_length hle]
    · cases h
  shortage data e h := by
    rw [hr] at h
    split at h
    · cases h
    · obtain rfl := Except.error.inj h
      trivial

theorem steady_take (count : Nat) : Steady (take count) :=
  steady_fixed (fun bytes _ => bytes) fun _ => rfl

theorem steady_digest : Steady digest :=
  steady_fixed Digest.mk fun _ => rfl

theorem steady_number (width : Nat) : Steady (number width) :=
  (steady_take width).bind fun _ => steady_pure _

theorem Steady.times {item : Reader α} (h : Steady item) (count : Nat) :
    Steady (times count item) := by
  induction count with
  | zero => exact steady_pure []
  | succ count ih => exact h.bind fun _ => ih.bind fun _ => steady_pure _

end Reader

/-! ## Variable-length integers and lengths -/

namespace VarInt

open Reader

theorem steady_read : Steady read := by
  refine (steady_number 1).bind fun first => ?_
  split
  · exact steady_pure _
  · exact (steady_number _).bind fun _ => steady_pure _

/-- A length that the data has room for still has room in longer data. -/
theorem steady_readLength : Steady readLength where
  extended data length rest more h := by
    obtain ⟨n, hread, hroom, rfl⟩ := readLength_eq_ok_iff.mp h
    refine readLength_eq_ok_iff.mpr ⟨n, steady_read.extended data n rest more hread, ?_, rfl⟩
    rw [List.length_append]
    omega
  shortage data e h := by
    rw [readLength_eq] at h
    cases hread : read data with
    | error e' =>
        rw [hread] at h
        obtain rfl := Except.error.inj h
        exact steady_read.shortage data e' hread
    | ok p =>
        rw [hread] at h
        replace h : (if p.2.length < p.1.toNat then .error (.lengthOverflow p.1)
          else .ok (p.1.toNat, p.2) : Except CodecError (Nat × Bytes)) = .error e := h
        split at h
        · obtain rfl := Except.error.inj h
          trivial
        · cases h

end VarInt

/-! ## Records -/

/-- A record type with a steady reader. -/
class SteadyRecord (α : Type) [Record α] : Prop where
  steady_read : Reader.Steady (Record.read : Reader α)

namespace Record

open Reader

theorem steady_readBytes : Steady readBytes :=
  VarInt.steady_readLength.bind steady_take

variable {α : Type} [Record α]

theorem steady_readList [SteadyRecord α] : Steady (readList : Reader (List α)) :=
  VarInt.steady_readLength.bind SteadyRecord.steady_read.times

/-- Where the whole of some data is one record, nothing is taken off a part from its
front. The data need not be an encoding. -/
theorem decode_of_cut [SteadyRecord α] {data cut : Bytes} {value : α}
    (hread : (read : Reader α) data = .ok (value, [])) (hcut : cut <+: data) (hne : cut ≠ data) :
    ∃ e, (decode cut : Except CodecError α) = .error e ∧ e.IsShortage := by
  obtain ⟨missing, rfl⟩ := hcut
  unfold decode
  cases hfirst : (read : Reader α) cut with
  | error e => exact ⟨e, rfl, SteadyRecord.steady_read.shortage cut e hfirst⟩
  | ok p =>
      -- the value would be taken off the whole, too, with what is missing left over
      have hwhole := SteadyRecord.steady_read.extended cut p.1 p.2 missing hfirst
      rw [hread] at hwhole
      have hnil := (Prod.mk.inj (Except.ok.inj hwhole)).2
      obtain rfl : missing = [] := (List.append_eq_nil_iff.mp hnil.symm).2
      exact absurd (List.append_nil cut).symm hne

end Record

/-! ## The record types of the ledger -/

open Reader

instance : SteadyRecord Input where
  steady_read := steady_digest.bind fun _ => (steady_number 4).bind fun _ =>
    Record.steady_readBytes.bind fun _ => Record.steady_readBytes.bind fun _ => steady_pure _

instance : SteadyRecord Output where
  steady_read := (steady_number 8).bind fun _ => Record.steady_readBytes.bind fun _ => steady_pure _

instance : SteadyRecord Transaction where
  steady_read := steady_digest.bind fun _ => Record.steady_readList.bind fun _ =>
    Record.steady_readList.bind fun _ => steady_pure _

instance : SteadyRecord Block where
  steady_read := (steady_number 8).bind fun _ => steady_digest.bind fun _ =>
    steady_digest.bind fun _ => (steady_number 8).bind fun _ => (steady_number 8).bind fun _ =>
    Record.steady_readList.bind fun _ => steady_pure _

instance : SteadyRecord Entry where
  steady_read := by
    have hitem : Steady (do
        let place ← VarInt.read
        let o ← (Record.read : Reader Output)
        return (place.toUInt32, o)) :=
      VarInt.steady_read.bind fun _ => SteadyRecord.steady_read.bind fun _ => steady_pure _
    exact VarInt.steady_readLength.bind fun count => (hitem.times count).bind fun _ => steady_pure _

namespace Record

variable {α : Type} [Record α]

/-- No part of the encoding from its front, the empty one included, decodes: either it
ends inside a field, or it announces a length that it does not hold. -/
def RefusesCuts (value : α) : Prop :=
  ∀ cut, cut <+: encode value → cut ≠ encode value →
    (decode cut : Except CodecError α) = .error .truncated ∨
      ∃ length, (decode cut : Except CodecError α) = .error (.lengthOverflow length)

theorem refusesCuts_of_fits [LawfulRecord α] [SteadyRecord α] {value : α}
    (h : LawfulRecord.Fits value) : RefusesCuts value := by
  intro cut hcut hne
  have hread := LawfulRecord.reads_encode h []
  rw [List.append_nil] at hread
  obtain ⟨e, herror, hshort⟩ := decode_of_cut hread hcut hne
  rw [herror]
  cases e with
  | truncated => exact Or.inl rfl
  | lengthOverflow length => exact Or.inr ⟨length, rfl⟩
  | trailingBytes count => cases hshort

/-- Every value of every record type of the ledger that fits: its encoding cut short
decodes neither as the value nor as another one. -/
theorem cuts_refused : (∀ i : Input, i.Fits → RefusesCuts i) ∧
    (∀ o : Output, o.Fits → RefusesCuts o) ∧ (∀ e : Entry, e.Fits → RefusesCuts e) ∧
    (∀ tx : Transaction, tx.Fits → RefusesCuts tx) ∧ ∀ b : Block, b.Fits → RefusesCuts b :=
  ⟨fun _ => refusesCuts_of_fits (α := Input), fun _ => refusesCuts_of_fits (α := Output),
    fun _ => refusesCuts_of_fits (α := Entry), fun _ => refusesCuts_of_fits (α := Transaction),
    fun _ => refusesCuts_of_fits (α := Block)⟩

/-- A transaction with one input and one output. -/
def smallTransaction : Transaction :=
  ⟨Digest.zero, [Input.coinbase [1, 2]], [⟨100, [7]⟩]⟩

/-- A block of 173 bytes. -/
def smallBlock : Block := ⟨0, Digest.zero, [smallTransaction], Digest.zero, 0, 0⟩

/-- The block and its parts. The block is cut in front of the number of transactions, and in
front of its last byte, the one of the lock. -/
theorem cuts_refused_smallBlock :
    RefusesCuts (Input.coinbase [1, 2]) ∧ RefusesCuts (⟨100, [7]⟩ : Output) ∧
    RefusesCuts (Entry.ofTransaction smallTransaction) ∧ RefusesCuts smallTransaction ∧
    RefusesCuts smallBlock ∧
    (decode ((encode smallBlock).take 88) : Except CodecError Block) = .error .truncated ∧
    (decode ((encode smallBlock).take 172) : Except CodecError Block) =
      .error (.lengthOverflow 1) := by
  obtain ⟨hinput, houtput, hentry, htransaction, hblock⟩ := cuts_refused
  refine ⟨hinput _ (by decide), houtput _ (by decide), hentry _ ⟨by decide, by decide⟩,
    htransaction _ (by decide), hblock _ (by decide), ?_, ?_⟩
  · decide +kernel
  · decide +kernel

end Record

end CoinLedger
