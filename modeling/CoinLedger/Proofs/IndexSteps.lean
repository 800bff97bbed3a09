import CoinLedger.Ledger.Basic
import CoinLedger.Proofs.Contents
import Mathlib.Data.List.Basic

/-!
# The index, step by step

The transactions of a chain are a sequence of events: an input consumes an output,
a transaction creates its own. `Index.follow` takes an index along such a sequence,
and fails at an input that consumes nothing the index holds.

Two things are shown about a store whose index can be read, whatever else it holds.
`Unspent.update_rewrites`: where the index can follow the transactions of a block,
`update` succeeds, does just that, and touches no other record.
`Ledger.checkSpendable_follows`: a list of transactions that passes the check of what
it spends can be followed, and the only other outcome is the refusal of a transaction.
Together they say that an update never fails on a block that was checked.
`Unspent.update_eq` and `Ledger.checkSpendable_cases` are the two for a store that
holds some contents.
-/

namespace CoinLedger

/-- The place that an input names is its index, if that is not negative. -/
theorem Input.place?_eq_some_iff {i : Input} {place : UInt32} :
    i.place? = some place ↔ i.index.toInt = place.toNat := by
  have hcond : i.index.toInt =
      if 2 * i.index.toUInt32.toNat < 2 ^ 32 then (i.index.toUInt32.toNat : Int)
      else (i.index.toUInt32.toNat : Int) - 2 ^ 32 := BitVec.toInt_eq_toNat_cond i.index.toBitVec
  have hlt := i.index.toUInt32.toNat_lt
  have hplace := place.toNat_lt
  rw [place?, Option.ite_none_right_eq_some, Option.some.injEq, Int32.le_iff_toInt_le,
    ← UInt32.toNat_inj, Int32.toInt_zero]
  split at hcond <;> omega

/-- What happens to the unspent outputs along a chain. -/
inductive Event
  | consume (i : Input)
  | create (tx : Transaction)

/-- First the inputs, then the outputs; a coinbase consumes nothing. -/
def Transaction.events (tx : Transaction) : List Event :=
  tx.spends.map .consume ++ [.create tx]

def Block.events (b : Block) : List Event := b.transactions.flatMap Transaction.events

theorem consume_mem_events {txs : List Transaction} {i : Input}
    (h : .consume i ∈ txs.flatMap Transaction.events) : ∃ tx ∈ txs, i ∈ tx.spends := by
  obtain ⟨tx, htx, hevent⟩ := List.mem_flatMap.mp h
  rcases List.mem_append.mp hevent with hspend | hcreate
  · obtain ⟨j, hj, heq⟩ := List.mem_map.mp hspend
    obtain rfl := Event.consume.inj heq
    exact ⟨tx, htx, hj⟩
  · cases List.mem_singleton.mp hcreate

theorem create_mem_events {txs : List Transaction} {tx : Transaction}
    (h : .create tx ∈ txs.flatMap Transaction.events) : tx ∈ txs := by
  obtain ⟨t, ht, hevent⟩ := List.mem_flatMap.mp h
  rcases List.mem_append.mp hevent with hspend | hcreate
  · obtain ⟨j, _, heq⟩ := List.mem_map.mp hspend
    cases heq
  · obtain rfl := Event.create.inj (List.mem_singleton.mp hcreate)
    exact ht

/-- An entry is kept only as long as it lists something. -/
def Entry.nonempty? (e : Entry) : Option Entry := if e.isEmpty then none else some e

theorem Entry.eq_of_nonempty? {e f : Entry} (h : e.nonempty? = some f) : e = f := by
  unfold nonempty? at h
  split at h
  · cases h
  · exact Option.some.inj h

theorem Entry.outputs_nonempty? (e : Entry) : e.nonempty?.elim [] outputs = e.outputs := by
  unfold nonempty?
  split
  · rename_i h
    exact (List.isEmpty_iff.mp h).symm
  · rfl

/-- Every output of a transaction is held by its entry. -/
theorem Entry.holds_ofTransaction {tx : Transaction} {place : UInt32}
    (h : place.toNat < tx.outputs.length) : (Entry.ofTransaction tx).holds place = true := by
  rw [holds, List.any_eq_true]
  refine ⟨(UInt32.ofNat place.toNat, tx.outputs[place.toNat]), ?_, by simp⟩
  refine List.mem_map.mpr ⟨(tx.outputs[place.toNat], place.toNat), ?_, rfl⟩
  exact List.mem_zipIdx_iff_getElem?.mpr (List.getElem?_eq_getElem h)

theorem Entry.fits_ofTransaction {tx : Transaction} (h : tx.Fits) :
    (Entry.ofTransaction tx).Fits where
  outputs_length := by
    simpa [ofTransaction, Transaction.indexedOutputs] using h.outputs_length
  outputs p hp := by
    obtain ⟨⟨o, n⟩, ho, rfl⟩ := List.mem_map.mp hp
    exact h.outputs o (List.fst_mem_of_mem_zipIdx ho)

theorem Entry.Fits.erase {e : Entry} (h : e.Fits) (place : UInt32) : (e.erase place).Fits where
  outputs_length := Nat.lt_of_le_of_lt (List.length_filter_le _ _) h.outputs_length
  outputs p hp := h.outputs p (List.mem_of_mem_filter hp)

namespace Index

variable {m m' : Index}

/-! ## Following events -/

/-- The index holds the output that an outpoint names. -/
def holds (m : Index) (o : Outpoint) : Bool := (m o.source).any (·.holds o.index)

/-- The outputs in the entry of a transaction. -/
def outputs (m : Index) (id : Digest) : List (UInt32 × Output) := (m id).elim [] Entry.outputs

def consume (m : Index) (i : Input) : Option Index :=
  match i.place?, m i.source with
  | some place, some e =>
    if e.holds place then some (Function.update m i.source (e.erase place).nonempty?) else none
  | _, _ => none

def create (m : Index) (tx : Transaction) : Index :=
  Function.update m tx.id (some (Entry.ofTransaction tx))

def step (m : Index) : Event → Option Index
  | .consume i => m.consume i
  | .create tx => some (m.create tx)

/-- The index after a sequence of events, none if an input consumes what the index
does not hold. -/
def follow (m : Index) (events : List Event) : Option Index := events.foldlM step m

theorem follow_cons {e : Event} {events : List Event} :
    m.follow (e :: events) = some m' ↔
      ∃ n, m.step e = some n ∧ Index.follow n events = some m' := by
  rw [follow, List.foldlM_cons]
  exact Option.bind_eq_some_iff

theorem follow_append {before after : List Event} :
    m.follow (before ++ after) = some m' ↔
      ∃ n, m.follow before = some n ∧ Index.follow n after = some m' := by
  rw [follow, List.foldlM_append]
  exact Option.bind_eq_some_iff

theorem follow_transaction {tx : Transaction} :
    m.follow tx.events = some m' ↔
      ∃ n, m.follow (tx.spends.map .consume) = some n ∧ m' = n.create tx := by
  rw [Transaction.events, follow_append]
  constructor
  · rintro ⟨n, hspends, hcreate⟩
    exact ⟨n, hspends, (Option.some.inj hcreate).symm⟩
  · rintro ⟨n, hspends, rfl⟩
    exact ⟨n, hspends, rfl⟩

theorem consume_eq_some {i : Input} : m.consume i = some m' ↔
    ∃ place e, i.place? = some place ∧ m i.source = some e ∧ e.holds place = true ∧
      m' = Function.update m i.source (e.erase place).nonempty? := by
  unfold consume
  constructor
  · intro h
    split at h
    · rename_i place e hplace he
      split at h
      · rename_i hholds
        exact ⟨place, e, hplace, he, hholds, (Option.some.inj h).symm⟩
      · cases h
    · cases h
  · rintro ⟨place, e, hplace, he, hholds, rfl⟩
    simp only [hplace, he, hholds, if_true]

/-- What is held and is not consumed stays. -/
theorem holds_of_consume {i : Input} {o consumed : Outpoint} (h : m.consume i = some m')
    (hi : i.outpoint? = some consumed) (hne : o ≠ consumed) (ho : m.holds o = true) :
    Index.holds m' o = true := by
  obtain ⟨place, e, hplace, he, _, rfl⟩ := consume_eq_some.mp h
  obtain rfl : consumed = ⟨i.source, place⟩ := by
    rw [Input.outpoint?, hplace] at hi
    exact (Option.some.inj hi).symm
  by_cases hs : o.source = i.source
  -- another place of the entry that is taken from, which is not empty then
  · have hidx : o.index ≠ place := by
      intro heq
      apply hne
      cases o
      cases hs
      cases heq
      rfl
    have hkept : (e.erase place).holds o.index = true := by
      rw [holds, hs, he] at ho
      simpa [hidx] using ho
    have hsome : (e.erase place).nonempty? = some (e.erase place) := by
      rw [Entry.nonempty?, if_neg]
      intro hempty
      rw [Entry.isEmpty, List.isEmpty_iff] at hempty
      simp [Entry.holds, hempty] at hkept
    rw [holds, hs, Function.update_self, hsome]
    exact hkept
  · rw [holds, Function.update_of_ne hs]
    exact ho

theorem holds_create_of_ne {tx : Transaction} {o : Outpoint} (h : o.source ≠ tx.id) :
    Index.holds (m.create tx) o = m.holds o := by
  rw [holds, create, Function.update_of_ne h, holds]

theorem holds_create_self {tx : Transaction} {o : Outpoint} (h : o.source = tx.id)
    (hlt : o.index.toNat < tx.outputs.length) : Index.holds (m.create tx) o = true := by
  rw [holds, create, h, Function.update_self]
  exact Entry.holds_ofTransaction hlt

end Index

/-! ## Reading the index of any store -/

namespace Unspent

open Store

variable {s t u : Store} {c : Contents} {m m' m'' : Index}

/-- Whatever else the store holds, its entries can be decoded, and make up the index. -/
structure Reads (s : Store) (m : Index) : Prop where
  entry : ∀ id, entry? s id = .ok (m id)
  fits : ∀ id e, m id = some e → e.Fits

theorem Reads.of_holds (h : s.Holds c) : Reads s c.index where
  entry := entry?_eq h
  fits := h.entries_fit

/-- The record of an entry that is read can be decoded as the entry. -/
theorem Reads.exists_data (h : Reads s m) {id : Digest} {e : Entry} (he : m id = some e) :
    ∃ data, s.get? (entryKey id) = some data ∧ decodeEntry data = .ok e := by
  have hread := h.entry id
  rw [he, entry?] at hread
  cases hget : s.get? (entryKey id) with
  | none =>
      rw [hget] at hread
      cases hread
  | some data =>
      rw [hget] at hread
      cases hdecode : decodeEntry data with
      | error cause =>
          simp only [hdecode] at hread
          cases hread
      | ok f =>
          simp only [hdecode] at hread
          obtain rfl := Option.some.inj (Except.ok.inj hread)
          exact ⟨data, rfl, hdecode⟩

/-- The index of the second store is `m'` where that of the first one is `m`. Only entries
differ, and those that do are in the second store as they are encoded. -/
structure Rewrites (s : Store) (m : Index) (t : Store) (m' : Index) : Prop where
  reads : Reads t m'
  other : ∀ key, (∀ id, key ≠ entryKey id) → t.get? key = s.get? key
  entry : ∀ id, (t.get? (entryKey id) = s.get? (entryKey id) ∧ m' id = m id) ∨
    t.get? (entryKey id) = (m' id).map Record.encode

theorem Reads.rewrites (h : Reads s m) : Rewrites s m s m where
  reads := h
  other _ _ := rfl
  entry _ := Or.inl ⟨rfl, rfl⟩

theorem Rewrites.trans (h : Rewrites s m t m') (h' : Rewrites t m' u m'') : Rewrites s m u m'' where
  reads := h'.reads
  other key hkey := (h'.other key hkey).trans (h.other key hkey)
  entry id := by
    rcases h'.entry id with ⟨hget, hm⟩ | hwritten
    · rw [hget, hm]
      exact h.entry id
    · exact Or.inr hwritten

/-- A store that differs at most in the record of one entry. -/
theorem Reads.replace_entry (h : Reads s m) {id : Digest} {e : Option Entry}
    (he : ∀ f, e = some f → f.Fits)
    (ht : ∀ key, t.get? key = if entryKey id = key then e.map Record.encode else s.get? key) :
    Rewrites s m t (Function.update m id e) := by
  have hother : ∀ other, other ≠ id → t.get? (entryKey other) = s.get? (entryKey other) := by
    intro other hne
    rw [ht, if_neg (mt entryKey_injective.mp hne.symm)]
  have hself : t.get? (entryKey id) = e.map Record.encode := by rw [ht, if_pos rfl]
  refine ⟨⟨fun other => ?_, fun other f hf => ?_⟩, fun key hkey => ?_, fun other => ?_⟩
  · by_cases heq : other = id
    · subst heq
      rw [Function.update_self]
      exact entry?_of_get? hself he
    · rw [Function.update_of_ne heq, ← h.entry other, entry?, entry?, hother other heq]
  · by_cases heq : other = id
    · subst heq
      exact he f (by simpa using hf)
    · exact h.fits other f (by rwa [Function.update_of_ne heq] at hf)
  · rw [ht, if_neg (hkey id).symm]
  · by_cases heq : other = id
    · subst heq
      rw [Function.update_self]
      exact Or.inr hself
    · rw [Function.update_of_ne heq]
      exact Or.inl ⟨hother other heq, rfl⟩

theorem Reads.putEntry (h : Reads s m) (id : Digest) {e : Entry} (he : e.Fits) :
    Rewrites s m (putEntry s id e) (Function.update m id (some e)) := by
  apply h.replace_entry
  · intro f hf
    exact Option.some.inj hf ▸ he
  · intro key
    exact get?_insert s (entryKey id) key (Record.encode e)

theorem Reads.erase_entry (h : Reads s m) (id : Digest) :
    Rewrites s m (s.erase (entryKey id)) (Function.update m id none) := by
  apply h.replace_entry
  · intro f hf
    cases hf
  · intro key
    exact get?_erase s (entryKey id) key

/-- Where all entries are stored as they are encoded, they still are afterwards. -/
theorem Rewrites.get?_entryKey (h : Rewrites s m t m')
    (hs : ∀ id, s.get? (entryKey id) = (m id).map Record.encode) (id : Digest) :
    t.get? (entryKey id) = (m' id).map Record.encode := by
  rcases h.entry id with ⟨hget, hm⟩ | hwritten
  · rw [hget, hm]
    exact hs id
  · exact hwritten

/-- A store that holds contents still does, with the other index, once entries have been
rewritten. -/
theorem Rewrites.holds (h : Rewrites s c.index t m) (hs : s.Holds c) : t.Holds (c.withIndex m) where
  block hash := (h.other _ (blockKey_ne_entryKey hash)).trans (hs.block hash)
  tip := (h.other _ tipKey_ne_entryKey).trans hs.tip
  entry := h.get?_entryKey hs.entry
  other key hblock htip hentry := (h.other key hentry).trans (hs.other key hblock htip hentry)
  blocks_fit := hs.blocks_fit
  entries_fit := h.reads.fits

/-! ## Updating the store -/

theorem consume_eq (h : Reads s m) {i : Input} (hm : m.consume i = some m') :
    ∃ t, consume s i = .ok t ∧ Rewrites s m t m' := by
  obtain ⟨place, e, hplace, he, hholds, rfl⟩ := Index.consume_eq_some.mp hm
  have hfits := h.fits i.source e he
  obtain ⟨data, hget, hdecode⟩ := h.exists_data he
  have hconsume : consume s i =
      if (e.erase place).isEmpty then .ok (s.erase (entryKey i.source))
      else .ok (Unspent.putEntry s i.source (e.erase place)) := by
    simp only [consume, hget, hdecode, bind, Except.bind, hplace, hholds]
    rfl
  by_cases hempty : (e.erase place).isEmpty
  · rw [if_pos hempty] at hconsume
    refine ⟨_, hconsume, ?_⟩
    rw [Entry.nonempty?, if_pos hempty]
    exact h.erase_entry i.source
  · rw [if_neg hempty] at hconsume
    refine ⟨_, hconsume, ?_⟩
    rw [Entry.nonempty?, if_neg hempty]
    exact h.putEntry i.source (hfits.erase place)

theorem consumeAll_eq (h : Reads s m) {inputs : List Input}
    (hm : m.follow (inputs.map .consume) = some m') :
    ∃ t, inputs.foldlM consume s = .ok t ∧ Rewrites s m t m' := by
  induction inputs generalizing s m with
  | nil =>
      obtain rfl := Option.some.inj hm
      exact ⟨s, rfl, h.rewrites⟩
  | cons i rest ih =>
      obtain ⟨n, hfirst, hrest⟩ := Index.follow_cons.mp hm
      obtain ⟨t, ht, hone⟩ := consume_eq h hfirst
      obtain ⟨u, hu, hothers⟩ := ih hone.reads hrest
      refine ⟨u, ?_, hone.trans hothers⟩
      rw [List.foldlM_cons, ht]
      exact hu

theorem applyTransaction_eq (h : Reads s m) {tx : Transaction}
    (hfits : (Entry.ofTransaction tx).Fits) (hm : m.follow tx.events = some m') :
    ∃ t, applyTransaction s tx = .ok t ∧ Rewrites s m t m' := by
  obtain ⟨n, hspends, rfl⟩ := Index.follow_transaction.mp hm
  obtain ⟨t, ht, hconsumed⟩ := consumeAll_eq h hspends
  refine ⟨Unspent.putEntry t tx.id (Entry.ofTransaction tx), ?_, ?_⟩
  · rw [applyTransaction, ht]
    rfl
  · exact hconsumed.trans (hconsumed.reads.putEntry tx.id hfits)

theorem applyAll_eq (h : Reads s m) {txs : List Transaction}
    (hfits : ∀ tx ∈ txs, (Entry.ofTransaction tx).Fits)
    (hm : m.follow (txs.flatMap Transaction.events) = some m') :
    ∃ t, txs.foldlM applyTransaction s = .ok t ∧ Rewrites s m t m' := by
  induction txs generalizing s m with
  | nil =>
      obtain rfl := Option.some.inj hm
      exact ⟨s, rfl, h.rewrites⟩
  | cons tx rest ih =>
      obtain ⟨n, hfirst, hrest⟩ := Index.follow_append.mp hm
      obtain ⟨t, ht, hone⟩ := applyTransaction_eq h (hfits tx List.mem_cons_self) hfirst
      obtain ⟨u, hu, hothers⟩ :=
        ih hone.reads (fun tx htx => hfits tx (List.mem_cons_of_mem _ htx)) hrest
      refine ⟨u, ?_, hone.trans hothers⟩
      rw [List.foldlM_cons, ht]
      exact hu

/-- Where the index can follow a block, the update succeeds and rewrites it so. -/
theorem update_rewrites (h : Reads s m) {b : Block}
    (hfits : ∀ tx ∈ b.transactions, (Entry.ofTransaction tx).Fits)
    (hm : m.follow b.events = some m') : ∃ t, update s b = .ok t ∧ Rewrites s m t m' :=
  applyAll_eq h hfits hm

/-- On a store that holds contents, the update leads to contents with that index. -/
theorem update_eq (h : s.Holds c) {b : Block} (hb : b.Fits)
    (hm : c.index.follow b.events = some m) :
    ∃ t, update s b = .ok t ∧ t.Holds (c.withIndex m) := by
  obtain ⟨t, ht, hrewrites⟩ := update_rewrites (Reads.of_holds h)
    (fun tx htx => Entry.fits_ofTransaction (hb.transactions tx htx)) hm
  exact ⟨t, ht, hrewrites.holds h⟩

end Unspent

/-! ## Checking what is spent -/

namespace Ledger

namespace Spending

variable {s : Store} {sp : Spending} {base m : Index}

/-- Whether there is an output to take, by the index that a check began with. -/
def available (sp : Spending) (base : Index) (o : Outpoint) : Bool :=
  match sp.created.lookup o.source with
  | some count => o.index.toNat < count
  | none => base.holds o

theorem isAvailable_eq (h : Unspent.Reads s base) (sp : Spending) (o : Outpoint) :
    sp.isAvailable s o = .ok (sp.available base o) := by
  unfold isAvailable available
  cases sp.created.lookup o.source with
  | some count => rfl
  | none =>
      show Unspent.entry? s o.source >>= _ = _
      rw [h.entry]
      rfl

/-- What the check would still let an input take, the index of the moment holds. -/
def Agrees (sp : Spending) (base m : Index) : Prop :=
  ∀ o, o ∉ sp.taken → sp.available base o = true → m.holds o = true

theorem take_cases (h : Unspent.Reads s base) (id : Digest) (i : Input) (hm : sp.Agrees base m) :
    take s id sp i = .error (.verificationFailed id) ∨
      ∃ sp' m', take s id sp i = .ok sp' ∧ m.consume i = some m' ∧ sp'.Agrees base m' := by
  unfold take
  cases hi : i.outpoint? with
  | none => exact Or.inl rfl
  | some o =>
      simp only [isAvailable_eq h]
      by_cases hfree : sp.available base o = true ∧ o ∉ sp.taken
      -- the only point at which the check and the index have to agree
      · right
        obtain ⟨place, hplace, rfl⟩ := Option.map_eq_some_iff.mp hi
        have hholds := hm _ hfree.2 hfree.1
        obtain ⟨e, he, hplaceHeld⟩ := (Option.any_eq_true _ _).mp hholds
        have hm' := Index.consume_eq_some.mpr ⟨place, e, hplace, he, hplaceHeld, rfl⟩
        refine ⟨{ sp with taken := ⟨i.source, place⟩ :: sp.taken }, _, ?_, hm', ?_⟩
        · simp [bind, Except.bind, hfree.1, hfree.2]
          rfl
        · intro o ho havailable
          have hne : o ≠ ⟨i.source, place⟩ := fun heq => ho (heq ▸ List.mem_cons_self)
          have hnot : o ∉ sp.taken := fun hmem => ho (List.mem_cons_of_mem _ hmem)
          exact Index.holds_of_consume hm' hi hne (hm o hnot havailable)
      · left
        show (if _ then _ else _ : Result Spending) = _
        rw [if_neg (by simpa using hfree)]
        rfl

theorem takeAll_cases (h : Unspent.Reads s base) (id : Digest) (inputs : List Input)
    (hm : sp.Agrees base m) :
    inputs.foldlM (take s id) sp = .error (.verificationFailed id) ∨
      ∃ sp' m', inputs.foldlM (take s id) sp = .ok sp' ∧
        m.follow (inputs.map .consume) = some m' ∧ sp'.Agrees base m' := by
  induction inputs generalizing sp m with
  | nil => exact Or.inr ⟨sp, m, rfl, rfl, hm⟩
  | cons i rest ih =>
      rw [List.foldlM_cons]
      rcases take_cases h id i hm with herror | ⟨sp1, m1, hok, hconsume, hm1⟩
      · left
        rw [herror]
        rfl
      · rw [hok]
        rcases ih hm1 with herror | ⟨sp2, m2, hok2, hfollow, hm2⟩
        · exact Or.inl herror
        · exact Or.inr ⟨sp2, m2, hok2, Index.follow_cons.mpr ⟨m1, hconsume, hfollow⟩, hm2⟩

/-- A transaction created in the list stands in for the entry of its id. -/
theorem Agrees.create (hm : sp.Agrees base m) (tx : Transaction) :
    Agrees { sp with created := (tx.id, tx.outputs.length) :: sp.created } base
      (m.create tx) := by
  intro o ho havailable
  by_cases hs : o.source = tx.id
  · refine Index.holds_create_self hs ?_
    simpa [available, hs] using havailable
  · rw [Index.holds_create_of_ne hs]
    refine hm o ho ?_
    have hne : (o.source == tx.id) = false := by simpa using hs
    simpa [available, List.lookup_cons, hne] using havailable

theorem addTransaction_cases (h : Unspent.Reads s base) (tx : Transaction) (hm : sp.Agrees base m) :
    addTransaction s sp tx = .error (.verificationFailed tx.id) ∨
      ∃ sp' m', addTransaction s sp tx = .ok sp' ∧ m.follow tx.events = some m' ∧
        sp'.Agrees base m' := by
  unfold addTransaction
  rcases takeAll_cases h tx.id tx.spends hm with herror | ⟨sp1, m1, hok, hfollow, hm1⟩
  · left
    rw [herror]
    rfl
  · right
    rw [hok]
    refine ⟨_, m1.create tx, rfl, ?_, hm1.create tx⟩
    exact Index.follow_transaction.mpr ⟨m1, hfollow, rfl⟩

theorem addAll_cases (h : Unspent.Reads s base) (txs : List Transaction) (hm : sp.Agrees base m) :
    (∃ id, txs.foldlM (addTransaction s) sp = .error (.verificationFailed id)) ∨
      ∃ sp' m', txs.foldlM (addTransaction s) sp = .ok sp' ∧
        m.follow (txs.flatMap Transaction.events) = some m' := by
  induction txs generalizing sp m with
  | nil => exact Or.inr ⟨sp, m, rfl, rfl⟩
  | cons tx rest ih =>
      rw [List.foldlM_cons]
      rcases addTransaction_cases h tx hm with herror | ⟨sp1, m1, hok, hfollow, hm1⟩
      · left
        rw [herror]
        exact ⟨tx.id, rfl⟩
      · rw [hok]
        rcases ih hm1 with herror | ⟨sp2, m2, hok2, hfollow2⟩
        · exact Or.inl herror
        · exact Or.inr ⟨sp2, m2, hok2, Index.follow_append.mpr ⟨m1, hfollow, hfollow2⟩⟩

end Spending

/-- The check refuses a transaction, or the index can follow the whole list. -/
theorem checkSpendable_follows {s : Store} {base : Index} (h : Unspent.Reads s base)
    (txs : List Transaction) :
    (∃ id, checkSpendable s txs = .error (.verificationFailed id)) ∨
      checkSpendable s txs = .ok () ∧
        ∃ m, base.follow (txs.flatMap Transaction.events) = some m := by
  have hstart : Spending.empty.Agrees base base := fun _ _ h => h
  unfold checkSpendable
  rcases Spending.addAll_cases h txs hstart with ⟨id, herror⟩ | ⟨sp, m, hok, hfollow⟩
  · left
    rw [herror]
    exact ⟨id, rfl⟩
  · right
    rw [hok]
    exact ⟨rfl, m, hfollow⟩

theorem checkSpendable_cases {s : Store} {c : Contents} (h : s.Holds c) (txs : List Transaction) :
    (∃ id, checkSpendable s txs = .error (.verificationFailed id)) ∨
      checkSpendable s txs = .ok () ∧
        ∃ m, c.index.follow (txs.flatMap Transaction.events) = some m :=
  checkSpendable_follows (Unspent.Reads.of_holds h) txs

end Ledger

end CoinLedger
