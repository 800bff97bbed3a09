import CoinLedger.Proofs.Runs

/-!
# Halts

A ledger that meets corruption halts twice over: it sets its own flag, and it puts the
marker into the store, where every other ledger on that store finds it, whether it was
opened before or is opened afterwards. `SharedStore` is a store with the ledgers that have
been opened on it; its runs interleave their writes in any order.

`SharedStore.frozen_until_rebuilt` says what the marker does, on any store whatsoever:
every write is refused and no record changes, until a rebuild succeeds, which touches
nothing but the marker and the index. `Ledger.corruption_halts_iff` says when the marker
comes to be there: a commit that meets corruption always halts, while beginning a chain
gives up on a malformed tip without halting, since it reads the tip before anything that
would halt it.
-/

namespace CoinLedger

/-! ## What a rebuild touches -/

namespace Unspent

variable {s t : Store} {key : Bytes}

/-- A rebuild replaces the records under the tag of the index and no others. -/
theorem get?_rebuild {n : Nat} (h : rebuild s = .ok (n, t))
    (hkey : Store.entryTag.isPrefixOf key = false) : t.get? key = s.get? key := by
  unfold rebuild at h
  cases hblocks : Chain.blocks s with
  | error e =>
      rw [hblocks] at h
      cases h
  | ok bs =>
      rw [hblocks] at h
      obtain ⟨_, rfl⟩ := Prod.mk.inj (Except.ok.inj h)
      have hne : ∀ id, Store.entryKey id ≠ key := by
        rintro id rfl
        rw [Store.isPrefixOf_entryKey] at hkey
        cases hkey
      rw [get?_putEntries_of_ne hne, Store.get?_withoutEntries, hkey]
      rfl

end Unspent

namespace Ledger

variable {l : Ledger}

/-- The store after a successful rebuild: the index is the one of the chain, the marker
is gone, and all other records are as before. -/
structure Rebuilds (s t : Store) : Prop where
  index : ∃ n u, Unspent.rebuild s = .ok (n, u) ∧ t = u.clearHalted
  marker : t.get? Store.haltKey = none
  block : ∀ hash, t.get? (Store.blockKey hash) = s.get? (Store.blockKey hash)
  tip : t.get? Store.tipKey = s.get? Store.tipKey
  other : ∀ key, key ≠ Store.haltKey → ¬ Store.entryTag <+: key → t.get? key = s.get? key

theorem rebuilds_clearHalted {s t : Store} {n : Nat} (h : Unspent.rebuild s = .ok (n, t)) :
    Rebuilds s t.clearHalted := by
  have hother : ∀ key, key ≠ Store.haltKey → Store.entryTag.isPrefixOf key = false →
      t.clearHalted.get? key = s.get? key := by
    intro key hne hkey
    rw [Store.clearHalted, Store.get?_erase, if_neg (Ne.symm hne), Unspent.get?_rebuild h hkey]
  refine ⟨⟨n, t, h, rfl⟩, ?_, fun hash => ?_, ?_, fun key hne hkey => ?_⟩
  · rw [Store.clearHalted, Store.get?_erase, if_pos rfl]
  · exact hother _ (Store.haltKey_ne_blockKey hash).symm (Store.isPrefixOf_blockKey hash)
  · exact hother _ (by decide) (by decide)
  · refine hother key hne ?_
    rwa [← Bool.not_eq_true, List.isPrefixOf_iff_prefix]

/-- A rebuild fails and changes nothing, or succeeds and ends the halt. -/
theorem reindex_cases (l : Ledger) :
    (∃ e, l.reindex = (.error e, l)) ∨
      ∃ n t, l.reindex = (.ok n, { l with store := t, halted := false }) ∧ Rebuilds l.store t := by
  unfold reindex
  cases h : Unspent.rebuild l.store with
  | error e => exact Or.inl ⟨e, rfl⟩
  | ok p => exact Or.inr ⟨p.1, p.2.clearHalted, rfl, rebuilds_clearHalted h⟩

/-! ## A halted ledger -/

theorem isHalted_of_marked (h : (l.store.get? Store.haltKey).isSome) : l.isHalted = true := by
  rw [isHalted, Store.haltReason?, Option.isSome_map, h, Bool.or_true]

section

variable (h : l.isHalted = true)

include h

theorem ensureWritable_of_halted : l.ensureWritable = .error (.corruptStore .halted) := by
  rw [ensureWritable, if_pos h]

theorem commitBlock_of_halted (b : Block) :
    l.commitBlock b = (.error (.corruptStore .halted), l) := by
  rw [commitBlock, ensureWritable_of_halted h]

theorem createGenesis_of_halted (timestamp : Int64) (lock : Bytes) :
    l.createGenesis timestamp lock = (.error (.corruptStore .halted), l) := by
  have hseal : l.sealGenesis timestamp lock = .error (.corruptStore .halted) := by
    rw [sealGenesis, ensureWritable_of_halted h]
    rfl
  rw [createGenesis, hseal]

theorem acceptBlock_of_halted (b : Block) : ∃ e, l.acceptBlock b = (.error e, l) := by
  unfold acceptBlock
  split
  · rename_i e _
    exact ⟨e, rfl⟩
  · exact ⟨_, commitBlock_of_halted h b⟩

theorem mineBlock_of_halted (timestamp : Int64) (txs : List Transaction) (miner : Bytes)
    (calledOff : Schedule) : ∃ e, l.mineBlock timestamp txs miner calledOff = (.error e, l) := by
  unfold mineBlock
  split
  · rename_i e _
    exact ⟨e, rfl⟩
  · unfold mineCandidate
    split
    · rename_i e _
      exact ⟨e, rfl⟩
    · rw [commitMined, commitBlock_of_halted h]
      exact ⟨_, rfl⟩

end

end Ledger

/-! ## Ledgers on one store -/

/-- What a ledger is asked to do to its store. -/
inductive Write
  | genesis (timestamp : Int64) (lock : Bytes)
  | commit (b : Block)
  | accept (b : Block)
  | mine (timestamp : Int64) (txs : List Transaction) (miner : Bytes) (calledOff : Schedule)
  | reindex

/-- Carries out a write; the answer keeps only whether there was an error. -/
def Ledger.write (l : Ledger) : Write → Result Unit × Ledger
  | .genesis timestamp lock => (l.createGenesis timestamp lock).map discard id
  | .commit b => (l.commitBlock b).map discard id
  | .accept b => (l.acceptBlock b).map discard id
  | .mine timestamp txs miner calledOff =>
    (l.mineBlock timestamp txs miner calledOff).map discard id
  | .reindex => l.reindex.map discard id

/-- A halted ledger refuses every write, unless it is a rebuild that succeeds. -/
theorem Ledger.write_of_halted {l : Ledger} (h : l.isHalted = true) (w : Write) :
    (∃ e, l.write w = (.error e, l)) ∨
      (∃ t, w = .reindex ∧ l.write w = (.ok (), { l with store := t, halted := false }) ∧
        Rebuilds l.store t) := by
  cases w with
  | genesis timestamp lock =>
      left
      exact ⟨_, by rw [write, createGenesis_of_halted h]; rfl⟩
  | commit b =>
      left
      exact ⟨_, by rw [write, commitBlock_of_halted h]; rfl⟩
  | accept b =>
      left
      obtain ⟨e, herror⟩ := acceptBlock_of_halted h b
      exact ⟨e, by rw [write, herror]; rfl⟩
  | mine timestamp txs miner calledOff =>
      left
      obtain ⟨e, herror⟩ := mineBlock_of_halted h timestamp txs miner calledOff
      exact ⟨e, by rw [write, herror]; rfl⟩
  | reindex =>
      rcases reindex_cases l with ⟨e, herror⟩ | ⟨n, t, hok, hrebuilds⟩
      · left
        exact ⟨e, by rw [write, herror]; rfl⟩
      · right
        exact ⟨t, rfl, by rw [write, hok]; rfl, hrebuilds⟩

/-- What a ledger has of its own. -/
structure Handle where
  rules : Rules
  halted : Bool

/-- A store and the ledgers that have been opened on it, in the order of their opening. -/
structure SharedStore where
  store : Store
  handles : List Handle

namespace SharedStore

inductive Event
  /-- A ledger is opened on the store. -/
  | opening (rules : Rules)
  /-- The ledger with some number is asked for a write. -/
  | call (number : Nat) (w : Write)

def ledger? (σ : SharedStore) (number : Nat) : Option Ledger :=
  σ.handles[number]?.map fun h => ⟨h.rules, σ.store, h.halted⟩

/-- Lets an event happen; a call comes with its answer, if there is a ledger to give one. -/
def perform (σ : SharedStore) : Event → Option (Write × Result Unit) × SharedStore
  | .opening rules => (none, { σ with handles := σ.handles ++ [⟨rules, false⟩] })
  | .call number w =>
    match σ.ledger? number with
    | none => (none, σ)
    | some l =>
      let (answer, l) := l.write w
      (some (w, answer), ⟨l.store, σ.handles.set number ⟨l.rules, l.halted⟩⟩)

def run (σ : SharedStore) (events : List Event) : SharedStore :=
  events.foldl (fun σ e => (σ.perform e).2) σ

/-- The calls of a run in their order, each with the answer to it. -/
def answers (σ : SharedStore) : List Event → List (Write × Result Unit)
  | [] => []
  | e :: rest => (σ.perform e).1.toList ++ (σ.perform e).2.answers rest

/-- No rebuild has succeeded in a run. -/
def Pending (σ : SharedStore) (events : List Event) : Prop :=
  (.reindex, .ok ()) ∉ σ.answers events

/-- The store holds the marker of a halt, whatever reason it gives. -/
def Marked (σ : SharedStore) : Prop := (σ.store.get? Store.haltKey).isSome

section

variable {σ : SharedStore} {number : Nat}

theorem perform_of_none (h : σ.ledger? number = none) (w : Write) :
    σ.perform (.call number w) = (none, σ) := by
  simp only [perform, h]

theorem perform_of_some {l : Ledger} (h : σ.ledger? number = some l) (w : Write) :
    σ.perform (.call number w) = (some (w, (l.write w).1),
      ⟨(l.write w).2.store, σ.handles.set number ⟨(l.write w).2.rules, (l.write w).2.halted⟩⟩) := by
  simp only [perform, h]

/-- Every ledger that is open writes to the one store. -/
theorem store_of_ledger? {l : Ledger} (h : σ.ledger? number = some l) : l.store = σ.store := by
  obtain ⟨handle, _, rfl⟩ := Option.map_eq_some_iff.mp h
  rfl

theorem isHalted_of_ledger? {l : Ledger} (h : σ.Marked) (hl : σ.ledger? number = some l) :
    l.isHalted = true := by
  apply Ledger.isHalted_of_marked
  rwa [store_of_ledger? hl]

end

/-! What is answered has been asked for. -/

theorem called_of_answered {σ : SharedStore} {e : Event} {w : Write} {answer : Result Unit}
    (h : (σ.perform e).1 = some (w, answer)) : ∃ number, e = .call number w := by
  cases e with
  | opening rules => cases h
  | call number w' =>
      cases hl : σ.ledger? number with
      | none =>
          rw [perform_of_none hl] at h
          cases h
      | some l =>
          rw [perform_of_some hl] at h
          obtain ⟨rfl, _⟩ := Prod.mk.inj (Option.some.inj h)
          exact ⟨number, rfl⟩

theorem pending_of_not_called {σ : SharedStore} {events : List Event}
    (h : ∀ number, .call number .reindex ∉ events) : σ.Pending events := by
  induction events generalizing σ with
  | nil => exact List.not_mem_nil
  | cons e rest ih =>
      rw [Pending, answers, List.mem_append, not_or, Option.mem_toList]
      refine ⟨fun hanswer => ?_, ih fun number hmem => h number (List.mem_cons_of_mem e hmem)⟩
      obtain ⟨number, rfl⟩ := called_of_answered hanswer
      exact h number List.mem_cons_self

/-! ## Until a rebuild succeeds -/

/-- One event on a marked store, unless it is a rebuild that succeeds. -/
theorem perform_of_marked {σ : SharedStore} (h : σ.Marked) {e : Event}
    (hpending : (σ.perform e).1 ≠ some (.reindex, .ok ())) :
    (∀ a, (σ.perform e).1 = some a → ∃ err, a.2 = .error err) ∧
      (σ.perform e).2.store = σ.store := by
  cases e with
  | opening rules =>
      refine ⟨fun a heq => ?_, rfl⟩
      cases heq
  | call number w =>
      cases hl : σ.ledger? number with
      | none =>
          rw [perform_of_none hl]
          refine ⟨fun a heq => ?_, rfl⟩
          cases heq
      | some l =>
          rw [perform_of_some hl] at hpending ⊢
          rcases Ledger.write_of_halted (isHalted_of_ledger? h hl) w with
            ⟨err, herror⟩ | ⟨t, rfl, hok, _⟩
          · rw [herror]
            refine ⟨fun a heq => ⟨err, ?_⟩, store_of_ledger? hl⟩
            rw [← Option.some.inj heq]
          · rw [hok] at hpending
            exact absurd rfl hpending

/-- A run on a marked store in which no rebuild has succeeded. -/
theorem run_of_marked {σ : SharedStore} (h : σ.Marked) {events : List Event}
    (hpending : σ.Pending events) :
    (∀ a ∈ σ.answers events, ∃ e, a.2 = .error e) ∧ (σ.run events).store = σ.store := by
  induction events generalizing σ with
  | nil => exact ⟨fun a ha => (nomatch ha), rfl⟩
  | cons e rest ih =>
      rw [Pending, answers, List.mem_append, not_or, Option.mem_toList] at hpending
      obtain ⟨hanswer, hstore⟩ := perform_of_marked h hpending.1
      have hmarked : (σ.perform e).2.Marked := by rwa [Marked, hstore]
      obtain ⟨hanswers, hrest⟩ := ih hmarked hpending.2
      refine ⟨fun a ha => ?_, hrest.trans hstore⟩
      rw [answers, List.mem_append, Option.mem_toList] at ha
      rcases ha with ha | ha
      · exact hanswer a ha
      · exact hanswers a ha

/-- A rebuild that succeeds on a marked store. -/
theorem perform_reindex {σ σ' : SharedStore} (h : σ.Marked) {number : Nat}
    (hok : σ.perform (.call number .reindex) = (some (.reindex, .ok ()), σ')) :
    Ledger.Rebuilds σ.store σ'.store ∧ ∃ l, σ'.ledger? number = some l ∧ l.isHalted = false := by
  cases hl : σ.ledger? number with
  | none =>
      rw [perform_of_none hl] at hok
      cases hok
  | some l =>
      rw [perform_of_some hl] at hok
      rcases Ledger.write_of_halted (isHalted_of_ledger? h hl) .reindex with
        ⟨err, herror⟩ | ⟨t, _, hwrite, hrebuilds⟩
      · rw [herror] at hok
        cases hok
      · rw [hwrite] at hok
        obtain rfl := (Prod.mk.inj hok).2
        rw [store_of_ledger? hl] at hrebuilds
        obtain ⟨handle, hhandle, _⟩ := Option.map_eq_some_iff.mp hl
        have hlt := (List.getElem?_eq_some_iff.mp hhandle).1
        refine ⟨hrebuilds, ⟨l.rules, t, false⟩, ?_, ?_⟩
        · rw [ledger?, List.getElem?_set_self hlt]
          rfl
        · rw [Ledger.isHalted, Store.haltReason?, hrebuilds.marker]
          rfl

/-- On a store with the marker of a halt, whatever else it holds, and through whatever
ledgers: as long as no rebuild has succeeded, every call is answered by an error and no
record changes. The first rebuild that succeeds takes the marker away, replaces the index
and leaves everything else; the ledger that made it is not halted. -/
theorem frozen_until_rebuilt (σ : SharedStore) (hmarked : σ.Marked) (events : List Event)
    (hpending : σ.Pending events) :
    (∀ a ∈ σ.answers events, ∃ e, a.2 = .error e) ∧
    (σ.run events).store = σ.store ∧
    ∀ number σ', (σ.run events).perform (.call number .reindex) = (some (.reindex, .ok ()), σ') →
      Ledger.Rebuilds σ.store σ'.store ∧
      ∃ l, σ'.ledger? number = some l ∧ l.isHalted = false := by
  obtain ⟨hanswers, hstore⟩ := run_of_marked hmarked hpending
  refine ⟨hanswers, hstore, fun number σ' hok => ?_⟩
  have h := perform_reindex (by rwa [Marked, hstore]) hok
  rwa [hstore] at h

end SharedStore

/-- Two ledgers on a store with the root of the fork, marked because its index was lost. -/
def Fork.lostIndex : SharedStore where
  store := ((Store.empty.withBlock root).withTip root.hash).markHalted "index lost"
  handles := [⟨rules, true⟩, ⟨rules, false⟩]

/-- A third ledger is opened, and none of the three can write. -/
def Fork.refusals : List SharedStore.Event :=
  [.call 1 (.accept shorter), .opening rules, .call 2 (.commit longer), .call 0 (.genesis 0 bob)]

/-- The ledger that was opened last rebuilds the index: the reward of the root, which had no
record any more, is listed again. -/
theorem SharedStore.frozen_lostIndex :
    Fork.lostIndex.Marked ∧ Fork.lostIndex.Pending Fork.refusals ∧
    (∀ a ∈ Fork.lostIndex.answers Fork.refusals, ∃ e, a.2 = .error e) ∧
    (Fork.lostIndex.run Fork.refusals).store = Fork.lostIndex.store ∧
    Fork.lostIndex.store.get? (Store.entryKey Fork.reward.id) = none ∧
    ∃ σ', (Fork.lostIndex.run Fork.refusals).perform (.call 2 .reindex) =
        (some (.reindex, .ok ()), σ') ∧
      Ledger.Rebuilds Fork.lostIndex.store σ'.store ∧
      σ'.store.get? (Store.entryKey Fork.reward.id) =
        some (Record.encode (Entry.ofTransaction Fork.reward)) ∧
      ∃ l, σ'.ledger? 2 = some l ∧ l.isHalted = false := by
  have hmarked : Fork.lostIndex.Marked := by
    show (Store.get? _ Store.haltKey).isSome
    decide +kernel
  have hpending : Fork.lostIndex.Pending Fork.refusals := by
    apply pending_of_not_called
    intro number hmem
    simp [Fork.refusals] at hmem
  obtain ⟨hanswers, hstore, hrebuild⟩ :=
    frozen_until_rebuilt Fork.lostIndex hmarked Fork.refusals hpending
  have hok : ((Fork.lostIndex.run Fork.refusals).perform (.call 2 .reindex)).1.map Prod.snd =
      some (.ok ()) := by
    decide +kernel
  have hlost : Fork.lostIndex.store.get? (Store.entryKey Fork.reward.id) = none := by
    decide +kernel
  have hlisted : ((Fork.lostIndex.run Fork.refusals).perform (.call 2 .reindex)).2.store.get?
      (Store.entryKey Fork.reward.id) =
        some (Record.encode (Entry.ofTransaction Fork.reward)) := by
    decide +kernel
  obtain ⟨⟨w, answer⟩, hanswer, rfl⟩ := Option.map_eq_some_iff.mp hok
  obtain ⟨number, heq⟩ := called_of_answered hanswer
  obtain ⟨rfl, rfl⟩ := Event.call.inj heq
  obtain ⟨hrebuilds, hrunning⟩ := hrebuild 2 _ (Prod.ext hanswer rfl)
  exact ⟨hmarked, hpending, hanswers, hstore, hlost, _, Prod.ext hanswer rfl, hrebuilds, hlisted,
    hrunning⟩

/-! ## When a ledger halts -/

namespace Ledger

variable {l : Ledger}

/-- The ledger is halted, the store says why, and every ledger on the store is halted,
whether it was open then or is opened later, as long as no rebuild has succeeded. -/
structure HaltsFor (l : Ledger) (cause : Corruption) : Prop where
  marker : l.store.get? Store.haltKey =
    some (Bytes.ofText (LedgerError.corruptStore cause).message)
  halted : l.isHalted = true
  others : ∀ σ : SharedStore, σ.store = l.store → ∀ events, σ.Pending events →
    ∀ number l', (σ.run events).ledger? number = some l' → l'.isHalted = true

theorem haltsFor_of_marker {cause : Corruption} (h : l.store.get? Store.haltKey =
    some (Bytes.ofText (LedgerError.corruptStore cause).message)) : l.HaltsFor cause where
  marker := h
  halted := isHalted_of_marked (by rw [h]; rfl)
  others σ hstore events hpending number l' hl' := by
    have hmarked : σ.Marked := by
      rw [SharedStore.Marked, hstore, h]
      rfl
    have hkept := (SharedStore.run_of_marked hmarked hpending).2
    refine SharedStore.isHalted_of_ledger? ?_ hl'
    rwa [SharedStore.Marked, hkept]

/-- A write that meets corruption halts the ledger, whatever store it left. -/
theorem haltsFor_afterWrite {α : Type} {outcome : Result α} {s : Store} {cause : Corruption}
    (h : (l.afterWrite outcome s).1 = .error (.corruptStore cause)) :
    (l.afterWrite outcome s).2.HaltsFor cause := by
  have houtcome : outcome = .error (.corruptStore cause) := by
    unfold afterWrite at h
    split at h
    · cases h
    · rename_i e
      split at h <;> rw [Except.error.inj h]
  rw [houtcome]
  apply haltsFor_of_marker
  exact (Store.get?_insert s _ _ _).trans (if_pos rfl)

theorem ensureWritable_of_running (hrunning : l.isHalted = false) : l.ensureWritable = .ok () := by
  rw [ensureWritable, if_neg (by simp [hrunning])]

theorem commitBlock_eq (hrunning : l.isHalted = false) (b : Block) :
    l.commitBlock b = l.afterWrite (placeBlock l.store b).1 (placeBlock l.store b).2 := by
  rw [commitBlock, ensureWritable_of_running hrunning]

/-- The ways in which beginning a chain ends: the tip cannot be read, which is not taken
for a write; or nothing is written; or the first block is stored as a write. -/
theorem createGenesis_outcomes (hrunning : l.isHalted = false) (timestamp : Int64) (lock : Bytes) :
    (∃ e, Chain.tip? l.store = .error e ∧ l.createGenesis timestamp lock = (.error e, l)) ∨
    ∃ tip, Chain.tip? l.store = .ok tip ∧
      ((∃ e, e.isFatal = false ∧ l.createGenesis timestamp lock = (.error e, l)) ∨
        ∃ b, tip = none ∧ l.rules.Begins lock b ∧ l.createGenesis timestamp lock =
          l.afterWrite (placeGenesis l.store b).1 (placeGenesis l.store b).2) := by
  have hends := l.rules.sealGenesis_ends timestamp lock
  unfold createGenesis sealGenesis
  generalize l.rules.difficulty.sealGenesis timestamp
    (Transaction.coinbase lock genesisNote l.rules.reward) = sealed at hends ⊢
  rw [ensureWritable_of_running hrunning]
  cases htip : Chain.tip? l.store with
  | error e => exact Or.inl ⟨e, rfl, rfl⟩
  | ok tip =>
      right
      refine ⟨tip, rfl, ?_⟩
      cases tip with
      | some hash => exact Or.inl ⟨_, rfl, rfl⟩
      | none =>
          rcases hends.cases with ⟨e, rfl, he⟩ | ⟨b, rfl, hb⟩
          · exact Or.inl ⟨e, he, rfl⟩
          · exact Or.inr ⟨b, rfl, hb, rfl⟩

/-- The first block of a chain is stored without an error in a store without a tip,
whatever else the store holds. -/
theorem placeGenesis_eq {s : Store} {b : Block} (htip : Chain.tip? s = .ok none) (hb : b.Fits)
    (hgenesis : b.isGenesis = true) : ∃ t, placeGenesis s b = (.ok b, t) := by
  unfold placeGenesis
  cases hknown : Chain.hasBlock s b.hash with
  | true =>
      -- the block is there already: without a tip there is no chain, and its index is empty
      have hblocks : Chain.blocks s = .ok [] := by
        rw [Chain.blocks, Chain.walk, htip]
        rfl
      rw [Chain.addBlock_of_known hknown]
      simp only [Unspent.rebuild, hblocks]
      exact ⟨_, rfl⟩
  | false =>
      have htip' : Chain.tip? (s.withBlock b) = .ok none := by
        rw [← htip, Chain.tip?, Chain.tip?, Store.get?_withBlock,
          if_neg (Store.tipKey_ne_blockKey _).symm]
      have hovertakes : Chain.overtakesTip (s.withBlock b) b = .ok true := by
        rw [Chain.overtakesTip, htip']
        rfl
      have hread : Chain.block (s.withBlock b) b.hash = .ok b := by
        rw [Chain.block, Store.get?_withBlock, if_pos rfl]
        exact Chain.decodeBlock_encode hb
      have hblocks : Chain.blocks ((s.withBlock b).withTip b.hash) = .ok [b] := by
        rw [Chain.blocks_withTip, Chain.mapM_walkFrom_of_genesis hread hgenesis]
      rw [Chain.addBlock_of_new hknown, hovertakes]
      simp only [Except.map, if_true, Unspent.rebuild, hblocks]
      exact ⟨_, rfl⟩

/-- A commit that meets corruption halts the ledger, on any store. Beginning a chain does so
exactly where the tip can be read; and unless the lock is too long to be written down, it
is the tip alone that can be corrupt there, so that the ledger goes on as it was. -/
theorem corruption_halts_iff (l : Ledger) (hrunning : l.isHalted = false) :
    (∀ b cause, (l.commitBlock b).1 = .error (.corruptStore cause) →
      (l.commitBlock b).2.HaltsFor cause) ∧
    ∀ timestamp lock cause, (l.createGenesis timestamp lock).1 = .error (.corruptStore cause) →
      ((l.createGenesis timestamp lock).2.HaltsFor cause ↔ ∃ tip, Chain.tip? l.store = .ok tip) ∧
      (lock.length < 2 ^ 64 →
        (∃ e, Chain.tip? l.store = .error e) ∧ (l.createGenesis timestamp lock).2 = l) := by
  refine ⟨fun b cause h => ?_, fun timestamp lock cause h => ?_⟩
  · rw [commitBlock_eq hrunning] at h ⊢
    exact haltsFor_afterWrite h
  · rcases createGenesis_outcomes hrunning timestamp lock with
      ⟨e, htip, heq⟩ | ⟨tip, htip, ⟨e, he, heq⟩ | ⟨b, rfl, hb, heq⟩⟩
    · rw [heq, htip]
      refine ⟨⟨fun hhalts => ?_, fun ⟨tip, hok⟩ => nomatch hok⟩, fun _ => ⟨⟨e, rfl⟩, rfl⟩⟩
      exact absurd (hrunning.symm.trans hhalts.halted) Bool.false_ne_true
    · rw [heq] at h
      rw [Except.error.inj h] at he
      cases he
    · rw [heq] at h ⊢
      refine ⟨⟨fun _ => ⟨none, htip⟩, fun _ => haltsFor_afterWrite h⟩, fun hlock => ?_⟩
      obtain ⟨t, hplaced⟩ := placeGenesis_eq htip (hb.fits hlock) hb.isGenesis
      rw [hplaced] at h
      cases h

/-- A ledger on a store whose tip record is one byte long. -/
def onShortTip : Ledger := onStore Fork.rules (Store.empty.insert Store.tipKey [0])

theorem onShortTip_corrupt :
    onShortTip.isHalted = false ∧
    (onShortTip.commitBlock Fork.root).1 = .error (.corruptStore (.badDigest (.badLength 1))) ∧
    (onShortTip.createGenesis 0 Fork.bob).1 =
      .error (.corruptStore (.badDigest (.badLength 1))) := by
  decide +kernel

/-- A commit to it halts it; it refuses to begin a chain for the same reason, and goes on. -/
theorem corruption_halts_onShortTip :
    onShortTip.isHalted = false ∧
    (onShortTip.commitBlock Fork.root).1 = .error (.corruptStore (.badDigest (.badLength 1))) ∧
    (onShortTip.commitBlock Fork.root).2.HaltsFor (.badDigest (.badLength 1)) ∧
    (onShortTip.createGenesis 0 Fork.bob).1 =
      .error (.corruptStore (.badDigest (.badLength 1))) ∧
    (onShortTip.createGenesis 0 Fork.bob).2 = onShortTip := by
  obtain ⟨hrunning, hcommitted, hbegun⟩ := onShortTip_corrupt
  obtain ⟨hcommit, hgenesis⟩ := corruption_halts_iff onShortTip hrunning
  obtain ⟨_, hkept⟩ := hgenesis 0 Fork.bob _ hbegun
  exact ⟨hrunning, hcommitted, hcommit Fork.root _ hcommitted, hbegun, (hkept (by decide)).2⟩

/-- Neither its flag nor its store says then that it met corruption. -/
theorem genesis_onShortTip_running :
    onShortTip.isHalted = false ∧
    (onShortTip.createGenesis 0 Fork.bob).1 =
      .error (.corruptStore (.badDigest (.badLength 1))) ∧
    (onShortTip.createGenesis 0 Fork.bob).2.store.get? Store.haltKey = none ∧
    (onShortTip.createGenesis 0 Fork.bob).2.isHalted = false := by
  refine ⟨onShortTip_corrupt.1, onShortTip_corrupt.2.2, ?_⟩
  decide +kernel

end Ledger

end CoinLedger
