import CoinLedger.Proofs.Provenance

/-!
# When the index drifts from the chain

The index is kept in two ways that must agree: an update takes it from one block to
the next, and a rebuild computes it from the whole chain. They do not agree on every
block that a ledger admits. An update puts the outputs of a transaction in the place
of what stood under its id; a rebuild gathers what all transactions of that id leave
over, and writes no entry without outputs.

`Index.Faithful` says when a block makes no difference between the two, and
`Index.follow_eq_ofChain_iff` shows that it says exactly this. For runs this gives
`Session.syncedThroughout_iff`: a rebuild would change no byte in any state of a run exactly
when every block that the run put on top of the tip is faithful to the index that it
met.
-/

namespace CoinLedger

theorem consumedBy_append (before after : List Transaction) :
    consumedBy (before ++ after) = consumedBy before ++ consumedBy after := by
  simp [consumedBy]

theorem filter_notMem_filter_notMem {α β : Type} [DecidableEq β] (f : α → β) (xs ys : List β)
    (items : List α) :
    (items.filter fun a => f a ∉ xs).filter (fun a => f a ∉ ys) =
      items.filter fun a => f a ∉ xs ++ ys := by
  rw [List.filter_filter]
  refine List.filter_congr fun a _ => ?_
  rw [Bool.eq_iff_iff]
  simp [and_comm]

/-- Of the transactions with an id there is a last one. -/
theorem exists_last_of_id {txs : List Transaction} {id : Digest} (h : ∃ tx ∈ txs, tx.id = id) :
    ∃ before tx after, txs = before ++ tx :: after ∧ tx.id = id ∧ ∀ t ∈ after, t.id ≠ id := by
  induction txs with
  | nil =>
      obtain ⟨tx, htx, _⟩ := h
      cases htx
  | cons t rest ih =>
      by_cases hrest : ∃ tx ∈ rest, tx.id = id
      · obtain ⟨before, tx, after, rfl, hid, hafter⟩ := ih hrest
        exact ⟨t :: before, tx, after, rfl, hid, hafter⟩
      · obtain ⟨tx, htx, hid⟩ := h
        have hnone : ∀ u ∈ rest, u.id ≠ id := fun u hu heq => hrest ⟨u, hu, heq⟩
        rcases List.mem_cons.mp htx with rfl | htx
        · exact ⟨[], tx, rest, rfl, hid, hnone⟩
        · exact absurd hid (hnone tx htx)

namespace Index

variable {m m' : Index} {id : Digest}

/-! ## The outputs after an update -/

theorem outputs_follow_inputs {inputs : List Input}
    (h : m.follow (inputs.map .consume) = some m') (id : Digest) :
    outputs m' id =
      (m.outputs id).filter fun p => ⟨id, p.1⟩ ∉ inputs.filterMap Input.outpoint? := by
  induction inputs generalizing m with
  | nil =>
      obtain rfl := Option.some.inj h
      simp
  | cons i rest ih =>
      obtain ⟨n, hfirst, hrest⟩ := follow_cons.mp h
      have hall : (i :: rest).filterMap Input.outpoint? =
          i.outpoint?.toList ++ rest.filterMap Input.outpoint? := by
        rw [List.filterMap_cons]
        cases i.outpoint? <;> rfl
      rw [ih hrest, outputs_consume hfirst, filter_notMem_filter_notMem, hall]

theorem outputs_follow_transaction_of_ne {tx : Transaction} (h : m.follow tx.events = some m')
    (hid : id ≠ tx.id) :
    outputs m' id =
      (m.outputs id).filter fun p => ⟨id, p.1⟩ ∉ tx.spends.filterMap Input.outpoint? := by
  obtain ⟨n, hspends, rfl⟩ := follow_transaction.mp h
  rw [outputs_create_of_ne hid, outputs_follow_inputs hspends]

theorem outputs_follow_transaction_self {tx : Transaction} (h : m.follow tx.events = some m') :
    outputs m' tx.id = tx.indexedOutputs := by
  obtain ⟨n, _, rfl⟩ := follow_transaction.mp h
  exact outputs_create_self n tx

/-- Transactions of other ids take from an entry what they consume. -/
theorem outputs_follow_of_ne {txs : List Transaction}
    (h : m.follow (txs.flatMap Transaction.events) = some m') (hid : ∀ tx ∈ txs, tx.id ≠ id) :
    outputs m' id = (m.outputs id).filter fun p => ⟨id, p.1⟩ ∉ consumedBy txs := by
  induction txs generalizing m with
  | nil =>
      obtain rfl := Option.some.inj h
      simp [consumedBy]
  | cons tx rest ih =>
      obtain ⟨n, hfirst, hrest⟩ := follow_append.mp h
      have htx := Ne.symm (hid tx List.mem_cons_self)
      rw [ih hrest fun t ht => hid t (List.mem_cons_of_mem _ ht),
        outputs_follow_transaction_of_ne hfirst htx, filter_notMem_filter_notMem]
      rfl

/-- The last transaction with an id replaces what stood there; what later ones
consume of it is gone. -/
theorem outputs_follow_last {before after : List Transaction} {tx : Transaction}
    (h : m.follow ((before ++ tx :: after).flatMap Transaction.events) = some m')
    (hlast : ∀ t ∈ after, t.id ≠ tx.id) :
    outputs m' tx.id = tx.indexedOutputs.filter fun p => ⟨tx.id, p.1⟩ ∉ consumedBy after := by
  rw [List.flatMap_append, List.flatMap_cons] at h
  obtain ⟨n, _, hrest⟩ := follow_append.mp h
  obtain ⟨k, hself, hafter⟩ := follow_append.mp hrest
  rw [outputs_follow_of_ne hafter hlast, outputs_follow_transaction_self hself]

/-! ## Entries without outputs -/

theorem consume_bare_iff {i : Input} (h : m.consume i = some m') :
    m' id = some ⟨[]⟩ ↔ m id = some ⟨[]⟩ := by
  obtain ⟨place, e, _, he, hholds, rfl⟩ := consume_eq_some.mp h
  by_cases hid : id = i.source
  · subst hid
    rw [Function.update_self, he]
    constructor
    · intro hbare
      rw [Entry.nonempty?] at hbare
      split at hbare
      · cases hbare
      · rename_i hne
        rw [Option.some.inj hbare] at hne
        exact absurd rfl hne
    · intro hbare
      rw [Option.some.inj hbare] at hholds
      cases hholds
  · rw [Function.update_of_ne hid]

theorem follow_inputs_bare_iff {inputs : List Input}
    (h : m.follow (inputs.map .consume) = some m') : m' id = some ⟨[]⟩ ↔ m id = some ⟨[]⟩ := by
  induction inputs generalizing m with
  | nil => rw [Option.some.inj h]
  | cons i rest ih =>
      obtain ⟨n, hfirst, hrest⟩ := follow_cons.mp h
      rw [ih hrest, consume_bare_iff hfirst]

/-- Only a transaction without outputs leaves an entry without outputs. -/
theorem follow_bare_iff {txs : List Transaction}
    (h : m.follow (txs.flatMap Transaction.events) = some m') (hid : ∀ tx ∈ txs, tx.id ≠ id) :
    m' id = some ⟨[]⟩ ↔ m id = some ⟨[]⟩ := by
  induction txs generalizing m with
  | nil => rw [Option.some.inj h]
  | cons tx rest ih =>
      obtain ⟨n, hfirst, hrest⟩ := follow_append.mp h
      obtain ⟨k, hspends, rfl⟩ := follow_transaction.mp hfirst
      have htx := Ne.symm (hid tx List.mem_cons_self)
      rw [ih hrest fun t ht => hid t (List.mem_cons_of_mem _ ht), create,
        Function.update_of_ne htx, follow_inputs_bare_iff hspends]

theorem follow_last_bare_iff {before after : List Transaction} {tx : Transaction}
    (h : m.follow ((before ++ tx :: after).flatMap Transaction.events) = some m')
    (hlast : ∀ t ∈ after, t.id ≠ tx.id) : m' tx.id = some ⟨[]⟩ ↔ tx.outputs = [] := by
  rw [List.flatMap_append, List.flatMap_cons] at h
  obtain ⟨n, _, hrest⟩ := follow_append.mp h
  obtain ⟨k, hself, hafter⟩ := follow_append.mp hrest
  obtain ⟨j, _, rfl⟩ := follow_transaction.mp hself
  rw [follow_bare_iff hafter hlast, create, Function.update_self, Option.some_inj,
    Entry.ofTransaction, Entry.mk.injEq, Transaction.indexedOutputs]
  simp

/-- An entry is the one with given outputs, or is missing if there are none. -/
theorem eq_nonempty?_iff {outs : List (UInt32 × Output)} :
    m id = (Entry.mk outs).nonempty? ↔ m id ≠ some ⟨[]⟩ ∧ m.outputs id = outs := by
  rw [outputs, Entry.nonempty?]
  cases hm : m id with
  | none => cases outs <;> simp [Entry.isEmpty]
  | some e =>
      obtain ⟨listed⟩ := e
      cases outs with
      | nil =>
          simp only [Entry.isEmpty, List.isEmpty_nil, if_true, Option.elim_some, reduceCtorEq,
            false_iff, not_and]
          intro hne heq
          exact hne (by rw [heq])
      | cons p rest =>
          simp only [Entry.isEmpty, List.isEmpty_cons, Bool.false_eq_true, if_false,
            Option.some_inj, Entry.mk.injEq, Option.elim_some]
          constructor
          · rintro rfl
            exact ⟨by simp, rfl⟩
          · exact fun h => h.2

/-! ## Faithful blocks -/

/-- What has to hold of the last transaction of a block with its id, for the update to
leave the entry that a rebuild writes: it has outputs; what the block consumes of them
it consumes behind the transaction; and of what stood under the id before, all is
consumed in the block. -/
structure Replaces (m : Index) (before : List Transaction) (tx : Transaction)
    (after : List Transaction) : Prop where
  outputs_ne_nil : tx.outputs ≠ []
  spent_after : ∀ p ∈ tx.indexedOutputs,
    ⟨tx.id, p.1⟩ ∈ consumedBy (before ++ tx :: after) → ⟨tx.id, p.1⟩ ∈ consumedBy after
  spent_before : ∀ p ∈ outputsUnder before tx.id ++ m.outputs tx.id,
    ⟨tx.id, p.1⟩ ∈ consumedBy (before ++ tx :: after)

/-- The block makes no difference between updating the index and rebuilding it. -/
def Faithful (m : Index) (b : Block) : Prop :=
  ∀ before tx after, b.transactions = before ++ tx :: after → (∀ t ∈ after, t.id ≠ tx.id) →
    m.Replaces before tx after

/-- Two ways to filter agree when the one keeps no more in the middle and the other
nothing at the sides. -/
theorem filter_eq_filter_append_iff {α : Type} {left middle right : List α} {p q : α → Bool}
    (hpq : ∀ x, p x = true → q x = true) :
    middle.filter q = (left ++ (middle ++ right)).filter p ↔
      (∀ x ∈ middle, q x = true → p x = true) ∧ ∀ x ∈ left ++ right, p x = false := by
  rw [List.filter_append, List.filter_append]
  constructor
  · intro h
    have hall : ∀ x ∈ middle, q x = true → p x = true := by
      intro x hx hq
      have hmem : x ∈ middle.filter q := List.mem_filter.mpr ⟨hx, hq⟩
      rw [h, ← List.filter_append, ← List.filter_append] at hmem
      exact (List.mem_filter.mp hmem).2
    have hmiddle : middle.filter q = middle.filter p := by
      refine List.filter_congr fun x hx => ?_
      rw [Bool.eq_iff_iff]
      exact ⟨hall x hx, hpq x⟩
    -- the middle accounts for everything that is kept, which leaves nothing at the sides
    have hlength := congrArg List.length h
    rw [hmiddle, List.length_append, List.length_append] at hlength
    have hleft : left.filter p = [] := List.length_eq_zero_iff.mp (by omega)
    have hright : right.filter p = [] := List.length_eq_zero_iff.mp (by omega)
    refine ⟨hall, fun x hx => ?_⟩
    rcases List.mem_append.mp hx with hx | hx
    · simpa using List.filter_eq_nil_iff.mp hleft x hx
    · simpa using List.filter_eq_nil_iff.mp hright x hx
  · rintro ⟨hall, hsides⟩
    have hleft : left.filter p = [] := List.filter_eq_nil_iff.mpr fun x hx => by
      simp [hsides x (List.mem_append_left _ hx)]
    have hright : right.filter p = [] := List.filter_eq_nil_iff.mpr fun x hx => by
      simp [hsides x (List.mem_append_right _ hx)]
    rw [hleft, hright, List.nil_append, List.append_nil]
    refine List.filter_congr fun x hx => ?_
    rw [Bool.eq_iff_iff]
    exact ⟨hall x hx, hpq x⟩

theorem ofChain_ne_bare (bs : List Block) (id : Digest) : ofChain bs id ≠ some ⟨[]⟩ :=
  (eq_nonempty?_iff.mp rfl).1

/-- Under an id that the block does not create, an update and a rebuild agree. -/
theorem follow_eq_ofChain_of_ne {b : Block} {rest : List Block}
    (h : (ofChain rest).follow b.events = some m') (hid : ∀ tx ∈ b.transactions, tx.id ≠ id) :
    m' id = ofChain (b :: rest) id := by
  refine eq_nonempty?_iff.mpr ⟨?_, ?_⟩
  · exact fun hbare => ofChain_ne_bare rest id ((follow_bare_iff h hid).mp hbare)
  · rw [outputs_follow_of_ne h hid, outputs_ofChain, Unspent.leftover, outputsUnder_eq_nil hid]
    rfl

/-- Under the id of a transaction they agree exactly when the last one replaces all
that there was. -/
theorem follow_eq_ofChain_last_iff {b : Block} {rest : List Block} {before after : List Transaction}
    {tx : Transaction} (h : (ofChain rest).follow b.events = some m')
    (hsplit : b.transactions = before ++ tx :: after) (hlast : ∀ t ∈ after, t.id ≠ tx.id) :
    m' tx.id = ofChain (b :: rest) tx.id ↔ (ofChain rest).Replaces before tx after := by
  rw [Block.events, hsplit] at h
  have hunder : outputsUnder b.transactions tx.id =
      outputsUnder before tx.id ++ tx.indexedOutputs := by
    rw [hsplit, outputsUnder_append, outputsUnder_cons_self, outputsUnder_eq_nil hlast,
      List.append_nil]
  have hconsumed : Unspent.Harvest.consumed b = consumedBy (before ++ tx :: after) :=
    congrArg consumedBy hsplit
  -- the rebuild takes away what the whole block consumes, the update what comes later
  have hlater : ∀ p : UInt32 × Output,
      decide (⟨tx.id, p.1⟩ ∉ consumedBy (before ++ tx :: after)) = true →
        decide (⟨tx.id, p.1⟩ ∉ consumedBy after) = true := by
    intro p hp
    rw [decide_eq_true_iff] at hp ⊢
    rw [consumedBy_append, ← List.singleton_append, consumedBy_append] at hp
    exact fun hmem => hp (List.mem_append_right _ (List.mem_append_right _ hmem))
  rw [ofChain, eq_nonempty?_iff, ne_eq, follow_last_bare_iff h hlast, outputs_follow_last h hlast,
    Unspent.leftover, hunder, hconsumed, List.append_assoc, filter_eq_filter_append_iff hlater]
  constructor
  · rintro ⟨hne, hafter, hbefore⟩
    refine ⟨hne, fun p hp hin => ?_, fun p hp => ?_⟩
    · by_contra hout
      have := hafter p hp (by simpa using hout)
      simp [hin] at this
    · rw [outputs_ofChain] at hp
      simpa using hbefore p hp
  · rintro ⟨hne, hafter, hbefore⟩
    refine ⟨hne, fun p hp hout => ?_, fun p hp => ?_⟩
    · rw [decide_eq_true_iff] at hout ⊢
      exact fun hin => hout (hafter p hp hin)
    · rw [outputs_ofChain] at hbefore
      simpa using hbefore p hp

/-- Following a block leads from the index of a chain to the index of the longer chain
exactly when the block is faithful. -/
theorem follow_eq_ofChain_iff {b : Block} {rest : List Block}
    (h : (ofChain rest).follow b.events = some m') :
    m' = ofChain (b :: rest) ↔ (ofChain rest).Faithful b := by
  constructor
  · rintro rfl before tx after hsplit hlast
    exact (follow_eq_ofChain_last_iff h hsplit hlast).mp rfl
  · intro hfaithful
    funext id
    by_cases hid : ∃ tx ∈ b.transactions, tx.id = id
    · obtain ⟨before, tx, after, hsplit, rfl, hlast⟩ := exists_last_of_id hid
      exact (follow_eq_ofChain_last_iff h hsplit hlast).mpr (hfaithful before tx after hsplit hlast)
    · exact follow_eq_ofChain_of_ne h fun tx htx heq => hid ⟨tx, htx, heq⟩

/-- The first block of a chain, with its one coinbase, is faithful. -/
theorem faithful_coinbase {b : Block} {lock note : Bytes} {reward : UInt64}
    (htxs : b.transactions = [Transaction.coinbase lock note reward]) :
    Faithful (fun _ => none) b := by
  intro before tx after hsplit _
  rw [htxs] at hsplit
  obtain ⟨rfl, rfl, rfl⟩ :
      before = [] ∧ tx = Transaction.coinbase lock note reward ∧ after = [] := by
    cases before with
    | nil =>
        obtain ⟨rfl, rfl⟩ := List.cons.inj hsplit
        exact ⟨rfl, rfl, rfl⟩
    | cons t before =>
        have := congrArg List.length hsplit
        simp at this
  refine ⟨by simp [Transaction.coinbase, Transaction.ofParts, Transaction.withContentId], ?_, ?_⟩
  · intro p _ hp
    cases hp
  · intro p hp
    cases hp

end Index

namespace Contents

variable {c c' : Contents} {room : Nat}

/-! ## States in which the index has not drifted -/

/-- The index is the one that a rebuild computes. -/
def Synced (c : Contents) : Prop := ∀ bs, c.Active bs → c.index = Index.ofChain bs

theorem synced_empty : empty.Synced := by
  intro bs ha
  rw [ha.of_none rfl]
  rfl

theorem Step.synced_iff (hstep : c.Step c') (h : c.Sound room) (hsynced : c.Synced)
    (hzero : c.tip ≠ some Digest.zero) :
    c'.Synced ↔ ∀ b, c.ExtendedBy b → c.blocks b.hash = none → c'.blocks b.hash = some b →
      c.index.Faithful b := by
  constructor
  · intro hsynced' b hext hnew hstored
    rcases hstep.appended hzero hext hnew hstored with
      ⟨hempty, _, ⟨lock, note, reward, htxs⟩, _⟩ | ⟨m, hattach, hm, rfl⟩
    · rw [hempty]
      exact Index.faithful_coinbase htxs
    · obtain ⟨bs, hbs⟩ := (h.linked.withBlock hnew hattach).exists_ancestry hstored
      obtain ⟨rest, rfl, hrest⟩ := h.active_onTip hnew hattach hext
        (fun hg => hext.tip_eq_none hzero hg) hbs
      have hindex := hsynced' (b :: rest) (active_of_some rfl hbs)
      rw [hsynced rest hrest] at hm ⊢
      exact (Index.follow_eq_ofChain_iff hm).mp hindex
  · intro hfaithful
    cases hstep with
    | keep => exact hsynced
    | place hattach hplace =>
        intro bs ha
        cases hplace with
        | beside hnew _ _ => exact hsynced bs (h.active_withBlock hnew ha)
        | onTip hnew hover hext hm =>
            have hf := hfaithful _ hext hnew (blocks_withBlock_self c _)
            obtain ⟨rest, rfl, hrest⟩ := h.active_onTip hnew hattach hext
              (fun hg => hext.tip_eq_none hzero hg) (ha.of_some rfl)
            rw [hsynced rest hrest] at hm hf
            exact (Index.follow_eq_ofChain_iff hm).mpr hf
        | switch _ _ _ hcs =>
            obtain rfl := (ha.of_some rfl).unique hcs
            rfl
    | begin _ hg _ =>
        intro bs ha
        obtain rfl := (active_withIndex.mp ha).unique (active_of_genesis c hg)
        rfl
    | reindex hbs =>
        intro cs ha
        obtain rfl := hbs.unique (active_withIndex.mp ha)
        rfl

end Contents

namespace Session

variable {σ : Session} {c : Contents} {room : Nat} {rules : Rules} {requests : List Request}
  {r : Request}

/-- A rebuild of the index would change no byte of the store. -/
def Synced (σ : Session) : Prop := σ.ledger.reindex.2.store = σ.ledger.store

theorem Sound.synced_iff (h : σ.Sound c room) (hroom : room < 2 ^ 64) : σ.Synced ↔ c.Synced := by
  have hrebuilt : ∀ bs, c.Active bs →
      σ.ledger.reindex.2.store.Holds (c.withIndex (Index.ofChain bs)) := by
    intro bs ha
    obtain ⟨n, t, hok, hholds⟩ := Ledger.reindex_eq h.holds h.contents hroom ha
    rw [hok]
    exact hholds
  constructor
  · intro hsame bs ha
    have hholds := hrebuilt bs ha
    rw [show σ.ledger.reindex.2.store = σ.ledger.store from hsame] at hholds
    exact congrArg Contents.index (h.holds.contents_eq hholds)
  · intro hsynced
    obtain ⟨bs, ha⟩ := h.contents.exists_active
    have hholds := hrebuilt bs ha
    rw [← hsynced bs ha] at hholds
    exact hholds.store_eq h.holds

/-- In every state of the run a rebuild would change no byte. -/
def SyncedThroughout (rules : Rules) (requests : List Request) : Prop :=
  ∀ before after, requests = before ++ after → ((start rules).run before).Synced

/-- Every block that the run put on top of the tip was faithful to the index it met. -/
def FaithfulThroughout (rules : Rules) (requests : List Request) : Prop :=
  ∀ before r after b, requests = before ++ r :: after →
    Appends ((start rules).run before) ((start rules).run (before ++ [r])) b →
    (Unspent.index ((start rules).run before).ledger.store).Faithful b

theorem syncedThroughout_snoc : SyncedThroughout rules (requests ++ [r]) ↔
    SyncedThroughout rules requests ∧ ((start rules).run (requests ++ [r])).Synced := by
  constructor
  · intro h
    refine ⟨?_, h _ [] (by simp)⟩
    rintro before after rfl
    exact h before (after ++ [r]) (by simp)
  · rintro ⟨hbefore, hlast⟩ before after heq
    rcases List.eq_nil_or_concat after with rfl | ⟨after, last, rfl⟩
    · rw [List.append_nil] at heq
      rwa [← heq]
    · rw [List.concat_eq_append, ← List.append_assoc] at heq
      exact hbefore before after (List.append_singleton_inj.mp heq).1

theorem faithfulThroughout_snoc : FaithfulThroughout rules (requests ++ [r]) ↔
    FaithfulThroughout rules requests ∧
      ∀ b, Appends ((start rules).run requests) ((start rules).run (requests ++ [r])) b →
        (Unspent.index ((start rules).run requests).ledger.store).Faithful b := by
  constructor
  · intro h
    refine ⟨?_, fun b => h requests r [] b rfl⟩
    rintro before r' after b rfl
    exact h before r' (after ++ [r]) b (by simp)
  · rintro ⟨hbefore, hlast⟩ before r' after b heq happends
    rcases split_snoc heq with ⟨rfl, rfl⟩ | ⟨rest, hrest⟩
    · exact hlast b happends
    · exact hbefore before r' rest b hrest happends

/-- The index never drifts along a run exactly when every block that the run put on
top of the tip was faithful to the index that it met. -/
theorem syncedThroughout_iff (rules : Rules) (requests : List Request) (hfits : RunFits requests)
    (hzero : ((start rules).run requests).NoZeroHash) :
    SyncedThroughout rules requests ↔ FaithfulThroughout rules requests := by
  induction requests using List.reverseRecOn with
  | nil =>
      constructor
      · rintro _ before r after b heq
        simp at heq
      · rintro _ before after heq
        obtain ⟨rfl, rfl⟩ := List.append_eq_nil_iff.mp heq.symm
        exact ((sound_start rules).synced_iff (by decide)).mpr Contents.synced_empty
  | append_singleton requests r ih =>
      rw [syncedThroughout_snoc, faithfulThroughout_snoc, ih hfits.init (hzero.init hfits)]
      refine and_congr_right fun hfaithful => ?_
      have hsynced := (ih hfits.init (hzero.init hfits)).mpr hfaithful requests [] (by simp)
      obtain ⟨c, hsound⟩ := run_sound rules hfits.init
      obtain ⟨c', hsound', hstep⟩ := hsound.run_snoc hfits
      rw [hsound.synced_iff hfits.init.count] at hsynced
      rw [hsound'.synced_iff hfits.count, hstep.synced_iff hsound.contents hsynced
        (hsound.tip_ne_zero (hzero.init hfits)), Unspent.index_eq hsound.holds]
      refine forall_congr' fun b => ?_
      rw [hsound.appends_iff hsound']
      exact ⟨fun h ⟨hext, hnew, hstored⟩ => h hext hnew hstored,
        fun h hext hnew hstored => h ⟨hext, hnew, hstored⟩⟩

/-! ## A block that drifts -/

/-- A block whose coinbase has no outputs. -/
def bareBlock : Block where
  timestamp := 0
  hash := Digest.ofNat 0x01862510b1a0393e24031e7494c9a24dade7174d16da8d2a55d413eab3d85c65
  transactions := [{
    id := Digest.ofNat 0x63e1cc413a4794d4b99024fdc0d4d008d035ec716763afe56d7ef8f424321f39
    inputs := [Input.coinbase [0]]
    outputs := [] }]
  parent := Digest.zero
  nonce := 0
  height := 0

/-- The update writes an entry without outputs, which a rebuild does not. -/
theorem bareBlock_not_synced : ¬ ((start Fork.rules).run [.accept bareBlock]).Synced := by
  have hwritten : ((start Fork.rules).run [.accept bareBlock]).ledger.store.get? (Store.entryKey
      (Digest.ofNat 0x63e1cc413a4794d4b99024fdc0d4d008d035ec716763afe56d7ef8f424321f39)) =
        some [0] := by
    decide +kernel
  have hrebuilt : ((start Fork.rules).run [.accept bareBlock]).ledger.reindex.2.store.get?
      (Store.entryKey
        (Digest.ofNat 0x63e1cc413a4794d4b99024fdc0d4d008d035ec716763afe56d7ef8f424321f39)) =
          none := by
    decide +kernel
  intro hsynced
  rw [show _ = _ from hsynced, hwritten] at hrebuilt
  cases hrebuilt

theorem bareBlock_accepted :
    ((start Fork.rules).run [.accept bareBlock]).ledger.isHalted = false ∧
      ((start Fork.rules).run [.accept bareBlock]).NoZeroHash := by
  decide +kernel

/-- The index can drift without a halt. -/
theorem drifts_on_bareBlock :
    RunFits [.accept bareBlock] ∧
      ((start Fork.rules).run [.accept bareBlock]).ledger.isHalted = false ∧
      ¬ SyncedThroughout Fork.rules [.accept bareBlock] :=
  ⟨by decide, bareBlock_accepted.1, fun h => bareBlock_not_synced (h _ [] rfl)⟩

theorem bareBlock_not_faithful : ¬ FaithfulThroughout Fork.rules [.accept bareBlock] := by
  rw [← syncedThroughout_iff Fork.rules [.accept bareBlock] (by decide) bareBlock_accepted.2]
  exact fun h => bareBlock_not_synced (h _ [] rfl)

end Session

end CoinLedger
