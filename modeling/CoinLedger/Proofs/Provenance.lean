import CoinLedger.Proofs.Runs

/-!
# Where the index has its outputs from

The events of a chain are the events of its blocks from genesis on. An output is
`Live` after some events when a transaction created it and no input has consumed it
since. An index is traced by events when all it lists is live after them: following
an event keeps that, and the index that a rebuild computes has it.

`Contents.Traced` says it of a store: the index is traced by the active chain. Every
step of a run keeps it, with one exception. A genesis block on top of a tip begins a
chain of its own while the index goes on; this takes a tip whose hash is zero, the
hash that stands for "no parent".
-/

namespace CoinLedger

/-- The events of a chain that is given from the tip, in the order in which they
happened. -/
def Block.chainEvents (bs : List Block) : List Event := bs.reverse.flatMap Block.events

theorem Block.chainEvents_cons (b : Block) (bs : List Block) :
    chainEvents (b :: bs) = chainEvents bs ++ b.events := by
  simp [chainEvents]

theorem Block.create_mem_chainEvents {bs : List Block} {tx : Transaction}
    (h : .create tx ∈ chainEvents bs) : ∃ b ∈ bs, tx ∈ b.transactions := by
  obtain ⟨b, hb, hevent⟩ := List.mem_flatMap.mp h
  exact ⟨b, List.mem_reverse.mp hb, create_mem_events hevent⟩

/-- The outpoints that transactions consume. -/
def consumedBy (txs : List Transaction) : List Outpoint :=
  txs.flatMap fun tx => tx.spends.filterMap Input.outpoint?

theorem mem_consumedBy_of_event {txs : List Transaction} {i : Input} {o : Outpoint}
    (h : .consume i ∈ txs.flatMap Transaction.events) (hi : i.outpoint? = some o) :
    o ∈ consumedBy txs := by
  obtain ⟨tx, htx, hspend⟩ := consume_mem_events h
  exact List.mem_flatMap.mpr ⟨tx, htx, List.mem_filterMap.mpr ⟨i, hspend, hi⟩⟩

/-- The output was created by a transaction with the id and has not been consumed
since. -/
def Live (events : List Event) (id : Digest) (p : UInt32 × Output) : Prop :=
  ∃ before tx after, events = before ++ .create tx :: after ∧ tx.id = id ∧
    p ∈ tx.indexedOutputs ∧ ∀ i, .consume i ∈ after → i.outpoint? ≠ some ⟨id, p.1⟩

theorem Live.append {events more : List Event} {id : Digest} {p : UInt32 × Output}
    (h : Live events id p) (hmore : ∀ i, .consume i ∈ more → i.outpoint? ≠ some ⟨id, p.1⟩) :
    Live (events ++ more) id p := by
  obtain ⟨before, tx, after, rfl, hid, hp, hafter⟩ := h
  refine ⟨before, tx, after ++ more, by simp, hid, hp, fun i hi => ?_⟩
  rcases List.mem_append.mp hi with hi | hi
  · exact hafter i hi
  · exact hmore i hi

namespace Index

variable {m m' : Index} {events : List Event}

/-- Everything that the index lists is live after the events. -/
def TracedBy (m : Index) (events : List Event) : Prop :=
  ∀ id p, p ∈ m.outputs id → Live events id p

theorem tracedBy_none (events : List Event) : TracedBy (fun _ => none) events := by
  intro id p hp
  cases hp

theorem outputs_update_self (m : Index) (id : Digest) (e : Option Entry) :
    outputs (Function.update m id e) id = e.elim [] Entry.outputs := by
  rw [outputs, Function.update_self]

theorem outputs_update_of_ne {id other : Digest} (h : other ≠ id) (m : Index) (e : Option Entry) :
    outputs (Function.update m id e) other = m.outputs other := by
  rw [outputs, Function.update_of_ne h, outputs]

/-- Consuming takes the places away that the input names, and nothing else. -/
theorem outputs_consume {i : Input} (h : m.consume i = some m') (id : Digest) :
    outputs m' id = (m.outputs id).filter fun p => ⟨id, p.1⟩ ∉ i.outpoint?.toList := by
  obtain ⟨place, e, hplace, he, _, rfl⟩ := consume_eq_some.mp h
  have hi : i.outpoint? = some ⟨i.source, place⟩ := by rw [Input.outpoint?, hplace]; rfl
  by_cases hid : id = i.source
  · subst hid
    rw [outputs_update_self, Entry.outputs_nonempty?, outputs, he, hi]
    refine List.filter_congr fun p _ => ?_
    by_cases hp : p.1 = place
    · simp [hp]
    · simp [hp]
  · rw [outputs_update_of_ne hid, hi, List.filter_eq_self.mpr]
    intro p _
    simp [hid]

theorem outputs_create_self (m : Index) (tx : Transaction) :
    outputs (m.create tx) tx.id = tx.indexedOutputs :=
  outputs_update_self m tx.id _

theorem outputs_create_of_ne {id : Digest} {tx : Transaction} (h : id ≠ tx.id) (m : Index) :
    outputs (m.create tx) id = m.outputs id :=
  outputs_update_of_ne h m _

theorem TracedBy.consume {i : Input} (ht : m.TracedBy events) (h : m.consume i = some m') :
    Index.TracedBy m' (events ++ [.consume i]) := by
  intro id p hp
  rw [outputs_consume h, List.mem_filter] at hp
  refine (ht id p hp.1).append fun j hj => ?_
  obtain rfl := Event.consume.inj (List.mem_singleton.mp hj)
  simpa using hp.2

theorem TracedBy.create (ht : m.TracedBy events) (tx : Transaction) :
    Index.TracedBy (m.create tx) (events ++ [.create tx]) := by
  intro id p hp
  by_cases hid : id = tx.id
  · subst hid
    rw [outputs_create_self] at hp
    exact ⟨events, tx, [], rfl, rfl, hp, fun _ hi => by cases hi⟩
  · rw [outputs_create_of_ne hid] at hp
    exact (ht id p hp).append fun i hi => by cases List.mem_singleton.mp hi

theorem TracedBy.step {e : Event} (ht : m.TracedBy events) (h : m.step e = some m') :
    Index.TracedBy m' (events ++ [e]) := by
  cases e with
  | consume i => exact ht.consume h
  | create tx =>
      obtain rfl := Option.some.inj h
      exact ht.create tx

theorem TracedBy.follow {more : List Event} (ht : m.TracedBy events) (h : m.follow more = some m') :
    Index.TracedBy m' (events ++ more) := by
  induction more generalizing m events with
  | nil =>
      obtain rfl := Option.some.inj h
      rwa [List.append_nil]
  | cons e rest ih =>
      obtain ⟨n, hstep, hrest⟩ := follow_cons.mp h
      have hall := ih (ht.step hstep) hrest
      rwa [List.append_assoc] at hall

/-- What a chain leaves over is live after it. -/
theorem live_leftover {bs : List Block} {id : Digest} {p : UInt32 × Output}
    (h : p ∈ Unspent.leftover id bs) : Live (Block.chainEvents bs) id p := by
  induction bs with
  | nil => cases h
  | cons b rest ih =>
      rw [Unspent.leftover, List.mem_filter] at h
      obtain ⟨hmem, hunspent⟩ := h
      replace hunspent : ⟨id, p.1⟩ ∉ Unspent.Harvest.consumed b := by simpa using hunspent
      rw [Block.chainEvents_cons]
      rcases List.mem_append.mp hmem with hhere | hbelow
      · obtain ⟨tx, htx, hp⟩ := List.mem_flatMap.mp hhere
        obtain ⟨htx, hid⟩ := List.mem_filter.mp htx
        obtain ⟨before, after, hsplit⟩ := List.append_of_mem htx
        refine ⟨Block.chainEvents rest ++ (before.flatMap Transaction.events ++
          tx.spends.map .consume), tx, after.flatMap Transaction.events, ?_, by simpa using hid, hp,
          fun i hi heq => hunspent ?_⟩
        · simp [Block.events, hsplit, Transaction.events]
        · refine mem_consumedBy_of_event ?_ heq
          rw [hsplit, List.flatMap_append, List.flatMap_cons]
          exact List.mem_append_right _ (List.mem_append_right _ hi)
      -- from below: live there, and the block does not consume it
      · exact (ih hbelow).append fun i hi heq => hunspent (mem_consumedBy_of_event hi heq)

theorem tracedBy_ofChain (bs : List Block) : (ofChain bs).TracedBy (Block.chainEvents bs) := by
  intro id p hp
  rw [outputs_ofChain] at hp
  exact live_leftover hp

end Index

namespace Contents

variable {c c' : Contents} {b : Block} {bs : List Block} {room : Nat}

/-! ## Along the active chain -/

/-- The index lists outputs that are live on the active chain. -/
def Traced (c : Contents) : Prop :=
  ∀ bs, c.Active bs → c.index.TracedBy (Block.chainEvents bs)

theorem traced_empty : empty.Traced :=
  fun bs _ => Index.tracedBy_none (Block.chainEvents bs)

/-- The active chain has not moved when a block was stored beside it. -/
theorem Sound.active_withBlock (h : c.Sound room) (hnew : c.blocks b.hash = none)
    (ha : (c.withBlock b).Active bs) : c.Active bs := by
  obtain ⟨cs, hcs⟩ := h.exists_active
  -- the old chain is still an active chain, and there is only one
  rwa [ha.unique (hcs.withBlock hnew)]

/-- A block on top of the tip, on the chain that was active before. The block must not
be a genesis block on top of another block. -/
theorem Sound.active_onTip (h : c.Sound room) (hnew : c.blocks b.hash = none)
    (hattach : c.Attaches b) (hext : c.ExtendedBy b) (hroot : b.isGenesis = true → c.tip = none)
    (hbs : Ancestry (c.withBlock b).blocks b.hash bs) :
    ∃ rest, bs = b :: rest ∧ c.Active rest := by
  rcases h.linked.ancestry_withBlock hnew hattach hbs with hold | ⟨_, rest, rfl, hgenesis, hchild⟩
  · obtain ⟨_, _, _, hb⟩ := hold.head_stored
    rw [hnew] at hb
    cases hb
  · refine ⟨rest, rfl, ?_⟩
    unfold ExtendedBy at hext
    cases hg : b.isGenesis with
    | true =>
        rw [hgenesis hg]
        exact active_of_none (hroot hg)
    | false =>
        cases hc : c.tip with
        | none =>
            rw [hc, hg] at hext
            cases hext
        | some hash =>
            rw [hc] at hext
            exact active_of_some hc (hext ▸ hchild hg)

theorem Places.traced {flag : Bool} (h : c.Sound room) (ht : c.Traced) (hattach : c.Attaches b)
    (hroot : b.isGenesis = true → c.ExtendedBy b → c.OvertakenBy b → c.tip = none)
    (hplace : c.Places b flag c') : c'.Traced := by
  intro bs ha
  cases hplace with
  | beside hnew _ _ => exact ht bs (h.active_withBlock hnew ha)
  | onTip hnew hover hext hm =>
      obtain ⟨rest, rfl, hrest⟩ := h.active_onTip hnew hattach hext
        (fun hg => hroot hg hext hover) (ha.of_some rfl)
      rw [Block.chainEvents_cons]
      exact (ht rest hrest).follow hm
  | switch hnew _ _ hcs =>
      obtain rfl := (ha.of_some rfl).unique hcs
      exact Index.tracedBy_ofChain bs

/-- Without a tip under the zero hash, a genesis block continues no chain. -/
theorem ExtendedBy.tip_eq_none (hext : c.ExtendedBy b) (hzero : c.tip ≠ some Digest.zero)
    (hg : b.isGenesis = true) : c.tip = none := by
  unfold ExtendedBy at hext
  cases hc : c.tip with
  | none => rfl
  | some hash =>
      rw [hc] at hext
      have hparent : b.parent = Digest.zero := by simpa [Block.isGenesis, Digest.isZero] using hg
      rw [hc, ← show b.parent = hash from hext, hparent] at hzero
      exact absurd rfl hzero

theorem Step.traced (h : c.Sound room) (ht : c.Traced) (hzero : c.tip ≠ some Digest.zero)
    (hstep : c.Step c') : c'.Traced := by
  cases hstep with
  | keep => exact ht
  | place hattach hplace =>
      exact hplace.traced h ht hattach fun hg hext _ => hext.tip_eq_none hzero hg
  | begin hempty hg _ =>
      intro bs ha
      obtain rfl := (active_withIndex.mp ha).unique (active_of_genesis c hg)
      exact Index.tracedBy_ofChain _
  | reindex hbs =>
      intro cs ha
      obtain rfl := hbs.unique (active_withIndex.mp ha)
      exact Index.tracedBy_ofChain _

end Contents

/-! ## Blocks put on top of the tip -/

namespace Contents

variable {c c' : Contents} {b : Block} {room : Nat}

/-- A block on top of the tip is higher than the tip. -/
theorem ExtendedBy.overtaken (hext : c.ExtendedBy b) (hattach : c.Attaches b)
    (hzero : c.tip ≠ some Digest.zero) : c.OvertakenBy b := by
  intro hash t hc ht
  have hparent : b.parent = hash := by
    unfold ExtendedBy at hext
    rwa [hc] at hext
  cases hg : b.isGenesis with
  | true =>
      rw [hext.tip_eq_none hzero hg] at hc
      cases hc
  | false =>
      obtain ⟨p, hp, hheight⟩ := hattach hg
      rw [hparent, ht] at hp
      obtain rfl := Option.some.inj hp
      rw [UInt64.lt_iff_toNat_lt]
      omega

/-- A step that puts a block on top of the tip begins the chain with it, or has the
index follow it. -/
theorem Step.appended (hstep : c.Step c') (hzero : c.tip ≠ some Digest.zero)
    (hext : c.ExtendedBy b) (hnew : c.blocks b.hash = none) (hstored : c'.blocks b.hash = some b) :
    (c = empty ∧ b.isGenesis = true ∧
      (∃ lock note reward, b.transactions = [Transaction.coinbase lock note reward]) ∧
      c' = ((c.withBlock b).withTip b.hash).withIndex (Index.ofChain [b])) ∨
    ∃ m, c.Attaches b ∧ c.index.follow b.events = some m ∧
      c' = ((c.withBlock b).withTip b.hash).withIndex m := by
  have hsame : ∀ t, (c.withBlock t).blocks b.hash = some b → t = b := by
    intro t ht
    rcases blocks_withBlock_cases ht with ⟨_, rfl⟩ | ht
    · rfl
    · rw [hnew] at ht
      cases ht
  cases hstep with
  | keep =>
      rw [hnew] at hstored
      cases hstored
  | place hattach hplace =>
      right
      cases hplace with
      | beside _ hnot _ =>
          obtain rfl := hsame _ hstored
          exact absurd (hext.overtaken hattach hzero) hnot
      | onTip _ _ _ hm =>
          obtain rfl := hsame _ hstored
          exact ⟨_, hattach, hm, rfl⟩
      | switch _ _ hnot _ =>
          obtain rfl := hsame _ hstored
          exact absurd hext hnot
  | begin hempty hg htxs =>
      left
      obtain rfl := hsame _ hstored
      exact ⟨hempty, hg, ⟨_, _, _, htxs⟩, rfl⟩
  | reindex _ =>
      cases (hnew.symm.trans hstored : none = some b)

end Contents

namespace Session

variable {σ σ' : Session} {c c' : Contents} {b : Block} {room room' : Nat}

/-- Between two states of a session a block was stored that continues the active chain
of the first. -/
def Appends (σ σ' : Session) (b : Block) : Prop :=
  Ledger.extendsTip σ.ledger.store b = .ok true ∧
    Chain.hasBlock σ.ledger.store b.hash = false ∧
    Chain.block σ'.ledger.store b.hash = .ok b

/-- Some request of the run put the block on top of the tip. -/
def AppendedIn (rules : Rules) (requests : List Request) (b : Block) : Prop :=
  ∃ before r after, requests = before ++ r :: after ∧
    Appends ((start rules).run before) ((start rules).run (before ++ [r])) b

/-- No block of the store has the hash that stands for "no parent". -/
def NoZeroHash (σ : Session) : Prop := Chain.hasBlock σ.ledger.store Digest.zero = false

instance (σ : Session) : Decidable σ.NoZeroHash := inferInstanceAs (Decidable (_ = _))

theorem Sound.noZeroHash_iff (h : σ.Sound c room) : σ.NoZeroHash ↔ c.blocks Digest.zero = none := by
  rw [NoZeroHash, Chain.hasBlock_eq h.holds]
  cases c.blocks Digest.zero <;> simp

theorem Sound.tip_ne_zero (h : σ.Sound c room) (hzero : σ.NoZeroHash) :
    c.tip ≠ some Digest.zero := by
  intro htip
  obtain ⟨t, ht⟩ := h.contents.hasTip _ htip
  rw [h.noZeroHash_iff.mp hzero] at ht
  cases ht

theorem NoZeroHash.init {rules : Rules} {requests : List Request} {r : Request}
    (h : ((start rules).run (requests ++ [r])).NoZeroHash) (hfits : RunFits (requests ++ [r])) :
    ((start rules).run requests).NoZeroHash := by
  obtain ⟨c, hsound⟩ := run_sound rules hfits.init
  obtain ⟨c', hsound', hstep⟩ := hsound.run_snoc hfits
  rw [hsound.noZeroHash_iff]
  rw [hsound'.noZeroHash_iff] at h
  cases hb : c.blocks Digest.zero with
  | none => rfl
  | some b =>
      rw [hstep.blocks_subset _ _ hb] at h
      cases h

theorem Sound.appends_iff (h : σ.Sound c room) (h' : σ'.Sound c' room') :
    Appends σ σ' b ↔ c.ExtendedBy b ∧ c.blocks b.hash = none ∧ c'.blocks b.hash = some b := by
  obtain ⟨flag, hflag, hiff⟩ := Ledger.extendsTip_eq h.holds b
  rw [Appends, hflag, Chain.hasBlock_eq h.holds, Chain.block_eq h'.holds, ← hiff]
  cases c.blocks b.hash <;> cases c'.blocks b.hash <;> simp

end Session

end CoinLedger
