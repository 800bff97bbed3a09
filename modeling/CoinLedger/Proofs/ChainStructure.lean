import CoinLedger.Proofs.Mining
import CoinLedger.Proofs.Ownership

/-!
# The structure of the chain

Blocks come into a store in three ways: a chain is begun, a block from elsewhere is
accepted, or a candidate is sealed and committed, which may be long after it was put
together. `Session.Brings` lists them, and `Session.Sound.brings` shows that no request
stores anything else. `Contents.Gains` is what the three have in common: the new block
is sealed, has its one coinbase in front, and stands on a stored block or is the first
of its chain. A seal covers neither the height nor the time, so nothing of this follows from
the hash.

The main statement, `Session.chain_structure`, is what a run keeps of this: all that is
known of every stored block, that the tip is as high as any block, and that the walk
from the tip goes down one level at a time and ends at a genesis block.
-/

namespace CoinLedger

/-! ## Rewards -/

theorem toNat_addAmounts? {a b sum : UInt64} (h : addAmounts? a b = some sum) :
    sum.toNat = a.toNat + b.toNat := by
  unfold addAmounts? at h
  split at h
  · rename_i hlt
    obtain rfl := Option.some.inj h
    rw [UInt64.toNat_add]
    exact Nat.mod_eq_of_lt hlt
  · cases h

/-- A total that can be told is the sum of the values as numbers. -/
theorem toNat_totalValue? {outputs : List Output} {total : UInt64}
    (h : totalValue? outputs = some total) :
    total.toNat = (outputs.map fun o => o.value.toNat).sum := by
  have hfrom : ∀ (outputs : List Output) (start : UInt64),
      outputs.foldlM (fun total o => addAmounts? total o.value) start = some total →
        total.toNat = start.toNat + (outputs.map fun o => o.value.toNat).sum := by
    intro outputs
    induction outputs with
    | nil =>
        intro start hstart
        obtain rfl := Option.some.inj hstart
        simp
    | cons o rest ih =>
        intro start hstart
        rw [List.foldlM_cons, Option.bind_eq_bind, Option.bind_eq_some_iff] at hstart
        obtain ⟨next, hnext, hrest⟩ := hstart
        rw [ih next hrest, toNat_addAmounts? hnext, List.map_cons, List.sum_cons, Nat.add_assoc]
  simpa using hfrom outputs 0 h

namespace Rules

variable {r : Rules}

/-- The first transaction is the only coinbase, and its reward is in order. -/
def RewardsFirst (r : Rules) (txs : List Transaction) : Prop :=
  ∃ first others, txs = first :: others ∧ first.isCoinbase = true ∧
    (∀ tx ∈ others, tx.isCoinbase = false) ∧ r.checkReward first = .ok ()

/-- The block is sealed, and rewards in its first transaction only. -/
structure Forms (r : Rules) (b : Block) : Prop where
  isSealed : r.difficulty.isSealed b = true
  rewards : r.RewardsFirst b.transactions

theorem Admits.forms {b : Block} (h : r.Admits b) : r.Forms b := ⟨h.isSealed, h.coinbase⟩

theorem Begins.forms {lock : Bytes} {b : Block} (h : r.Begins lock b) : r.Forms b := by
  refine ⟨h.isSealed, _, [], h.transactions, Transaction.isCoinbase_coinbase _ _ _, ?_,
    r.checkReward_coinbase _ _⟩
  exact fun tx htx => nomatch htx

theorem le_reward_of_checkReward {tx : Transaction} (h : r.checkReward tx = .ok ()) :
    (tx.outputs.map fun o => o.value.toNat).sum ≤ r.reward.toNat := by
  unfold checkReward at h
  split at h
  · cases h
  · rename_i paid hpaid
    split at h
    · cases h
    · rename_i hle
      rw [← toNat_totalValue? hpaid]
      rwa [UInt64.lt_iff_toNat_lt, Nat.not_lt] at hle

end Rules

theorem Ledger.Proposes.rewardsFirst {l : Ledger} {txs : List Transaction} {miner : Bytes}
    {k : Candidate} (h : l.Proposes txs miner k) : l.rules.RewardsFirst k.transactions :=
  ⟨_, txs, h.transactions, Transaction.isCoinbase_coinbase _ _ _,
    fun tx htx => (h.pending tx htx).1,
    l.rules.checkReward_coinbase _ _⟩

namespace Contents

variable {c c' : Contents} {b t : Block} {hash : Digest} {bs : List Block} {r : Rules} {room : Nat}

/-! ## What a store gains -/

/-- The block is the first of its chain, or stands one level above a stored block. -/
def Supports (c : Contents) (b : Block) : Prop :=
  (b.isGenesis = true ∧ b.height = 0) ∨
    ∃ p, c.blocks b.parent = some p ∧ b.height.toNat = p.height.toNat + 1

/-- What a request adds to the stored blocks: nothing, or one that is in order. -/
inductive Gains (r : Rules) (c c' : Contents) : Prop
  | nothing : c'.blocks = c.blocks → Gains r c c'
  | block {b : Block} : c.blocks b.hash = none → c'.blocks = (c.withBlock b).blocks →
      r.Forms b → c.Supports b → Gains r c c'

theorem supports_of_admits (hadmits : r.Admits b) (hattach : c.Attaches b) : c.Supports b := by
  cases hg : b.isGenesis with
  | true => exact Or.inl ⟨hg, hadmits.height hg⟩
  | false => exact Or.inr (hattach hg)

theorem Supports.withBlock (h : c.Supports t) (hnew : c.blocks b.hash = none) :
    (c.withBlock b).Supports t := by
  rcases h with hgenesis | ⟨p, hp, hheight⟩
  · exact Or.inl hgenesis
  · exact Or.inr ⟨p, blocks_subset_withBlock hnew _ _ hp, hheight⟩

/-- Every stored block is in order. -/
structure Built (r : Rules) (c : Contents) : Prop where
  forms : ∀ hash b, c.blocks hash = some b → r.Forms b
  supports : ∀ hash b, c.blocks hash = some b → c.Supports b

theorem built_empty (r : Rules) : Built r empty where
  forms _ _ h := by cases h
  supports _ _ h := by cases h

theorem Built.congr (h : Built r c) (hblocks : c'.blocks = c.blocks) : Built r c' where
  forms hash b hb := h.forms hash b (hblocks ▸ hb)
  supports hash b hb := by
    unfold Supports
    rw [hblocks]
    exact h.supports hash b (hblocks ▸ hb)

theorem Built.withBlock (h : Built r c) (hnew : c.blocks b.hash = none) (hforms : r.Forms b)
    (hsupports : c.Supports b) : Built r (c.withBlock b) where
  forms hash t ht := by
    rcases blocks_withBlock_cases ht with ⟨_, rfl⟩ | ht
    · exact hforms
    · exact h.forms hash t ht
  supports hash t ht := by
    rcases blocks_withBlock_cases ht with ⟨_, rfl⟩ | ht
    · exact hsupports.withBlock hnew
    · exact (h.supports hash t ht).withBlock hnew

theorem Built.gains (h : Built r c) (hgains : Gains r c c') : Built r c' := by
  cases hgains with
  | nothing hblocks => exact h.congr hblocks
  | block hnew hblocks hforms hsupports => exact (h.withBlock hnew hforms hsupports).congr hblocks

theorem Places.blocks_eq_none {flag : Bool} (h : c.Places b flag c') : c.blocks b.hash = none := by
  cases h <;> assumption

/-! ## The tip -/

/-- No stored block is higher than the tip. -/
def TipHighest (c : Contents) : Prop :=
  ∀ hash t, c.tip = some hash → c.blocks hash = some t →
    ∀ name b, c.blocks name = some b → b.height ≤ t.height

theorem tipHighest_empty : empty.TipHighest := by
  intro hash t hc
  cases hc

/-- A block that overtakes the tip is higher than all that was stored. -/
theorem TipHighest.overtaken (h : c.TipHighest) (hsound : c.Sound room) (hover : c.OvertakenBy b)
    {name : Digest} (ht : c.blocks name = some t) : t.height ≤ b.height := by
  cases hc : c.tip with
  | none =>
      rw [hsound.bare hc] at ht
      cases ht
  | some hash =>
      obtain ⟨top, htop⟩ := hsound.hasTip hash hc
      have hle := h hash top hc htop name t ht
      have hlt := hover hash top hc htop
      rw [UInt64.le_iff_toNat_le] at hle ⊢
      rw [UInt64.lt_iff_toNat_lt] at hlt
      omega

theorem TipHighest.onTip (h : c.TipHighest) (hsound : c.Sound room) (hover : c.OvertakenBy b)
    (m : Index) : (((c.withBlock b).withTip b.hash).withIndex m).TipHighest := by
  intro hash t hc ht name t' ht'
  obtain rfl := Option.some.inj hc
  obtain rfl : b = t := by simpa [withIndex, withTip] using ht
  rcases blocks_withBlock_cases ht' with ⟨_, rfl⟩ | hold
  · exact UInt64.le_refl _
  · exact h.overtaken hsound hover hold

theorem TipHighest.beside (h : c.TipHighest) (hsound : c.Sound room) (hnew : c.blocks b.hash = none)
    (hnot : ¬ c.OvertakenBy b) : (c.withBlock b).TipHighest := by
  intro hash t hc ht name t' ht'
  have htip : c.tip = some hash := hc
  -- the tip is an old block, and the new one is not above it
  obtain ⟨top, htop⟩ := hsound.hasTip hash htip
  obtain rfl : top = t := Option.some.inj ((blocks_subset_withBlock hnew _ _ htop).symm.trans ht)
  rcases blocks_withBlock_cases ht' with ⟨_, rfl⟩ | hold
  · by_contra hlt
    refine hnot fun hash' t hc' ht => ?_
    obtain rfl := Option.some.inj (htip.symm.trans hc')
    obtain rfl := Option.some.inj (htop.symm.trans ht)
    exact UInt64.not_le.mp hlt
  · exact h hash top htip htop name t' hold

theorem Step.tipHighest (hstep : c.Step c') (hsound : c.Sound room) (h : c.TipHighest) :
    c'.TipHighest := by
  cases hstep with
  | keep => exact h
  | reindex _ => exact h
  | begin hempty _ _ =>
      refine h.onTip hsound ?_ _
      intro hash t hc
      rw [hempty] at hc
      cases hc
  | place _ hplace =>
      cases hplace with
      | beside hnew hnot _ => exact h.beside hsound hnew hnot
      | onTip _ hover _ _ => exact h.onTip hsound hover _
      | switch _ hover _ _ => exact h.onTip hsound hover _

end Contents

/-! ## The walk from the tip -/

/-- Each block is on top of the next, one level above it, and the last one is a genesis
block. No hash comes twice. -/
structure Chain.RunsDown (bs : List Block) : Prop where
  links : bs.IsChain fun b p => b.parent = p.hash ∧ b.height.toNat = p.height.toNat + 1
  nodup : (bs.map Block.hash).Nodup
  last : ∃ g, bs.getLast? = some g ∧ g.isGenesis = true

namespace Contents

variable {c : Contents} {b t g : Block} {hash : Digest} {bs : List Block}

/-- The first block of an ancestry is as many levels above the last one as there are
blocks between them. -/
theorem Linked.length_eq (hl : c.Linked) (h : Ancestry c.blocks hash bs)
    (hfirst : c.blocks hash = some t) (hlast : bs.getLast? = some g) :
    bs.length + g.height.toNat = t.height.toNat + 1 := by
  induction h generalizing t with
  | genesis hb _ =>
      obtain rfl := Option.some.inj (hb.symm.trans hfirst)
      obtain rfl : _ = g := by simpa using hlast
      rw [List.length_singleton, Nat.add_comm]
  | child hb hg hrest ih =>
      obtain rfl := Option.some.inj (hb.symm.trans hfirst)
      obtain ⟨p, hp, hheight⟩ := hl.parent _ _ hb hg
      obtain ⟨p', rest, rfl, _⟩ := hrest.head_stored
      have := ih hp (by rwa [List.getLast?_cons_cons] at hlast)
      rw [List.length_cons]
      omega

theorem Linked.runsDown (hl : c.Linked) (h : Ancestry c.blocks hash bs) : Chain.RunsDown bs := by
  refine ⟨?_, hl.nodup_hashes h, ?_⟩
  · induction h with
    | genesis => exact List.IsChain.singleton _
    | child hb hg hrest ih =>
        obtain ⟨p, hp, hheight⟩ := hl.parent _ _ hb hg
        obtain ⟨p', rest, rfl, hp'⟩ := hrest.head_stored
        obtain rfl := Option.some.inj (hp.symm.trans hp')
        rw [List.isChain_cons_cons]
        exact ⟨⟨(hl.named _ _ hp).symm, hheight⟩, ih⟩
  · induction h with
    | genesis hb hg => exact ⟨_, rfl, hg⟩
    | child _ _ hrest ih =>
        obtain ⟨p, rest, rfl, _⟩ := hrest.head_stored
        obtain ⟨g, hlast, hg⟩ := ih
        exact ⟨g, by rwa [List.getLast?_cons_cons], hg⟩

end Contents

theorem Chain.bestHeight_eq {s : Store} {c : Contents} (h : s.Holds c) {hash : Digest} {t : Block}
    (hc : c.tip = some hash) (ht : c.blocks hash = some t) : Chain.bestHeight s = .ok t.height := by
  rw [bestHeight, tip, tip?_eq h, hc]
  simp only [bind, Except.bind, pure, Except.pure, block_of_some h ht]

namespace Ledger

variable {l : Ledger} {c c' : Contents} {room : Nat} {k : Candidate}

theorem commitMined_snd (l : Ledger) (b : Block) : (l.commitMined b).2 = (l.commitBlock b).2 := by
  unfold commitMined
  split
  all_goals
    rename_i heq
    rw [heq]

/-- A block that was sealed from a candidate stands where the candidate stands. -/
theorem SealedFrom.attaches {b : Block} (hb : l.SealedFrom k b) (h : k.Attaches c) :
    ∃ p, c.blocks b.parent = some p ∧ b.height.toNat = p.height.toNat + 1 := by
  obtain ⟨p, hp, hheight⟩ := h
  exact ⟨p, hb.parent ▸ hp, hb.height ▸ hheight⟩

/-- What the end of a search can do to the contents. -/
theorem mineCandidate_cases (h : l.store.Holds c) (hrun : l.halted = false) (hsound : c.Sound room)
    (hlength : k.transactions.length < 2 ^ 64) (hfits : ∀ tx ∈ k.transactions, tx.Fits)
    (hattach : k.Attaches c) (hroom : room + outputCount k.transactions < 2 ^ 64)
    {timestamp : Int64} {calledOff : Schedule}
    (h' : (l.mineCandidate timestamp k calledOff).2.store.Holds c') :
    c' = c ∨ ∃ b flag, l.SealedFrom k b ∧ c.Places b flag c' := by
  unfold mineCandidate at h'
  split at h'
  · exact Or.inl (h'.contents_eq h)
  rename_i b hsealed
  have hb := sealCandidate_eq_ok hsealed
  rw [← hb.transactions] at hlength hfits hroom
  rw [commitMined_snd] at h'
  rcases commitBlock_cases h hrun hsound ⟨hlength, hfits⟩ (fun _ => hb.attaches hattach) hroom with
    ⟨id, herror⟩ | ⟨_, hkeep⟩ | ⟨flag, t, c'', ht, hholds, hplace⟩
  · rw [herror] at h'
    exact Or.inl (h'.contents_eq h)
  · rw [hkeep] at h'
    exact Or.inl (h'.contents_eq h)
  · rw [ht] at h'
    obtain rfl := h'.contents_eq hholds
    exact Or.inr ⟨b, flag, hb, hplace⟩

end Ledger

namespace Session

variable {σ : Session} {c c' : Contents} {room room' : Nat} {rules : Rules}
  {requests : List Request}

/-! ## Along a run -/

/-- A candidate of a session was put together before, or by this request. -/
theorem mem_candidates_perform {r : Request} {k : Candidate} (hk : k ∈ (σ.perform r).2.candidates) :
    k ∈ σ.candidates ∨ ∃ txs miner, σ.ledger.Proposes txs miner k := by
  cases r with
  | propose txs miner =>
      have hjob : k ∈ (σ.keepJob (σ.ledger.startMining txs miner)).2.candidates := hk
      rw [Ledger.startMining] at hjob
      cases hcandidate : σ.ledger.candidate txs miner with
      | error e =>
          rw [hcandidate] at hjob
          exact Or.inl hjob
      | ok k' =>
          rw [hcandidate] at hjob
          rcases List.mem_cons.mp hjob with rfl | hold
          · exact Or.inr ⟨txs, miner, Ledger.candidate_eq_ok hcandidate⟩
          · exact Or.inl hold
  | finish timestamp k' calledOff =>
      have hkeep : (σ.perform (.finish timestamp k' calledOff)).2.candidates = σ.candidates := by
        rw [Session.perform]
        split <;> rfl
      exact Or.inl (hkeep ▸ hk)
  | _ => exact Or.inl hk

/-- What a run keeps besides soundness: the stored blocks are in order, the tip is the
highest of them, and so will be the blocks of the candidates. -/
structure Chained (rules : Rules) (σ : Session) (c : Contents) (room : Nat) : Prop where
  sound : σ.Sound c room
  rules_eq : σ.ledger.rules = rules
  built : c.Built rules
  tipHighest : c.TipHighest
  rewards : ∀ k ∈ σ.candidates, rules.RewardsFirst k.transactions

theorem chained_start (rules : Rules) : Chained rules (start rules) Contents.empty 0 where
  sound := sound_start rules
  rules_eq := rfl
  built := Contents.built_empty rules
  tipHighest := Contents.tipHighest_empty
  rewards k hk := by cases hk

/-- Mining on the spot: the candidate is put together on top of the tip, and finished at
once. -/
theorem Sound.mined (h : σ.Sound c room) {timestamp : Int64} {txs : List Transaction}
    {miner : Bytes} {calledOff : Schedule} (hr : (Request.mine timestamp txs miner calledOff).Fits)
    (hroom : room + (outputCount txs + 1) < 2 ^ 64)
    (h' : (σ.perform (.mine timestamp txs miner calledOff)).2.Sound c' room') :
    c' = c ∨ ∃ k b flag, σ.ledger.Proposes txs miner k ∧ σ.ledger.SealedFrom k b ∧
      c.tip = some b.parent ∧ k.Attaches c ∧ c.Places b flag c' := by
  obtain ⟨hminer, hlength, hfits⟩ := hr
  have hholds : (σ.ledger.mineBlock timestamp txs miner calledOff).2.store.Holds c' := h'.holds
  obtain ⟨bs, ha⟩ := h.contents.exists_active
  unfold Ledger.mineBlock at hholds
  split at hholds
  · exact Or.inl (hholds.contents_eq h.holds)
  · rename_i k hcandidate
    have hk := Ledger.candidate_eq_ok hcandidate
    obtain ⟨hattach, htip, _⟩ :=
      (Ledger.candidate_ends h.holds h.contents.linked ha txs miner).1 k hcandidate
    obtain ⟨hklength, hkfits, hcount⟩ :=
      Ledger.fits_candidate hminer hlength hfits hk.transactions
    rw [← hcount] at hroom
    rcases Ledger.mineCandidate_cases h.holds h.running h.contents hklength hkfits hattach hroom
      hholds with hsame | ⟨b, flag, hb, hplace⟩
    · exact Or.inl hsame
    · exact Or.inr ⟨k, b, flag, hk, hb, hb.parent ▸ htip, hattach, hplace⟩

/-- A block that a request stores, by where it comes from. -/
inductive Brings (σ : Session) (c : Contents) : Request → Block → Prop
  | begun {timestamp : Int64} {lock : Bytes} {b : Block} :
      σ.ledger.rules.Begins lock b → Brings σ c (.genesis timestamp lock) b
  | accepted {b : Block} : c.Attaches b → σ.ledger.rules.Admits b → Brings σ c (.accept b) b
  | finished {timestamp : Int64} {k : Candidate} {calledOff : Schedule} {b : Block} :
      k ∈ σ.candidates → σ.ledger.SealedFrom k b → Brings σ c (.finish timestamp k calledOff) b
  | mined {timestamp : Int64} {txs : List Transaction} {miner : Bytes} {calledOff : Schedule}
      {k : Candidate} {b : Block} : σ.ledger.Proposes txs miner k → k.Attaches c →
      σ.ledger.SealedFrom k b → Brings σ c (.mine timestamp txs miner calledOff) b

/-- A request stores no block, or one new block. -/
theorem Sound.brings (h : σ.Sound c room) {r : Request} (hr : r.Fits)
    (hroom : room + r.outputCount < 2 ^ 64) (h' : (σ.perform r).2.Sound c' room') :
    c'.blocks = c.blocks ∨ ∃ b, c.blocks b.hash = none ∧
      c'.blocks = (c.withBlock b).blocks ∧ σ.Brings c r b := by
  have hsame : (σ.perform r).2.ledger.store = σ.ledger.store → c'.blocks = c.blocks := by
    intro hstore
    have hholds := h'.holds
    rw [hstore] at hholds
    exact congrArg Contents.blocks (hholds.contents_eq h.holds)
  obtain ⟨bs, ha⟩ := h.contents.exists_active
  cases r with
  | genesis timestamp lock =>
      rcases h.begun hr h' with rfl | ⟨b, hempty, hbegins, rfl⟩
      · exact Or.inl rfl
      · refine Or.inr ⟨b, ?_, rfl, .begun hbegins⟩
        rw [hempty]
        rfl
  | accept b =>
      rcases h.accepted ha hr hroom h' with rfl | ⟨hattach, hadmits, _, flag, hplace⟩
      · exact Or.inl rfl
      · exact Or.inr ⟨b, hplace.blocks_eq_none, hplace.blocks_eq, .accepted hattach hadmits⟩
  | propose txs miner =>
      left
      apply hsame
      show (σ.keepJob (σ.ledger.startMining txs miner)).2.ledger.store = _
      cases σ.ledger.startMining txs miner <;> rfl
  | finish timestamp k calledOff =>
      by_cases hk : k ∈ σ.candidates
      · have hholds := h'.holds
        rw [Session.perform, if_pos hk] at hholds
        rcases Ledger.mineCandidate_cases h.holds h.running h.contents hr.1 hr.2 (h.attached k hk)
          hroom hholds with rfl | ⟨b, flag, hb, hplace⟩
        · exact Or.inl rfl
        · exact Or.inr ⟨b, hplace.blocks_eq_none, hplace.blocks_eq, .finished hk hb⟩
      · left
        apply hsame
        rw [Session.perform, if_neg hk]
  | mine timestamp txs miner calledOff =>
      rcases h.mined hr hroom h' with rfl | ⟨k, b, flag, hk, hb, _, hattach, hplace⟩
      · exact Or.inl rfl
      · exact Or.inr ⟨b, hplace.blocks_eq_none, hplace.blocks_eq, .mined hk hattach hb⟩
  | pay sender recipient amount => exact Or.inl (hsame rfl)
  | reindex =>
      left
      obtain ⟨n, t, hok, hholds⟩ := Ledger.reindex_eq h.holds h.contents hroom ha
      have hrebuilt : σ.ledger.reindex.2.store.Holds c' := h'.holds
      rw [hok] at hrebuilt
      rw [hrebuilt.contents_eq hholds]
      rfl

/-- Whatever a request adds to the stored blocks is in order. -/
theorem Chained.gains (h : Chained rules σ c room) {r : Request} (hr : r.Fits)
    (hroom : room + r.outputCount < 2 ^ 64) (h' : (σ.perform r).2.Sound c' room') :
    Contents.Gains rules c c' := by
  rcases h.sound.brings hr hroom h' with hblocks | ⟨b, hnew, hblocks, hbrings⟩
  · exact .nothing hblocks
  suffices hgood : rules.Forms b ∧ c.Supports b from .block hnew hblocks hgood.1 hgood.2
  rw [← h.rules_eq]
  cases hbrings with
  | begun hbegins => exact ⟨hbegins.forms, Or.inl ⟨hbegins.isGenesis, hbegins.height⟩⟩
  | accepted hattach hadmits => exact ⟨hadmits.forms, Contents.supports_of_admits hadmits hattach⟩
  | finished hk hb =>
      have hrewards := h.rewards _ hk
      rw [← h.rules_eq, ← hb.transactions] at hrewards
      exact ⟨⟨hb.isSealed, hrewards⟩, Or.inr (hb.attaches (h.sound.attached _ hk))⟩
  | mined hk hattach hb =>
      exact ⟨⟨hb.isSealed, hb.transactions ▸ hk.rewardsFirst⟩, Or.inr (hb.attaches hattach)⟩

theorem Chained.perform (h : Chained rules σ c room) {r : Request} (hr : r.Fits)
    (hroom : room + r.outputCount < 2 ^ 64) :
    ∃ c', Chained rules (σ.perform r).2 c' (room + r.outputCount) := by
  obtain ⟨c', hperforms⟩ := h.sound.perform hr hroom
  refine ⟨c', hperforms.sound, hperforms.rules.trans h.rules_eq, ?_, ?_, ?_⟩
  · exact h.built.gains (h.gains hr hroom hperforms.sound)
  · exact hperforms.step.tipHighest h.sound.contents h.tipHighest
  · intro k hk
    rcases mem_candidates_perform hk with hold | ⟨txs, miner, hproposes⟩
    · exact h.rewards k hold
    · exact h.rules_eq ▸ hproposes.rewardsFirst

theorem exists_chained (rules : Rules) {requests : List Request} (hfits : RunFits requests) :
    ∃ c, Chained rules ((start rules).run requests) c (Request.totalOutputCount requests) := by
  induction requests using List.reverseRecOn with
  | nil => exact ⟨Contents.empty, chained_start rules⟩
  | append_singleton requests r ih =>
      obtain ⟨c, h⟩ := ih hfits.init
      have hcount := hfits.count
      rw [Request.totalOutputCount_snoc] at hcount ⊢
      rw [Session.run_snoc]
      exact h.perform hfits.last hcount

end Session

/-! ## What a store holds after a run -/

/-- What is known of a block that is stored under a hash. -/
structure Block.StandsIn (s : Store) (r : Rules) (hash : Digest) (b : Block) : Prop where
  hash_eq : b.hash = hash
  seal_eq : b.hash = sha256 (r.difficulty.sealingInput b.parent b.merkleRoot b.nonce)
  below_target : b.hash < r.difficulty.target
  /-- One coinbase, in front, whose outputs are together no more than the reward. -/
  coinbase : ∃ first others, b.transactions = first :: others ∧ first.isCoinbase = true ∧
    (∀ tx ∈ others, tx.isCoinbase = false) ∧
    (first.outputs.map fun o => o.value.toNat).sum ≤ r.reward.toNat
  rooted : (b.parent = Digest.zero ∧ b.height = 0) ∨
    ∃ p, Chain.block s b.parent = .ok p ∧ b.height.toNat = p.height.toNat + 1

theorem Block.isGenesis_iff {b : Block} : b.isGenesis = true ↔ b.parent = Digest.zero := by
  rw [isGenesis, Digest.isZero, decide_eq_true_iff]

namespace Session

variable {σ : Session} {c : Contents} {room : Nat} {rules : Rules}

theorem Chained.standsIn (h : Chained rules σ c room) {hash : Digest} {b : Block}
    (hb : c.blocks hash = some b) : b.StandsIn σ.ledger.store rules hash := by
  have hforms := h.built.forms hash b hb
  have hsealed := hforms.isSealed
  rw [Difficulty.isSealed, Bool.and_eq_true, decide_eq_true_iff] at hsealed
  obtain ⟨hseal, htarget⟩ := hsealed
  obtain ⟨first, others, htxs, hfirst, hothers, hreward⟩ := hforms.rewards
  refine ⟨h.sound.contents.linked.named hash b hb, hseal.symm, ?_, ?_, ?_⟩
  · rw [hseal] at htarget
    exact of_decide_eq_true htarget
  · exact ⟨first, others, htxs, hfirst, hothers, Rules.le_reward_of_checkReward hreward⟩
  · rcases h.built.supports hash b hb with ⟨hg, hheight⟩ | ⟨p, hp, hheight⟩
    · exact Or.inl ⟨Block.isGenesis_iff.mp hg, hheight⟩
    · exact Or.inr ⟨p, Chain.block_of_some h.sound.holds hp, hheight⟩

/-- The walk has a block for every level from the tip down to zero, unless a block is
stored under the hash that marks a block without a parent. -/
theorem Chained.length_walk (h : Chained rules σ c room) {hash : Digest} {t : Block}
    {bs : List Block} (ht : c.blocks hash = some t) (ha : Ancestry c.blocks hash bs) :
    bs.length = t.height.toNat + 1 ∨ Chain.hasBlock σ.ledger.store Digest.zero = true := by
  obtain ⟨g, hlast, hg⟩ := (h.sound.contents.linked.runsDown ha).last
  have hlength := h.sound.contents.linked.length_eq ha ht hlast
  obtain ⟨name, hname⟩ := ha.stored g (List.mem_of_getLast? hlast)
  rcases h.built.supports name g hname with ⟨_, hzero⟩ | ⟨p, hp, _⟩
  · left
    rw [hzero] at hlength
    simpa using hlength
  · right
    rw [Block.isGenesis_iff.mp hg] at hp
    rw [Chain.hasBlock_eq h.sound.holds, hp]
    rfl

/-- The structure of what a ledger stores, after any requests in any order. Every stored
block is read back under its own hash, is sealed, has one coinbase, in front and within
the reward, and is a first block or stands on a stored one. A store without a tip has no
blocks; else the tip names a block that none is higher than, and the walk from there
ends without an error at a genesis block, one level down at every step. It has as many
blocks as the tip's height says; for this no block must be stored under the zero hash,
which takes a message that SHA-256 maps to zero. -/
theorem chain_structure (rules : Rules) (requests : List Request) (hfits : RunFits requests) :
    (∀ hash, Chain.hasBlock (storeAfter rules requests) hash = true →
      ∃ b, Chain.block (storeAfter rules requests) hash = .ok b ∧
        b.StandsIn (storeAfter rules requests) rules hash) ∧
    ((Chain.tip? (storeAfter rules requests) = .ok none ∧
        (∀ hash, Chain.hasBlock (storeAfter rules requests) hash = false) ∧
        Chain.walk (storeAfter rules requests) = .ok []) ∨
      ∃ hash t bs, Chain.tip? (storeAfter rules requests) = .ok (some hash) ∧
        Chain.block (storeAfter rules requests) hash = .ok t ∧
        Chain.bestHeight (storeAfter rules requests) = .ok t.height ∧
        (∀ name b, Chain.block (storeAfter rules requests) name = .ok b → b.height ≤ t.height) ∧
        Chain.walk (storeAfter rules requests) = .ok (bs.map .ok) ∧
        bs.head? = some t ∧ Chain.RunsDown bs ∧
        (bs.length = t.height.toNat + 1 ∨
          Chain.hasBlock (storeAfter rules requests) Digest.zero = true)) := by
  obtain ⟨c, h⟩ := exists_chained rules hfits
  have hholds : (storeAfter rules requests).Holds c := h.sound.holds
  have hlinked := h.sound.contents.linked
  constructor
  · intro hash hhas
    rw [Chain.hasBlock_eq hholds, Option.isSome_iff_exists] at hhas
    obtain ⟨b, hb⟩ := hhas
    exact ⟨b, Chain.block_of_some hholds hb, h.standsIn hb⟩
  cases hc : c.tip with
  | none =>
      left
      refine ⟨by rw [Chain.tip?_eq hholds, hc], fun hash => ?_, ?_⟩
      · rw [Chain.hasBlock_eq hholds, h.sound.contents.bare hc]
        rfl
      · exact Chain.walk_eq hholds hlinked (Contents.active_of_none hc)
  | some hash =>
      right
      obtain ⟨t, ht⟩ := h.sound.contents.hasTip hash hc
      obtain ⟨bs, ha⟩ := hlinked.exists_ancestry ht
      refine ⟨hash, t, bs, by rw [Chain.tip?_eq hholds, hc], Chain.block_of_some hholds ht,
        Chain.bestHeight_eq hholds hc ht, ?_, ?_, ?_, hlinked.runsDown ha, h.length_walk ht ha⟩
      · intro name b hb
        rw [Chain.block_eq hholds] at hb
        cases hname : c.blocks name with
        | none =>
            rw [hname] at hb
            cases hb
        | some b' =>
            rw [hname] at hb
            obtain rfl := Except.ok.inj hb
            exact h.tipHighest hash t hc ht name b' hname
      · exact Chain.walk_eq hholds hlinked (Contents.active_of_some hc ha)
      · obtain ⟨t', rest, rfl, ht'⟩ := ha.head_stored
        rw [List.head?_cons, Option.some.inj (ht.symm.trans ht')]

theorem shorter_bestHeight :
    Chain.bestHeight (storeAfter Fork.rules [.accept Fork.root, .accept Fork.shorter]) = .ok 1 ∧
      Chain.hasBlock (storeAfter Fork.rules [.accept Fork.root, .accept Fork.shorter])
        Digest.zero = false := by
  decide +kernel

/-- The shorter branch of the fork is walked in two steps. -/
theorem chain_structure_shorter :
    RunFits [.accept Fork.root, .accept Fork.shorter] ∧
      ∃ bs, Chain.walk (storeAfter Fork.rules [.accept Fork.root, .accept Fork.shorter]) =
          .ok (bs.map .ok) ∧ Chain.RunsDown bs ∧ bs.length = 2 := by
  have hfits : RunFits [.accept Fork.root, .accept Fork.shorter] := by decide
  obtain ⟨hbest, hzero⟩ := shorter_bestHeight
  refine ⟨hfits, ?_⟩
  rcases (chain_structure Fork.rules [.accept Fork.root, .accept Fork.shorter] hfits).2 with
    ⟨htip, _, _⟩ | ⟨_, t, bs, _, _, hheight, _, hwalk, _, hdown, hlength⟩
  · rw [Chain.bestHeight, Chain.tip, htip] at hbest
    cases hbest
  · rw [hbest] at hheight
    rw [hzero, ← Except.ok.inj hheight] at hlength
    exact ⟨bs, hwalk, hdown, hlength.resolve_right Bool.false_ne_true⟩

end Session

end CoinLedger
