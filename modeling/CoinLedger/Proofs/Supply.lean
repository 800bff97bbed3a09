import CoinLedger.Proofs.ChainStructure
import CoinLedger.Proofs.Payments
import CoinLedger.Proofs.RewardNotes

/-!
# The supply

An honest node mines only payments that it has built itself, however long ago and however
often. In every state of its run the index is worth the reward for each block of the
chain: `Session.supply_of_honest`.

`Index.KeepsSupply` is what the blocks keep: the index that the ledger has and the one
that a rebuild would compute both keep account of the chain, and the total is the rewards.
A coinbase is new because its note tells the height. Payments that were built before
balance, since they consume what the chain had then, and the chain only grows.
-/

namespace CoinLedger

/-! ## Chains that reward and balance -/

/-- The block pays one reward, under a note of the ledger's own, and otherwise holds
payments. -/
def Block.Rewards (reward : UInt64) (b : Block) : Prop :=
  ∃ lock note payments, b.transactions = Transaction.coinbase lock note reward :: payments ∧
    (note = Ledger.genesisNote ∨ ∃ miner, note = Ledger.rewardNote miner b.height) ∧
    ∀ tx ∈ payments, tx.isCoinbase = false

/-- What a payment has that may be mined on a chain. -/
structure Transaction.PaysOn (tx : Transaction) (bs : List Block) : Prop where
  contentHash_eq : tx.contentHash = tx.id
  length_outputs : tx.outputs.length ≤ 2
  balances : tx.Balances (Block.chainTransactions bs)

theorem Transaction.PaysOn.mono {tx : Transaction} {bs bs' : List Block} (h : tx.PaysOn bs)
    (hsub : bs ⊆ bs') : tx.PaysOn bs' := by
  refine ⟨h.contentHash_eq, h.length_outputs, h.balances.mono fun t ht => ?_⟩
  obtain ⟨b, hb, ht⟩ := List.mem_flatMap.mp ht
  exact List.mem_flatMap.mpr ⟨b, hsub hb, ht⟩

theorem Transaction.worth_coinbase (lock note : Bytes) (reward : UInt64) :
    worth (coinbase lock note reward).indexedOutputs = reward.toNat :=
  (worth_indexedOutputs _).trans (Nat.add_zero _)

/-- A reward above all blocks of a chain is new to it. -/
theorem isNewIn_reward {bs : List Block} {reward : UInt64} {miner : Bytes} {height : UInt64}
    (hrewards : ∀ b ∈ bs, b.Rewards reward) (habove : ∀ b ∈ bs, b.height.toNat < height.toNat)
    (hone : OneOfEachId (Transaction.coinbase miner (Ledger.rewardNote miner height) reward ::
      Block.chainTransactions bs)) :
    (Transaction.coinbase miner (Ledger.rewardNote miner height) reward).IsNewIn
      (Block.chainTransactions bs) := by
  intro _ t ht hid
  obtain rfl := hone t (List.mem_cons_of_mem _ ht) _ List.mem_cons_self hid
  obtain ⟨b, hb, htx⟩ := List.mem_flatMap.mp ht
  obtain ⟨lock, note, payments, htxs, hnote, hpayments⟩ := hrewards b hb
  rw [htxs] at htx
  rcases List.mem_cons.mp htx with heq | hpayment
  -- a coinbase tells the height of its block
  · have hsame : Ledger.rewardNote miner height = note := by
      have hinputs := congrArg Transaction.inputs heq
      exact congrArg Input.key (List.singleton_inj.mp hinputs)
    rcases hnote with rfl | ⟨miner', rfl⟩
    · exact Ledger.genesisNote_ne_rewardNote _ _ hsame.symm
    · have hlt := habove b hb
      rw [(Ledger.rewardNote_injective hsame).2] at hlt
      exact Nat.lt_irrefl _ hlt
  · exact Bool.false_ne_true (hpayments _ hpayment).symm

namespace Index

open Block (chainTransactions)

variable {m m' : Index} {reward : UInt64} {bs : List Block} {b : Block}

/-- The index keeps account of a chain of rewards and payments, as would a rebuild, and
its total is a reward for every block. -/
structure KeepsSupply (m : Index) (reward : UInt64) (bs : List Block) : Prop where
  rewards : ∀ b ∈ bs, b.Rewards reward
  listed : AccountsFor m.outputs (chainTransactions bs)
  rebuilt : AccountsFor (fun id => Unspent.leftover id bs) (chainTransactions bs)
  total_eq : m.total = reward.toNat * bs.length

theorem keepsSupply_empty (reward : UInt64) : KeepsSupply (fun _ => none) reward [] where
  rewards _ h := absurd h List.not_mem_nil
  listed := accountsFor_empty
  rebuilt := accountsFor_empty
  total_eq := Finset.sum_eq_zero fun _ _ => rfl

/-- A rebuild does not change the supply. -/
theorem KeepsSupply.ofChain (h : m.KeepsSupply reward bs) : (ofChain bs).KeepsSupply reward bs := by
  have houtputs : outputs (Index.ofChain bs) = fun id => Unspent.leftover id bs :=
    funext fun id => outputs_ofChain bs id
  refine ⟨h.rewards, houtputs ▸ h.rebuilt, h.rebuilt, ?_⟩
  rw [← h.total_eq, total, total]
  refine Finset.sum_congr rfl fun id _ => ?_
  rw [houtputs]
  exact h.rebuilt.worth_eq h.listed id

/-- A block of one new reward and of payments that balance adds its reward. -/
theorem KeepsSupply.follow {lock note : Bytes} {payments : List Transaction}
    (h : m.KeepsSupply reward bs)
    (htxs : b.transactions = Transaction.coinbase lock note reward :: payments)
    (hnote : note = Ledger.genesisNote ∨ ∃ miner, note = Ledger.rewardNote miner b.height)
    (hnew : (Transaction.coinbase lock note reward).IsNewIn (chainTransactions bs))
    (hpayments : ∀ tx ∈ payments, tx.isCoinbase = false ∧ tx.PaysOn bs)
    (hone : OneOfEachId (chainTransactions (b :: bs))) (hm : m.follow b.events = some m') :
    KeepsSupply m' reward (b :: bs) := by
  have hplaces : ∀ tx ∈ b.transactions, tx.outputs.length ≤ 2 ^ 32 := by
    intro tx htx
    rw [htxs] at htx
    rcases List.mem_cons.mp htx with rfl | htx
    · exact Nat.one_le_two_pow
    · exact Nat.le_trans (hpayments tx htx).2.length_outputs (by decide)
  have hbalances : ∀ tx ∈ payments, tx.Balances (chainTransactions bs) :=
    fun tx htx => (hpayments tx htx).2.balances
  obtain ⟨hlisted, htotal, hallnew⟩ :=
    h.listed.follow_block hone htxs rfl hnew hplaces hbalances hm
  have hsourced : ∀ o ∈ consumedBy b.transactions,
      ∃ tx ∈ chainTransactions bs, tx.id = o.source := by
    intro o ho
    obtain ⟨tx, htx, ho⟩ := mem_consumedBy.mp ho
    rw [htxs] at htx
    rcases List.mem_cons.mp htx with rfl | htx
    · cases ho
    · obtain ⟨coins, hconsumes, _⟩ := hbalances tx htx
      exact hconsumes.sourced ho
  refine ⟨?_, hlisted, h.rebuilt.leftover_block hone hplaces hsourced hallnew, ?_⟩
  · intro t ht
    rcases List.mem_cons.mp ht with rfl | ht
    · exact ⟨lock, note, payments, htxs, hnote, fun tx htx => (hpayments tx htx).1⟩
    · exact h.rewards t ht
  · rw [htotal, h.total_eq, Transaction.worth_coinbase, List.length_cons, Nat.mul_succ]

/-- A block that is mined on top of the chain, with a reward of its own height. -/
theorem KeepsSupply.mine {miner : Bytes} {payments : List Transaction}
    (h : m.KeepsSupply reward bs) (htxs : b.transactions =
      Transaction.coinbase miner (Ledger.rewardNote miner b.height) reward :: payments)
    (habove : ∀ t ∈ bs, t.height.toNat < b.height.toNat)
    (hpayments : ∀ tx ∈ payments, tx.isCoinbase = false ∧ tx.PaysOn bs)
    (hone : OneOfEachId (chainTransactions (b :: bs))) (hm : m.follow b.events = some m') :
    KeepsSupply m' reward (b :: bs) := by
  have hsub : Transaction.coinbase miner (Ledger.rewardNote miner b.height) reward ::
      chainTransactions bs ⊆ chainTransactions (b :: bs) := by
    rw [Block.chainTransactions_cons, htxs]
    exact List.cons_subset_cons _ (List.subset_append_right payments _)
  exact h.follow htxs (Or.inr ⟨miner, rfl⟩) (isNewIn_reward h.rewards habove (hone.mono hsub))
    hpayments hone hm

/-- A chain is begun with one reward. -/
theorem keepsSupply_begin {lock : Bytes}
    (htxs : b.transactions = [Transaction.coinbase lock Ledger.genesisNote reward]) :
    (Index.ofChain [b]).KeepsSupply reward [b] := by
  have hm : follow (fun _ => none) b.events =
      some (create (fun _ => none) (Transaction.coinbase lock Ledger.genesisNote reward)) := by
    rw [Block.events, htxs]
    rfl
  have hone : OneOfEachId (chainTransactions [b]) := by
    have hall : chainTransactions [b] =
        [Transaction.coinbase lock Ledger.genesisNote reward] := by
      rw [chainTransactions, List.flatMap_singleton, htxs]
    rw [hall]
    intro tx htx tx' htx' _
    rw [List.mem_singleton.mp htx, List.mem_singleton.mp htx']
  exact ((keepsSupply_empty reward).follow htxs (Or.inl rfl)
    (fun _ t ht => absurd ht List.not_mem_nil) (fun tx htx => absurd htx List.not_mem_nil) hone
    hm).ofChain

end Index

/-! ## Runs of an honest node -/

namespace Session

/-- One of the requests built the transaction. -/
def BuiltIn (rules : Rules) (requests : List Request) (tx : Transaction) : Prop :=
  ∃ before sender recipient amount after,
    requests = before ++ .pay sender recipient amount :: after ∧
      ((start rules).run before).ledger.newTransaction sender recipient amount = .ok tx

/-- A chain is begun, a payment is built, the index is rebuilt, or payments are mined that
earlier requests have built. -/
def IsHonest (rules : Rules) (earlier : List Request) : Request → Prop
  | .genesis .. => True
  | .pay .. => True
  | .reindex => True
  | .mine _ txs _ _ => ∀ tx ∈ txs, BuiltIn rules earlier tx
  | _ => False

/-- Every request is honest after those before it. -/
def Honest (rules : Rules) (requests : List Request) : Prop :=
  ∀ before r after, requests = before ++ r :: after → IsHonest rules before r

variable {rules : Rules} {requests : List Request} {r : Request} {tx : Transaction}
  {c c' : Contents} {bs : List Block} {b : Block} {room : Nat} {σ : Session}

theorem Honest.init (h : Honest rules (requests ++ [r])) : Honest rules requests := by
  rintro before r' after rfl
  exact h before r' (after ++ [r]) (by simp)

theorem Honest.last (h : Honest rules (requests ++ [r])) : IsHonest rules requests r :=
  h requests r [] rfl

theorem BuiltIn.cases (h : BuiltIn rules (requests ++ [r]) tx) : BuiltIn rules requests tx ∨
    ∃ sender recipient amount, r = .pay sender recipient amount ∧
      ((start rules).run requests).ledger.newTransaction sender recipient amount = .ok tx := by
  obtain ⟨before, sender, recipient, amount, after, hsplit, hbuilt⟩ := h
  rcases split_snoc hsplit with ⟨rfl, rfl⟩ | ⟨rest, rfl⟩
  · exact Or.inr ⟨sender, recipient, amount, rfl, hbuilt⟩
  · exact Or.inl ⟨before, sender, recipient, amount, rest, rfl, hbuilt⟩

/-- A collision that is stored stays stored. -/
theorem hasCollision_snoc (hfits : RunFits (requests ++ [r]))
    (h : Chain.HasCollision (storeAfter rules requests)) :
    Chain.HasCollision (storeAfter rules (requests ++ [r])) := by
  obtain ⟨c, hsound⟩ := run_sound rules hfits.init
  obtain ⟨c', hsound', hstep⟩ := hsound.run_snoc hfits
  have hincludes : ∀ tx, Chain.Includes (storeAfter rules requests) tx →
      Chain.Includes (storeAfter rules (requests ++ [r])) tx := by
    rintro tx ⟨b, hb, htx⟩
    refine ⟨b, Chain.block_of_some hsound'.holds (hstep.blocks_subset _ _ ?_), htx⟩
    exact (Chain.block_ends hsound.holds b.hash).1 b hb
  obtain ⟨tx, tx', htx, htx', hcollision⟩ := h
  exact ⟨tx, tx', hincludes tx htx, hincludes tx' htx', hcollision⟩

/-- Without a collision the stored transactions are told apart by their ids. -/
theorem Grounded.oneOfEachId (h : Grounded rules σ c room)
    (hnone : ¬ Chain.HasCollision σ.ledger.store)
    (hstored : ∀ b ∈ bs, c.blocks b.hash = some b) : OneOfEachId (Block.chainTransactions bs) := by
  intro tx htx tx' htx' hid
  obtain ⟨hincludes, hfits, hcontent⟩ := h.known hstored tx htx
  obtain ⟨hincludes', hfits', hcontent'⟩ := h.known hstored tx' htx'
  have hpreimage : tx.idPreimage = tx'.idPreimage := by
    by_contra hne
    exact hnone ⟨tx, tx', hincludes, hincludes', hne, hcontent.trans (hid.trans hcontent'.symm)⟩
  obtain ⟨hinputs, houtputs⟩ := Transaction.parts_of_idPreimage hfits hfits' hpreimage
  cases tx
  cases tx'
  cases hid
  cases hinputs
  cases houtputs
  rfl

/-- What the run of an honest node keeps. -/
structure Accounted (rules : Rules) (requests : List Request) (c : Contents)
    (bs : List Block) : Prop where
  grounded : Grounded rules ((start rules).run requests) c (Request.totalOutputCount requests)
  active : c.Active bs
  supply : c.index.KeepsSupply rules.reward bs
  built : ∀ tx, BuiltIn rules requests tx → tx.PaysOn bs

theorem accounted_start (rules : Rules) : Accounted rules [] Contents.empty [] where
  grounded := grounded_start rules
  active := Contents.active_of_none rfl
  supply := Index.keepsSupply_empty rules.reward
  built tx h := by
    obtain ⟨before, sender, recipient, amount, after, heq, _⟩ := h
    simp at heq

/-- A block that is mined goes on top of the tip, with the index following it. -/
theorem mined_onTip {room' : Nat} {flag : Bool} {k : Candidate} (h : σ.Sound c room)
    (hzero : σ.NoZeroHash) (ha : c.Active bs) (h' : c'.Sound room')
    (hb : σ.ledger.SealedFrom k b) (htip : c.tip = some b.parent) (hattach : k.Attaches c)
    (hplace : c.Places b flag c') :
    ∃ m, c.index.follow b.events = some m ∧ c'.index = m ∧ c'.Active (b :: bs) ∧
      ∀ t ∈ bs, t.height.toNat < b.height.toNat := by
  have htipzero := h.tip_ne_zero hzero
  have hattaches : c.Attaches b := fun _ => hb.attaches hattach
  have hext : c.ExtendedBy b := by
    unfold Contents.ExtendedBy
    rw [htip]
  cases hplace with
  | beside _ hnot _ => exact absurd (hext.overtaken hattaches htipzero) hnot
  | switch _ _ hnot _ => exact absurd hext hnot
  | onTip hnew _ _ hm =>
      obtain ⟨cs, hcs⟩ := h'.exists_active
      obtain ⟨rest, rfl, hrest⟩ := h.contents.active_onTip hnew hattaches hext
        (fun hg => hext.tip_eq_none htipzero hg) (hcs.of_some rfl)
      obtain rfl := ha.unique hrest
      exact ⟨_, hm, rfl, hcs, h'.linked.height_lt (hcs.of_some rfl)⟩

/-- A block of an honest node holds its reward and payments that it has built. -/
theorem Accounted.mined_block {k : Candidate} {txs : List Transaction} {miner : Bytes}
    (h : Accounted rules requests c bs) (hbuilt : ∀ tx ∈ txs, BuiltIn rules requests tx)
    (hk : ((start rules).run requests).ledger.Proposes txs miner k)
    (hb : ((start rules).run requests).ledger.SealedFrom k b) :
    b.transactions = Transaction.coinbase miner (Ledger.rewardNote miner b.height) rules.reward ::
        txs ∧
      (∀ tx ∈ txs, tx.isCoinbase = false ∧ tx.PaysOn bs) ∧
      ∀ tx ∈ b.transactions, tx.contentHash = tx.id := by
  have htxs : b.transactions =
      Transaction.coinbase miner (Ledger.rewardNote miner b.height) rules.reward :: txs := by
    rw [hb.transactions, hk.transactions, hb.height, h.grounded.rules_eq]
  refine ⟨htxs, fun tx htx => ⟨(hk.pending tx htx).1, h.built tx (hbuilt tx htx)⟩, ?_⟩
  intro tx htx
  rw [htxs] at htx
  rcases List.mem_cons.mp htx with rfl | htx
  · exact Transaction.contentHash_coinbase _ _ _
  · exact (h.built tx (hbuilt tx htx)).contentHash_eq

/-- What one more request leads to: the chain keeps its blocks, and the index keeps the
supply. -/
theorem Accounted.perform (h : Accounted rules requests c bs) (hr : IsHonest rules requests r)
    (hfits : RunFits (requests ++ [r])) (hzero : ((start rules).run requests).NoZeroHash)
    (hnone : ¬ Chain.HasCollision (storeAfter rules (requests ++ [r]))) :
    ∃ c' bs', Grounded rules ((start rules).run (requests ++ [r])) c'
        (Request.totalOutputCount (requests ++ [r])) ∧
      c'.Active bs' ∧ c'.index.KeepsSupply rules.reward bs' ∧ bs ⊆ bs' := by
  have hbefore := h.grounded.sound
  have hcount := hfits.count
  rw [storeAfter, run_snoc] at hnone
  rw [Request.totalOutputCount_snoc] at hcount ⊢
  rw [run_snoc]
  obtain ⟨c', hperforms⟩ := hbefore.perform hfits.last hcount
  have hafter := hperforms.sound
  have hgrounded : c'.HasContentIds → Grounded rules _ c' _ := fun hids =>
    ⟨hafter, hperforms.rules.trans h.grounded.rules_eq,
      hperforms.step.traced hbefore.contents h.grounded.traced (hbefore.tip_ne_zero hzero), hids⟩
  have hkeep : c' = c → ∃ c' bs', Grounded rules (((start rules).run requests).perform r).2 c'
      (Request.totalOutputCount requests + r.outputCount) ∧ c'.Active bs' ∧
        c'.index.KeepsSupply rules.reward bs' ∧ bs ⊆ bs' := by
    rintro rfl
    exact ⟨_, bs, hgrounded h.grounded.ids, h.active, h.supply, List.Subset.refl bs⟩
  cases r with
  | genesis timestamp lock =>
      rcases hbefore.begun hfits.last hafter with hsame | ⟨b, hempty, hbegins, rfl⟩
      · exact hkeep hsame
      · rw [h.grounded.rules_eq] at hbegins
        have htxs := hbegins.transactions
        have hnil : bs = [] := h.active.of_none (by rw [hempty]; rfl)
        refine ⟨_, [b], hgrounded (h.grounded.ids.withBlock (fun tx htx => ?_) rfl),
          Contents.active_of_genesis c hbegins.isGenesis, Index.keepsSupply_begin htxs, ?_⟩
        · rw [htxs, List.mem_singleton] at htx
          rw [htx, Transaction.contentHash_coinbase]
        · rw [hnil]
          exact List.nil_subset [b]
  | mine timestamp txs miner calledOff =>
      rcases hbefore.mined hfits.last hcount hafter with
        hsame | ⟨k, b, flag, hk, hb, htip, hattach, hplace⟩
      · exact hkeep hsame
      obtain ⟨m, hm, hindex, hactive, habove⟩ :=
        mined_onTip hbefore hzero h.active hafter.contents hb htip hattach hplace
      obtain ⟨htxs, hpayments, hcontent⟩ := h.mined_block hr hk hb
      have hids : c'.HasContentIds := h.grounded.ids.withBlock hcontent hplace.blocks_eq
      have hone : OneOfEachId (Block.chainTransactions (b :: bs)) := by
        refine (hgrounded hids).oneOfEachId hnone fun t ht => ?_
        rw [hplace.blocks_eq]
        exact hbefore.contents.stored_withBlock hplace.blocks_eq_none h.active t ht
      refine ⟨c', b :: bs, hgrounded hids, hactive, ?_, List.subset_cons_self b bs⟩
      rw [hindex]
      exact h.supply.mine htxs habove hpayments hone hm
  | pay sender recipient amount => exact hkeep (hafter.holds.contents_eq hbefore.holds)
  | reindex =>
      obtain ⟨n, t, hok, hholds⟩ :=
        Ledger.reindex_eq hbefore.holds hbefore.contents hcount h.active
      have hrebuilt : ((start rules).run requests).ledger.reindex.2.store.Holds c' := hafter.holds
      rw [hok] at hrebuilt
      obtain rfl := hrebuilt.contents_eq hholds
      exact ⟨_, bs, hgrounded h.grounded.ids, h.active, h.supply.ofChain, List.Subset.refl bs⟩
  | _ => exact hr.elim

/-- The payments that have been built go on to balance as the chain grows. -/
theorem Accounted.snoc (h : Accounted rules requests c bs) (hr : IsHonest rules requests r)
    (hfits : RunFits (requests ++ [r])) (hzero : ((start rules).run requests).NoZeroHash)
    (hnone : ¬ Chain.HasCollision (storeAfter rules (requests ++ [r]))) :
    ∃ c' bs', Accounted rules (requests ++ [r]) c' bs' := by
  obtain ⟨c', bs', hgrounded, hactive, hsupply, hsub⟩ := h.perform hr hfits hzero hnone
  refine ⟨c', bs', hgrounded, hactive, hsupply, fun tx hbuilt => ?_⟩
  have hpays : tx.PaysOn bs := by
    rcases hbuilt.cases with hbuilt | ⟨sender, recipient, amount, _, hbuilt⟩
    · exact h.built tx hbuilt
    · obtain ⟨coins, hcoins⟩ := Payment.build_eq_ok h.grounded.sound.holds hbuilt
      exact ⟨hcoins.contentHash_eq, hcoins.length_outputs, hcoins.balances h.supply.listed⟩
  exact hpays.mono hsub

theorem exists_accounted (rules : Rules) {requests : List Request} (hhonest : Honest rules requests)
    (hfits : RunFits requests) (hzero : ((start rules).run requests).NoZeroHash)
    (hnone : ¬ Chain.HasCollision (storeAfter rules requests)) :
    ∃ c bs, Accounted rules requests c bs := by
  induction requests using List.reverseRecOn with
  | nil => exact ⟨_, _, accounted_start rules⟩
  | append_singleton requests r ih =>
      obtain ⟨c, bs, h⟩ := ih hhonest.init hfits.init (hzero.init hfits)
        (mt (hasCollision_snoc hfits) hnone)
      exact h.snoc hhonest.last hfits (hzero.init hfits) hnone

/-- In every state of an honest run in which there is a chain, all that the index lists is
worth the reward for every block from height zero to the best height. The exceptions are a
collision of SHA-256 among the transactions of the run, and a block under the zero hash,
which takes a message that SHA-256 maps to zero. -/
theorem supply_of_honest (rules : Rules) (requests : List Request) (hash : Digest)
    (hhonest : Honest rules requests) (hfits : RunFits requests)
    (hchain : Chain.tip? (storeAfter rules requests) = .ok (some hash)) :
    (∃ height, Chain.bestHeight (storeAfter rules requests) = .ok height ∧
      Unspent.supply (storeAfter rules requests) =
        .ok (rules.reward.toNat * (height.toNat + 1))) ∨
    Chain.HasCollision (storeAfter rules requests) ∨
    Chain.hasBlock (storeAfter rules requests) Digest.zero = true := by
  by_cases hnone : Chain.HasCollision (storeAfter rules requests)
  · exact Or.inr (Or.inl hnone)
  by_cases hzero : ((start rules).run requests).NoZeroHash
  swap
  · exact Or.inr (Or.inr ((Bool.not_eq_false _).mp hzero))
  left
  obtain ⟨c, bs, h⟩ := exists_accounted rules hhonest hfits hzero hnone
  obtain ⟨_, hchained⟩ := exists_chained rules hfits
  obtain rfl := hchained.sound.holds.contents_eq h.grounded.sound.holds
  have hholds : (storeAfter rules requests).Holds _ := h.grounded.sound.holds
  have htip := Except.ok.inj ((Chain.tip?_eq hholds).symm.trans hchain)
  obtain ⟨t, ht⟩ := h.grounded.sound.contents.hasTip hash htip
  refine ⟨t.height, Chain.bestHeight_eq hholds htip ht, ?_⟩
  rw [Unspent.supply_eq hholds, h.supply.total_eq]
  rcases hchained.length_walk ht (h.active.of_some htip) with hlength | hhas
  · rw [hlength]
  · rw [hzero] at hhas
    cases hhas

end Session

/-! ## A payment of an honest node -/

namespace Fork

open Session (Honest storeAfter)

/-- The key of Alice's lock. -/
def aliceKey : SecretKey :=
  ⟨0x1111111111111111111111111111111111111111111111111111111111111111, by decide, by decide⟩

/-- The payment of 40 to Bob out of Alice's first reward, with the change. -/
def purchase : Transaction where
  id := Digest.ofNat 0x27b04bac3974f61289864be78c8599c37c394e2d70f1386948cc2cb6f01e0c30
  inputs := [{
    source := Digest.ofNat 0x1dd4c2fcba060eeeedca3ebcb4c7a0a5fbaf93feb79b095f4bcf645664ce87be
    index := 0
    signature :=
      Bytes.bigEndian 32 0x3ede9d46778e27f8091400819f968c4b2ae66c4c54bcf2d3bb5d081c4b96a9e4 ++
        Bytes.bigEndian 32 0x2a10439ee5897e571ee5f8e3b0763b321deebadde957580b93a6b9082bf1c3c9
    key := spend.key }]
  outputs := [⟨40, bob⟩, ⟨60, alice⟩]

/-- Alice begins a chain and pays Bob, who mines the payment. -/
def purchaseRequests : List Request :=
  [.genesis 0 alice, .pay aliceKey bob 40, .mine 0 [purchase] bob .never]

theorem purchase_built :
    ((Session.start rules).run [.genesis 0 alice]).ledger.newTransaction aliceKey bob 40 =
      .ok purchase := by
  decide +kernel

theorem honest_purchaseRequests : Honest rules purchaseRequests := by
  unfold Honest purchaseRequests
  rw [forall_split_cons, forall_split_cons, forall_split_cons]
  refine ⟨trivial, trivial, ?_, fun before r after heq => by simp at heq⟩
  intro tx htx
  obtain rfl := List.mem_singleton.mp htx
  exact ⟨[.genesis 0 alice], aliceKey, bob, 40, [], rfl, purchase_built⟩

theorem run_purchaseRequests :
    Chain.tip? (storeAfter rules purchaseRequests) = .ok (some (Digest.ofNat
        0x25648fc35104d8662a18085502a388626f6cc1d4c43fa1ac059a83a08a7892b1)) ∧
      Chain.bestHeight (storeAfter rules purchaseRequests) = .ok 1 ∧
      Chain.hasBlock (storeAfter rules purchaseRequests) Digest.zero = false := by
  decide +kernel

/-- Two rewards are in circulation after the payment. -/
theorem purchase_supply :
    Honest rules purchaseRequests ∧ RunFits purchaseRequests ∧
      (Unspent.supply (storeAfter rules purchaseRequests) = .ok 200 ∨
        Chain.HasCollision (storeAfter rules purchaseRequests)) := by
  have hfits : RunFits purchaseRequests := by decide
  obtain ⟨htip, hbest, hzero⟩ := run_purchaseRequests
  refine ⟨honest_purchaseRequests, hfits, ?_⟩
  rcases Session.supply_of_honest rules purchaseRequests _ honest_purchaseRequests hfits htip with
    ⟨height, hheight, hsupply⟩ | hcollision | hstored
  · left
    obtain rfl := Except.ok.inj (hbest.symm.trans hheight)
    exact hsupply
  · exact Or.inr hcollision
  · rw [hzero] at hstored
    cases hstored

end Fork

end CoinLedger
