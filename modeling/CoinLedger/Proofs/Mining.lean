import CoinLedger.Proofs.Runs

/-!
# Blocks that are mined

A block that a ledger mines goes through checks of its own: the transactions must
verify and be spendable, and the block is put together, sealed and committed. What a
peer checks of the same block is `Ledger.checkBlock`. The two agree but for the ids:
nothing that is mined is checked to be under the hash of its content.

`Ledger.mineBlock_eq_ok` says all that a mined block has, and the main statement,
`Ledger.mined_accepted_iff`, when a peer on the same store accepts it and is led to
the same store.
-/

namespace CoinLedger

/-! ## Candidates -/

theorem totalValue?_singleton (o : Output) : totalValue? [o] = some o.value := by
  have hlt := o.value.toNat_lt
  have hfirst : addAmounts? 0 o.value = some o.value := by
    rw [addAmounts?, if_pos (by simpa using hlt), UInt64.zero_add]
  rw [totalValue?, List.foldlM_cons, hfirst]
  rfl

/-- A coinbase for the greatest reward is in order. -/
theorem Rules.checkReward_coinbase (r : Rules) (lock note : Bytes) :
    r.checkReward (Transaction.coinbase lock note r.reward) = .ok () := by
  have houtputs : (Transaction.coinbase lock note r.reward).outputs = [⟨r.reward, lock⟩] := rfl
  rw [checkReward, houtputs, totalValue?_singleton]
  exact if_neg (UInt64.lt_irrefl r.reward)

theorem Transaction.isCoinbase_coinbase (lock note : Bytes) (reward : UInt64) :
    (coinbase lock note reward).isCoinbase = true := rfl

namespace Ledger

variable {l l' : Ledger} {txs : List Transaction} {miner : Bytes} {k : Candidate} {b : Block}
  {timestamp : Int64} {calledOff : Schedule}

/-- A candidate that a ledger puts together: transactions that verify behind the
miner's coinbase, on top of the tip and one level above it. -/
structure Proposes (l : Ledger) (txs : List Transaction) (miner : Bytes) (k : Candidate) :
    Prop where
  pending : ∀ tx ∈ txs, tx.isCoinbase = false ∧ l.verifyTransaction tx = .ok true
  parent : ∃ p, Chain.block l.store k.parent = .ok p ∧ nextHeight? p.height = some k.height
  transactions : k.transactions =
    Transaction.coinbase miner (rewardNote miner k.height) l.rules.reward :: txs

theorem checkPending_eq_ok (h : l.checkPending txs = .ok ()) :
    ∀ tx ∈ txs, tx.isCoinbase = false ∧ l.verifyTransaction tx = .ok true := by
  induction txs with
  | nil => exact fun tx htx => nomatch htx
  | cons tx rest ih =>
      rw [checkPending, throwOr_eq_ok, Except.bind_eq_ok] at h
      obtain ⟨hcoinbase, flag, hverify, h⟩ := h
      rw [throwOr_eq_ok] at h
      intro t ht
      rcases List.mem_cons.mp ht with rfl | ht
      · exact ⟨by simpa using hcoinbase, by simpa [hverify] using h.1⟩
      · exact ih h.2 t ht

theorem candidate_eq_ok (h : l.candidate txs miner = .ok k) : l.Proposes txs miner k := by
  unfold candidate at h
  obtain ⟨_, hpending, h⟩ := Except.bind_eq_ok.mp h
  obtain ⟨parent, _, h⟩ := Except.bind_eq_ok.mp h
  obtain ⟨p, hp, h⟩ := Except.bind_eq_ok.mp h
  split at h
  · cases h
  · rename_i height hheight
    obtain ⟨_, _, h⟩ := Except.bind_eq_ok.mp h
    obtain rfl := Except.ok.inj h
    exact ⟨checkPending_eq_ok hpending, ⟨p, hp, hheight⟩, rfl⟩

/-- What a block has that was sealed here. -/
structure SealedFrom (l : Ledger) (k : Candidate) (b : Block) : Prop where
  isSealed : l.rules.difficulty.isSealed b = true
  transactions : b.transactions = k.transactions
  parent : b.parent = k.parent
  height : b.height = k.height

theorem sealCandidate_eq_ok (h : l.sealCandidate timestamp k calledOff = .ok b) :
    l.SealedFrom k b := by
  obtain ⟨htxs, hparent, hheight, hsealed⟩ :=
    (l.rules.difficulty.sealBlock_ends timestamp k.transactions k.parent k.height calledOff).1 b h
  exact ⟨hsealed, htxs, hparent, hheight⟩

theorem commitMined_eq_ok {sealed : Block} (h : l.commitMined sealed = (.ok b, l')) :
    b = sealed ∧ l.commitBlock b = (.ok true, l') := by
  unfold commitMined at h
  split at h
  · cases h
  · cases h
  · rename_i hcommit
    cases h
    exact ⟨rfl, hcommit⟩

/-- A block is mined in three steps: a candidate is put together, sealed, and committed. -/
theorem mineBlock_eq_ok (h : l.mineBlock timestamp txs miner calledOff = (.ok b, l')) :
    ∃ k, l.Proposes txs miner k ∧ l.SealedFrom k b ∧ l.commitBlock b = (.ok true, l') := by
  unfold mineBlock at h
  split at h
  · cases h
  · rename_i k hcandidate
    unfold mineCandidate at h
    split at h
    · cases h
    · rename_i sealed hsealed
      obtain ⟨rfl, hcommit⟩ := commitMined_eq_ok h
      exact ⟨k, candidate_eq_ok hcandidate, sealCandidate_eq_ok hsealed, hcommit⟩

/-! ## What a peer checks -/

/-- The rules ask nothing of a mined block that it may lack, except for the ids of its
transactions and a parent that is not taken for none. -/
theorem admits_mined_iff (hk : l.Proposes txs miner k) (hb : l.SealedFrom k b) :
    l.rules.Admits b ↔ b.parent ≠ Digest.zero ∧ ∀ tx ∈ txs, tx.contentHash = tx.id := by
  have htxs := hb.transactions.trans hk.transactions
  have hheight : b.height ≠ 0 := by
    obtain ⟨p, _, hnext⟩ := hk.parent
    have hsucc := toNat_nextHeight hnext
    rw [hb.height]
    rintro hzero
    rw [hzero] at hsucc
    cases hsucc
  constructor
  · intro h
    refine ⟨fun hzero => hheight (h.height ?_), fun tx htx => h.ids tx ?_⟩
    · rw [Block.isGenesis, hzero]
      rfl
    · rw [htxs]
      exact List.mem_cons_of_mem _ htx
  · rintro ⟨hparent, hids⟩
    refine ⟨hb.isSealed, ⟨_, txs, htxs, Transaction.isCoinbase_coinbase _ _ _,
      fun tx htx => (hk.pending tx htx).1, l.rules.checkReward_coinbase _ _⟩, ?_, ?_⟩
    · intro tx htx
      rw [htxs] at htx
      rcases List.mem_cons.mp htx with rfl | htx
      · rfl
      · exact hids tx htx
    · intro hg
      exact absurd (by simpa [Block.isGenesis, Digest.isZero] using hg) hparent

theorem checkSignatures_eq_ok
    (h : ∀ tx ∈ txs, tx.isCoinbase = false → l.verifyTransaction tx = .ok true) :
    l.checkSignatures txs = .ok () := by
  induction txs with
  | nil => rfl
  | cons tx rest ih =>
      have hrest := ih fun t ht => h t (List.mem_cons_of_mem _ ht)
      rw [checkSignatures]
      cases hcoinbase : tx.isCoinbase with
      | true => simpa using hrest
      | false =>
          rw [h tx List.mem_cons_self hcoinbase]
          exact hrest

theorem checkParent_mined (hk : l.Proposes txs miner k) (hb : l.SealedFrom k b) :
    l.checkParent b = .ok () := by
  obtain ⟨p, hp, hnext⟩ := hk.parent
  have hheight : b.checkHeight p = .ok () := by
    rw [Block.checkHeight, hnext]
    exact if_pos hb.height
  unfold checkParent
  split
  · rfl
  · rw [hb.parent, hp]
    simp only [hheight]
    rfl

/-- Against the chain a mined block passes whenever the rules admit it. -/
theorem checkBlock_mined (hk : l.Proposes txs miner k) (hb : l.SealedFrom k b)
    (hadmits : l.rules.checkBlock b = .ok ()) : l.checkBlock b = .ok () := by
  have hsigned : l.checkSignatures b.transactions = .ok () := by
    apply checkSignatures_eq_ok
    intro tx htx hcoinbase
    rw [hb.transactions, hk.transactions] at htx
    rcases List.mem_cons.mp htx with rfl | htx
    · cases hcoinbase
    · exact (hk.pending tx htx).2
  rw [checkBlock, hadmits, checkParent_mined hk hb, hsigned]
  rfl

theorem acceptBlock_of_checked (hcheck : l.checkBlock b = .ok ())
    (hcommit : l.commitBlock b = (.ok true, l')) : l.acceptBlock b = (.ok true, l') := by
  rw [acceptBlock, hcheck]
  exact hcommit

theorem checkBlock_of_accepted (h : l.acceptBlock b = (.ok true, l')) :
    l.rules.checkBlock b = .ok () := by
  unfold acceptBlock at h
  split at h
  · cases h
  · rename_i hcheck
    unfold checkBlock at hcheck
    cases hrules : l.rules.checkBlock b with
    | error e =>
        rw [hrules] at hcheck
        cases hcheck
    | ok u => rfl

/-- Only a ledger that has not halted commits. -/
theorem onStore_of_committed (h : l.commitBlock b = (.ok true, l')) :
    onStore l.rules l.store = l := by
  cases hhalted : l.halted with
  | false => rw [onStore, ← hhalted]
  | true =>
      have herror : l.ensureWritable = .error (.corruptStore .halted) := by
        rw [ensureWritable, isHalted, hhalted]
        rfl
      rw [commitBlock, herror] at h
      cases h

/-- The validator of a peer admits a mined block, and a peer on the store from before
accepts it and is led to the same store, exactly when every transaction that was mined
is under the hash of its content. The tip that the block was mined on must not be under
the zero hash, which marks a block without a parent. -/
theorem mined_accepted_iff (l l' : Ledger) (timestamp : Int64) (txs : List Transaction)
    (miner : Bytes) (calledOff : Schedule) (b : Block)
    (h : l.mineBlock timestamp txs miner calledOff = (.ok b, l')) :
    (l.rules.checkBlock b = .ok () ↔
      b.parent ≠ Digest.zero ∧ ∀ tx ∈ txs, tx.contentHash = tx.id) ∧
    ((onStore l.rules l.store).acceptBlock b = (.ok true, l') ↔
      b.parent ≠ Digest.zero ∧ ∀ tx ∈ txs, tx.contentHash = tx.id) := by
  obtain ⟨k, hk, hb, hcommit⟩ := mineBlock_eq_ok h
  have hadmits := admits_mined_iff hk hb
  rw [← Rules.checkBlock_eq_ok_iff] at hadmits
  refine ⟨hadmits, ?_⟩
  rw [onStore_of_committed hcommit, ← hadmits]
  constructor
  · exact checkBlock_of_accepted
  · intro hrules
    exact acceptBlock_of_checked (checkBlock_mined hk hb hrules) hcommit

end Ledger

/-! ## A payment that is mined -/

namespace Fork

/-- A ledger that has accepted the root. -/
def rooted : Ledger := ((Session.start rules).run [.accept root]).ledger

/-- The block that Bob mines of the payment on top of the root. -/
def minedPayment : Block where
  timestamp := 0
  hash := Digest.ofNat 0x5042dc641ca4bb42087473cfa69a4db9d5a49e41c7e4140aecd56f56d20589f6
  transactions := [Transaction.coinbase bob (Ledger.rewardNote bob 1) 100, payment]
  parent := root.hash
  nonce := 0
  height := 1

/-- The payment under an id that is not the hash of its content. -/
def mislabeledPayment : Transaction := { payment with id := Digest.zero }

/-- The block that Bob mines of the payment under the wrong id. -/
def minedMislabeled : Block where
  timestamp := 0
  hash := Digest.ofNat 0x4502517faaec7d8526d2a22d9d95e57c4aa704e70edec35d1ee3cc962da3fc6b
  transactions := [Transaction.coinbase bob (Ledger.rewardNote bob 1) 100, mislabeledPayment]
  parent := root.hash
  nonce := 2
  height := 1

theorem rooted_mineBlock : (rooted.mineBlock 0 [payment] bob .never).1 = .ok minedPayment := by
  decide +kernel

/-- A peer of the ledger accepts the payment that was mined. -/
theorem minedPayment_accepted :
    (rooted.mineBlock 0 [payment] bob .never).1 = .ok minedPayment ∧
      rooted.rules.checkBlock minedPayment = .ok () ∧
      (Ledger.onStore rooted.rules rooted.store).acceptBlock minedPayment =
        (.ok true, (rooted.mineBlock 0 [payment] bob .never).2) := by
  have hids : minedPayment.parent ≠ Digest.zero ∧ ∀ tx ∈ [payment], tx.contentHash = tx.id := by
    decide +kernel
  have hpair : ∀ result : Result Block × Ledger, result.1 = .ok minedPayment →
      result = (.ok minedPayment, result.2) := fun _ h => Prod.ext h rfl
  have hiff := Ledger.mined_accepted_iff rooted _ 0 [payment] bob .never minedPayment
    (hpair _ rooted_mineBlock)
  exact ⟨rooted_mineBlock, hiff.1.mpr hids, hiff.2.mpr hids⟩

/-- Under a wrong id the payment is mined all the same, and peers refuse the block. -/
theorem minedMislabeled_refused :
    (rooted.mineBlock 0 [mislabeledPayment] bob .never).1 = .ok minedMislabeled ∧
      rooted.rules.checkBlock minedMislabeled = .error .invalidTransactionId ∧
      ((Ledger.onStore rooted.rules rooted.store).acceptBlock minedMislabeled).1 =
        .error (.invalidBlock .invalidTransactionId) := by
  decide +kernel

end Fork

end CoinLedger
