import CoinLedger.Proofs.ChainStructure
import CoinLedger.Proofs.RewardNotes

/-!
# Coinbases do not repeat

The index lists outputs by the id of their transaction, so that a coinbase that came twice on a
chain would take the place of the first one there. A ledger makes its coinbases with notes that
tell the height, and who is paid stands in the output as well; so no two of them are written in
the same bytes, whatever their rewards: `Transaction.RewardsAt.unique`.

Along a chain the heights differ. A chain on which no block came from elsewhere has therefore
as many ids of coinbases as it has blocks, or two of them are a collision of SHA-256. The main
statement is `Session.coinbases_never_repeat`.
-/

namespace CoinLedger

/-! ## How a coinbase is written -/

theorem VarInt.encode_append_inj {n n' : UInt64} {behind behind' : Bytes}
    (h : encode n ++ behind = encode n' ++ behind') : n = n' ∧ behind = behind' := by
  have hread := reads_encode n behind
  rw [h, reads_encode n' behind'] at hread
  obtain ⟨hn, hbehind⟩ := Prod.mk.inj (Except.ok.inj hread)
  exact ⟨hn.symm, hbehind.symm⟩

namespace Transaction

variable {lock lock' note note' miner miner' : Bytes} {reward reward' height height' : UInt64}
  {tx tx' : Transaction}

/-- What stands before the length of the note in every coinbase. -/
def coinbaseFront : Bytes :=
  Digest.zero.bytes ++ (VarInt.encode 1 ++ (Digest.zero.bytes ++
    (Bytes.littleEndian 4 Input.coinbaseIndex.toUInt32.toNat ++ VarInt.encode 0)))

theorem idPreimage_coinbase (lock note : Bytes) (reward : UInt64) :
    (coinbase lock note reward).idPreimage = coinbaseFront ++ (VarInt.ofLength note ++
      (note ++ Record.encodeList [Output.mk reward lock])) := by
  simp only [coinbaseFront, List.append_assoc]
  simp [idPreimage, coinbase, ofParts, withContentId, Record.encode, Record.encodeList,
    Record.encodeBytes, Input.coinbase, Input.unsigned, VarInt.ofLength]

/-- In equal encodings the notes have one length in 64 bits, and go on with their outputs
alike. -/
theorem notes_of_idPreimage
    (h : (coinbase lock note reward).idPreimage = (coinbase lock' note' reward').idPreimage) :
    UInt64.ofNat note.length = UInt64.ofNat note'.length ∧
      note ++ Record.encodeList [Output.mk reward lock] =
        note' ++ Record.encodeList [Output.mk reward' lock'] := by
  rw [idPreimage_coinbase, idPreimage_coinbase, List.append_cancel_left_eq] at h
  exact VarInt.encode_append_inj h

theorem lock_of_outputs
    (h : Record.encodeList [Output.mk reward lock] = Record.encodeList [Output.mk reward' lock']) :
    lock = lock' := by
  have hvalue : Bytes.littleEndian 8 reward.toNat ++ (VarInt.ofLength lock ++ lock) =
      Bytes.littleEndian 8 reward'.toNat ++ (VarInt.ofLength lock' ++ lock') := by
    simpa [Record.encodeList, Record.encode, Record.encodeBytes, VarInt.ofLength] using h
  obtain ⟨_, hlock⟩ := List.append_inj hvalue (by simp)
  exact (VarInt.encode_append_inj hlock).2

/-! ## Coinbases that a ledger makes -/

/-- A coinbase of a ledger's own making, with its height and who is paid. -/
inductive RewardsAt : Transaction → UInt64 → Bytes → Prop
  | first (lock : Bytes) (reward : UInt64) :
      RewardsAt (coinbase lock Ledger.genesisNote reward) 0 lock
  | later (miner : Bytes) (height reward : UInt64) :
      RewardsAt (coinbase miner (Ledger.rewardNote miner height) reward) height miner

theorem RewardsAt.isCoinbase (h : tx.RewardsAt height miner) : tx.isCoinbase = true := by
  cases h <;> rfl

theorem RewardsAt.contentHash_eq (h : tx.RewardsAt height miner) : tx.contentHash = tx.id := by
  cases h <;> rfl

/-- The height and who is paid can be told from what the id is the hash of. -/
theorem RewardsAt.unique (h : tx.RewardsAt height miner) (h' : tx'.RewardsAt height' miner')
    (heq : tx.idPreimage = tx'.idPreimage) : height = height' ∧ miner = miner' := by
  cases h with
  | first lock reward =>
      cases h' with
      | first lock' reward' =>
          have houtputs := List.append_cancel_left (notes_of_idPreimage heq).2
          exact ⟨rfl, lock_of_outputs houtputs⟩
      | later miner' height' reward' =>
          exact absurd (notes_of_idPreimage heq).2
            (Ledger.genesisNote_append_ne_rewardNote_append _ _ _ _)
  | later miner height reward =>
      cases h' with
      | first lock' reward' =>
          exact absurd (notes_of_idPreimage heq).2.symm
            (Ledger.genesisNote_append_ne_rewardNote_append _ _ _ _)
      | later miner' height' reward' =>
          obtain ⟨hlength, hnotes⟩ := notes_of_idPreimage heq
          -- one of the notes is the other or goes on behind it
          rcases List.append_eq_append_iff.mp hnotes with ⟨behind, hnote, _⟩ | ⟨behind, hnote, _⟩
          · obtain ⟨hminer, hheight⟩ := Ledger.eq_of_rewardNote_append_of_length hnote hlength.symm
            exact ⟨hheight.symm, hminer.symm⟩
          · exact (Ledger.eq_of_rewardNote_append_of_length hnote hlength).symm

end Transaction

namespace Ledger

variable {l : Ledger} {tx : Transaction} {height : UInt64} {miner lock : Bytes}
  {timestamp : Int64} {k : Candidate} {b : Block} {txs : List Transaction}

/-- The coinbases in the first blocks and the candidates that a ledger makes, each with its
height and who is paid. -/
inductive Issues (l : Ledger) : Transaction → UInt64 → Bytes → Prop
  | genesis {timestamp : Int64} {lock : Bytes} {b : Block} {tx : Transaction} :
      (l.createGenesis timestamp lock).1 = .ok b → b.transactions.head? = some tx →
      l.Issues tx b.height lock
  | candidate {txs : List Transaction} {miner : Bytes} {k : Candidate} {tx : Transaction} :
      l.candidate txs miner = .ok k → k.transactions.head? = some tx → l.Issues tx k.height miner

theorem sealGenesis_eq_ok (h : l.sealGenesis timestamp lock = .ok b) : l.rules.Begins lock b := by
  unfold sealGenesis at h
  obtain ⟨_, _, h⟩ := Except.bind_eq_ok.mp h
  obtain ⟨tip, _, h⟩ := Except.bind_eq_ok.mp h
  dsimp only at h
  split at h
  · cases h
  · exact (l.rules.sealGenesis_ends timestamp lock).1 b h

/-- The answer to a write is its outcome, whether it halts the ledger or not. -/
theorem afterWrite_fst {α : Type} (l : Ledger) (outcome : Result α) (s : Store) :
    (l.afterWrite outcome s).1 = outcome := by
  cases outcome with
  | ok value => rfl
  | error e =>
      rw [afterWrite]
      split <;> rfl

theorem placeGenesis_eq_ok {s : Store} {placed : Block} (h : (placeGenesis s b).1 = .ok placed) :
    b = placed := by
  unfold placeGenesis at h
  split at h
  · cases h
  · split at h
    · cases h
    · exact Except.ok.inj h

theorem createGenesis_eq_ok (h : (l.createGenesis timestamp lock).1 = .ok b) :
    l.rules.Begins lock b := by
  unfold createGenesis at h
  split at h
  · cases h
  · rename_i sealed hsealed
    have hplaced : (placeGenesis l.store sealed).1 = .ok b := (l.afterWrite_fst _ _).symm.trans h
    exact placeGenesis_eq_ok hplaced ▸ sealGenesis_eq_ok hsealed

theorem Issues.rewardsAt (h : l.Issues tx height miner) : tx.RewardsAt height miner := by
  cases h with
  | genesis hb htx =>
      have hbegins := createGenesis_eq_ok hb
      rw [hbegins.transactions] at htx
      rw [hbegins.height, ← Option.some.inj htx]
      exact .first _ _
  | candidate hk htx =>
      rw [(candidate_eq_ok hk).transactions] at htx
      rw [← Option.some.inj htx]
      exact .later _ _ _

end Ledger

/-! ## The coinbases of a chain -/

/-- Some transactions begin with a coinbase of a ledger's own making for a height, and there is
no other coinbase among them. -/
def RewardedAt (txs : List Transaction) (height : UInt64) : Prop :=
  ∃ first miner payments, txs = first :: payments ∧ first.RewardsAt height miner ∧
    ∀ tx ∈ payments, tx.isCoinbase = false

theorem Rules.Begins.rewardedAt {r : Rules} {lock : Bytes} {b : Block} (h : r.Begins lock b) :
    RewardedAt b.transactions b.height := by
  refine ⟨_, lock, [], h.transactions, ?_, fun tx htx => nomatch htx⟩
  rw [h.height]
  exact .first lock r.reward

theorem Ledger.Proposes.rewardedAt {l : Ledger} {txs : List Transaction} {miner : Bytes}
    {k : Candidate} (h : l.Proposes txs miner k) : RewardedAt k.transactions k.height :=
  ⟨_, miner, txs, h.transactions, .later miner k.height l.rules.reward,
    fun tx htx => (h.pending tx htx).1⟩

theorem Ledger.SealedFrom.rewardedAt {l : Ledger} {k : Candidate} {b : Block}
    (hb : l.SealedFrom k b) (h : RewardedAt k.transactions k.height) :
    RewardedAt b.transactions b.height := by
  rwa [hb.transactions, hb.height]

namespace Block

variable {bs : List Block} {b : Block} {tx : Transaction}

/-- The coinbases of a chain, the latest first. -/
def coinbases (bs : List Block) : List Transaction :=
  (chainTransactions bs).filter Transaction.isCoinbase

/-- Every block of a chain has a coinbase, and these have different ids, or two of them are a
collision. -/
structure CoinbasesDiffer (bs : List Block) : Prop where
  one_each : (coinbases bs).length = bs.length
  apart : ((coinbases bs).map Transaction.id).Nodup ∨
    ∃ tx ∈ coinbases bs, ∃ tx' ∈ coinbases bs, IsCollision tx.idPreimage tx'.idPreimage

/-- A rewarded block puts its one coinbase in front of those below. -/
theorem coinbases_cons (h : RewardedAt b.transactions b.height) (bs : List Block) :
    ∃ first miner, first.RewardsAt b.height miner ∧
      coinbases (b :: bs) = first :: coinbases bs := by
  obtain ⟨first, miner, payments, htxs, hfirst, hpayments⟩ := h
  refine ⟨first, miner, hfirst, ?_⟩
  have hnone : payments.filter Transaction.isCoinbase = [] := by
    rw [List.filter_eq_nil_iff]
    exact fun tx htx => Bool.eq_false_iff.mp (hpayments tx htx)
  rw [coinbases, chainTransactions, List.flatMap_cons, htxs, List.filter_append,
    List.filter_cons_of_pos hfirst.isCoinbase, hnone]
  rfl

theorem rewardsAt_of_mem_coinbases (h : ∀ b ∈ bs, RewardedAt b.transactions b.height)
    (htx : tx ∈ coinbases bs) : ∃ b ∈ bs, ∃ miner, tx.RewardsAt b.height miner := by
  induction bs with
  | nil => cases htx
  | cons b bs ih =>
      rw [List.forall_mem_cons] at h
      obtain ⟨first, miner, hfirst, heq⟩ := coinbases_cons h.1 bs
      rw [heq] at htx
      rcases List.mem_cons.mp htx with rfl | htx
      · exact ⟨b, List.mem_cons_self, miner, hfirst⟩
      · obtain ⟨t, ht, hrewards⟩ := ih h.2 htx
        exact ⟨t, List.mem_cons_of_mem _ ht, hrewards⟩

theorem length_coinbases (h : ∀ b ∈ bs, RewardedAt b.transactions b.height) :
    (coinbases bs).length = bs.length := by
  induction bs with
  | nil => rfl
  | cons b bs ih =>
      rw [List.forall_mem_cons] at h
      obtain ⟨_, _, _, heq⟩ := coinbases_cons h.1 bs
      rw [heq, List.length_cons, ih h.2, List.length_cons]

/-- Coinbases for different heights are written differently. -/
theorem pairwise_coinbases (h : ∀ b ∈ bs, RewardedAt b.transactions b.height)
    (hheights : bs.Pairwise fun b t => b.height ≠ t.height) :
    (coinbases bs).Pairwise fun tx tx' => tx.idPreimage ≠ tx'.idPreimage := by
  induction bs with
  | nil => exact List.Pairwise.nil
  | cons b bs ih =>
      rw [List.forall_mem_cons] at h
      rw [List.pairwise_cons] at hheights
      obtain ⟨first, miner, hfirst, heq⟩ := coinbases_cons h.1 bs
      rw [heq, List.pairwise_cons]
      refine ⟨fun tx htx hsame => ?_, ih h.2 hheights.2⟩
      obtain ⟨t, ht, miner', hrewards⟩ := rewardsAt_of_mem_coinbases h.2 htx
      exact hheights.1 t ht (hfirst.unique hrewards hsame).1

theorem coinbasesDiffer (h : ∀ b ∈ bs, RewardedAt b.transactions b.height)
    (hheights : bs.Pairwise fun b t => b.height ≠ t.height) : CoinbasesDiffer bs := by
  refine ⟨length_coinbases h, ?_⟩
  by_cases hcollision :
    ∃ tx ∈ coinbases bs, ∃ tx' ∈ coinbases bs, IsCollision tx.idPreimage tx'.idPreimage
  · exact Or.inr hcollision
  left
  have hids : ∀ tx ∈ coinbases bs, tx.contentHash = tx.id := by
    intro tx htx
    obtain ⟨_, _, _, hrewards⟩ := rewardsAt_of_mem_coinbases h htx
    exact hrewards.contentHash_eq
  rw [List.Nodup, List.pairwise_map]
  refine (pairwise_coinbases h hheights).imp_of_mem fun {tx tx'} htx htx' hne hid => ?_
  have hhash := (hids tx htx).trans (hid.trans (hids tx' htx').symm)
  exact hcollision ⟨tx, htx, tx', htx', hne, hhash⟩

end Block

theorem Contents.Linked.pairwise_heights {c : Contents} {hash : Digest} {bs : List Block}
    (hl : c.Linked) (h : Ancestry c.blocks hash bs) :
    bs.Pairwise fun b t => b.height ≠ t.height := by
  induction h with
  | genesis => exact List.pairwise_singleton _ _
  | child hb hg hrest ih =>
      rw [List.pairwise_cons]
      refine ⟨fun t ht heq => ?_, ih⟩
      have hlt := hl.height_lt (.child hb hg hrest) t ht
      rw [heq] at hlt
      exact Nat.lt_irrefl _ hlt

/-! ## Along a run -/

/-- Everything but a block from elsewhere. -/
def Request.IsOwn : Request → Prop
  | accept _ => False
  | _ => True

namespace Session

variable {σ : Session} {c : Contents} {room : Nat}

/-- What a run without blocks from elsewhere keeps: every block and every candidate has its one
coinbase from a ledger. -/
structure SelfMade (σ : Session) (c : Contents) (room : Nat) : Prop where
  sound : σ.Sound c room
  blocks : ∀ hash b, c.blocks hash = some b → RewardedAt b.transactions b.height
  candidates : ∀ k ∈ σ.candidates, RewardedAt k.transactions k.height

theorem selfMade_start (rules : Rules) : SelfMade (start rules) Contents.empty 0 where
  sound := sound_start rules
  blocks _ _ h := by cases h
  candidates k hk := by cases hk

theorem SelfMade.perform (h : σ.SelfMade c room) {r : Request} (hown : r.IsOwn) (hr : r.Fits)
    (hroom : room + r.outputCount < 2 ^ 64) :
    ∃ c', (σ.perform r).2.SelfMade c' (room + r.outputCount) := by
  obtain ⟨c', hperforms⟩ := h.sound.perform hr hroom
  refine ⟨c', hperforms.sound, fun hash t ht => ?_, fun k hk => ?_⟩
  · rcases h.sound.brings hr hroom hperforms.sound with hblocks | ⟨b, _, hblocks, hbrings⟩
    · exact h.blocks hash t (hblocks ▸ ht)
    rw [hblocks] at ht
    rcases Contents.blocks_withBlock_cases ht with ⟨_, rfl⟩ | ht
    · cases hbrings with
      | begun hbegins => exact hbegins.rewardedAt
      | accepted _ _ => exact hown.elim
      | finished hk hb => exact hb.rewardedAt (h.candidates _ hk)
      | mined hk _ hb => exact hb.rewardedAt hk.rewardedAt
    · exact h.blocks hash t ht
  · rcases mem_candidates_perform hk with hold | ⟨txs, miner, hproposes⟩
    · exact h.candidates k hold
    · exact hproposes.rewardedAt

theorem exists_selfMade (rules : Rules) {requests : List Request}
    (hown : ∀ r ∈ requests, r.IsOwn) (hfits : RunFits requests) :
    ∃ c, ((start rules).run requests).SelfMade c (Request.totalOutputCount requests) := by
  induction requests using List.reverseRecOn with
  | nil => exact ⟨Contents.empty, selfMade_start rules⟩
  | append_singleton requests r ih =>
      obtain ⟨c, h⟩ := ih (fun r' hr' => hown r' (List.mem_append_left _ hr')) hfits.init
      have hcount := hfits.count
      rw [Request.totalOutputCount_snoc] at hcount ⊢
      rw [Session.run_snoc]
      exact h.perform (hown r (List.mem_append_right _ List.mem_cons_self)) hfits.last hcount

theorem SelfMade.coinbasesDiffer (h : σ.SelfMade c room) {hash : Digest} {bs : List Block}
    (ha : Ancestry c.blocks hash bs) : Block.CoinbasesDiffer bs := by
  refine Block.coinbasesDiffer (fun b hb => ?_) (h.sound.contents.linked.pairwise_heights ha)
  obtain ⟨name, hname⟩ := ha.stored b hb
  exact h.blocks name b hname

/-- Coinbases that ledgers make for different heights or miners differ in what their ids are the
hashes of, under any rules and on any stores. So the coinbases of every chain that a ledger makes
itself have different ids, one for each block, unless two of them are a collision of SHA-256. As
many searches may be open at a time as one likes, and what is said of the active chain holds of
the branches that have been left beside it as well. -/
theorem coinbases_never_repeat :
    (∀ (l l' : Ledger) (tx tx' : Transaction) (height height' : UInt64) (miner miner' : Bytes),
      l.Issues tx height miner → l'.Issues tx' height' miner' →
      height ≠ height' ∨ miner ≠ miner' → tx.idPreimage ≠ tx'.idPreimage) ∧
    ∀ (rules : Rules) (requests : List Request), (∀ r ∈ requests, r.IsOwn) → RunFits requests →
      (∃ bs, Chain.blocks (storeAfter rules requests) = .ok bs ∧ Block.CoinbasesDiffer bs) ∧
      ∀ hash, Chain.hasBlock (storeAfter rules requests) hash = true →
        ∃ bs, Chain.walkFrom (storeAfter rules requests)
            ((storeAfter rules requests).size + 1) hash = bs.map .ok ∧
          Block.CoinbasesDiffer bs := by
  constructor
  · intro l l' tx tx' height height' miner miner' hissues hissues' hdiffer hsame
    obtain ⟨hheight, hminer⟩ := hissues.rewardsAt.unique hissues'.rewardsAt hsame
    exact hdiffer.elim (· hheight) (· hminer)
  intro rules requests hown hfits
  obtain ⟨c, h⟩ := exists_selfMade rules hown hfits
  have hholds : (storeAfter rules requests).Holds c := h.sound.holds
  have hlinked := h.sound.contents.linked
  constructor
  · obtain ⟨bs, ha⟩ := h.sound.contents.exists_active
    refine ⟨bs, Chain.blocks_eq hholds hlinked ha, ?_⟩
    cases hc : c.tip with
    | none =>
        rw [ha.of_none hc]
        exact ⟨rfl, Or.inl List.nodup_nil⟩
    | some tip => exact h.coinbasesDiffer (ha.of_some hc)
  · intro hash hhas
    rw [Chain.hasBlock_eq hholds, Option.isSome_iff_exists] at hhas
    obtain ⟨b, hb⟩ := hhas
    obtain ⟨bs, ha⟩ := hlinked.exists_ancestry hb
    have hle := Chain.length_le_size hholds hlinked ha
    exact ⟨bs, Chain.walkFrom_eq hholds ha (Nat.le_succ_of_le hle), h.coinbasesDiffer ha⟩

end Session

/-! ## Two rewards of one miner -/

namespace Fork

open Session (storeAfter)

/-- Alice begins a chain, and Bob mines two blocks on it. -/
def minedRequests : List Request := [.genesis 0 alice, .mine 0 [] bob .never, .mine 0 [] bob .never]

/-- The ledger before Bob mines his first block. -/
def begun : Ledger := ((Session.start rules).run (minedRequests.take 1)).ledger

/-- The ledger before he mines his second. -/
def oneMined : Ledger := ((Session.start rules).run (minedRequests.take 2)).ledger

/-- Bob's reward for a block of some height. -/
def bobsReward (height : UInt64) : Transaction :=
  Transaction.coinbase bob (Ledger.rewardNote bob height) 100

theorem candidates_bob :
    begun.candidate [] bob = .ok ⟨[bobsReward 1],
      Digest.ofNat 0x7e17476f39ef666942427e93bd717103ec707ae454fba1b49f9bc9a682435ecf, 1⟩ ∧
    oneMined.candidate [] bob = .ok ⟨[bobsReward 2],
      Digest.ofNat 0x203d0c833a53e5df3c3240ca40c02a13d670a0aee62ffd59a68bc7e04b0507f0, 2⟩ := by
  decide +kernel

theorem length_minedRequests :
    (Chain.blocks (storeAfter rules minedRequests)).map List.length = .ok 3 := by
  decide +kernel

/-- Bob's two coinbases are written differently, and the chain has three with different ids. -/
theorem coinbases_never_repeat_bob :
    (begun.Issues (bobsReward 1) 1 bob ∧ oneMined.Issues (bobsReward 2) 2 bob ∧
      (bobsReward 1).idPreimage ≠ (bobsReward 2).idPreimage) ∧
    (∀ r ∈ minedRequests, r.IsOwn) ∧ RunFits minedRequests ∧
      ∃ bs, Chain.blocks (storeAfter rules minedRequests) = .ok bs ∧
        (Block.coinbases bs).length = 3 ∧ Block.CoinbasesDiffer bs := by
  have hfirst : begun.Issues (bobsReward 1) 1 bob := .candidate candidates_bob.1 rfl
  have hsecond : oneMined.Issues (bobsReward 2) 2 bob := .candidate candidates_bob.2 rfl
  have hown : ∀ r ∈ minedRequests, r.IsOwn := by simp [minedRequests, Request.IsOwn]
  have hfits : RunFits minedRequests := by decide
  obtain ⟨hdiffer, hchains⟩ := Session.coinbases_never_repeat
  obtain ⟨⟨bs, hbs, hcoinbases⟩, _⟩ := hchains rules minedRequests hown hfits
  refine ⟨⟨hfirst, hsecond, ?_⟩, hown, hfits, bs, hbs, ?_, hcoinbases⟩
  · exact hdiffer _ _ _ _ _ _ _ _ hfirst hsecond (Or.inl (by decide))
  · have hlength := length_minedRequests
    rw [hbs] at hlength
    exact hcoinbases.one_each.trans (Except.ok.inj hlength)

end Fork

end CoinLedger
