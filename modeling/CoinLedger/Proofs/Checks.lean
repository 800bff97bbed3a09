import CoinLedger.Proofs.Commit

/-!
# Checks against a sound store

`Ends` is a postcondition for computations that may fail: what is returned has the
property, and an error is none that halts a ledger. One lemma a function says how
its checks end on a store that holds sound contents; none of them meets corruption,
since the chain is read without an error and so are the entries of the index.

The last section has what is known of blocks that are made here: a candidate is on
top of the tip, and sealing keeps its parts.
-/

namespace CoinLedger

/-! ## Computations that do not meet corruption -/

/-- The computation returns a value with the property, or an error that does not
halt a ledger. -/
def Ends {α : Type} (r : Result α) (P : α → Prop) : Prop :=
  (∀ a, r = .ok a → P a) ∧ ∀ e, r = .error e → e.isFatal = false

section

variable {α β : Type} {P : α → Prop} {Q : β → Prop}

theorem ends_ok {a : α} (h : P a) : Ends (.ok a) P :=
  ⟨fun _ heq => Except.ok.inj heq ▸ h, fun _ heq => nomatch heq⟩

theorem ends_error {e : LedgerError} (h : e.isFatal = false) : Ends (.error e) P :=
  ⟨fun _ heq => (nomatch heq), fun _ heq => Except.error.inj heq ▸ h⟩

theorem Ends.bind {r : Result α} {f : α → Result β} (hr : Ends r P) (hf : ∀ a, P a → Ends (f a) Q) :
    Ends (r >>= f) Q := by
  cases r with
  | ok a => exact hf a (hr.1 a rfl)
  | error e => exact ends_error (hr.2 e rfl)

theorem Ends.mono {r : Result α} {P' : α → Prop} (hr : Ends r P) (h : ∀ a, P a → P' a) :
    Ends r P' :=
  ⟨fun a heq => h a (hr.1 a heq), hr.2⟩

/-- A computation that ends returns a value or a harmless error. -/
theorem Ends.cases {r : Result α} (hr : Ends r P) :
    (∃ e, r = .error e ∧ e.isFatal = false) ∨ ∃ a, r = .ok a ∧ P a := by
  cases r with
  | ok a => exact Or.inr ⟨a, rfl, hr.1 a rfl⟩
  | error e => exact Or.inl ⟨e, rfl, hr.2 e rfl⟩

end

section

variable {ε α : Type} {p : Prop} [Decidable p] {e : ε}

/-- A computation that throws under a condition and otherwise goes on. -/
theorem throwOr_eq_ok {β : Type} {k : β → Except ε α} {rest : Except ε α} {a : α} :
    (if p then (throw e : Except ε β) >>= k else rest) = .ok a ↔ ¬ p ∧ rest = .ok a := by
  by_cases hp : p
  · rw [if_pos hp]
    exact ⟨fun h => (nomatch h), fun h => absurd hp h.1⟩
  · rw [if_neg hp]
    exact ⟨fun h => ⟨hp, h⟩, fun h => h.2⟩

theorem throwIf_eq_ok : (if p then throw e else pure () : Except ε Unit) = .ok () ↔ ¬ p := by
  by_cases hp : p
  · rw [if_pos hp]
    exact ⟨fun h => (nomatch h), fun h => absurd hp h⟩
  · rw [if_neg hp]
    exact ⟨fun _ => hp, fun _ => rfl⟩

theorem check_bind_eq_ok {check : Except ε Unit} {k : Unit → Except ε α} {a : α} :
    check >>= k = .ok a ↔ check = .ok () ∧ k () = .ok a := by
  cases check with
  | error e => exact ⟨fun h => (nomatch h), fun h => (nomatch h.1)⟩
  | ok u => exact ⟨fun h => ⟨rfl, h⟩, fun h => h.2⟩

end

/-- The transactions of a chain, in the order in which they are looked for. -/
def Block.chainTransactions (bs : List Block) : List Transaction := bs.flatMap Block.transactions

namespace Chain

variable {s : Store} {c : Contents} {bs : List Block}

/-! ## Looking up -/

theorem block_ends (h : s.Holds c) (hash : Digest) :
    Ends (block s hash) fun b => c.blocks hash = some b := by
  rw [block_eq h]
  cases c.blocks hash with
  | none => exact ends_error rfl
  | some b => exact ends_ok rfl

theorem tip_ends (h : s.Holds c) : Ends (tip s) fun hash => c.tip = some hash := by
  rw [tip, tip?_eq h]
  cases c.tip with
  | none => exact ends_error rfl
  | some hash => exact ends_ok rfl

/-! ## Finding transactions -/

theorem findIn_eq (id : Digest) (bs : List Block) :
    findIn id (bs.map .ok) =
      match (Block.chainTransactions bs).find? fun tx => tx.id = id with
      | some tx => .ok tx
      | none => .error (.notFound (.transaction id)) := by
  induction bs with
  | nil => rfl
  | cons b rest ih =>
      rw [List.map_cons, findIn, Block.chainTransactions, List.flatMap_cons, List.find?_append]
      cases b.transactions.find? fun tx => tx.id = id with
      | some tx => rfl
      | none => exact ih

theorem findTransaction_ends (hwalk : walk s = .ok (bs.map .ok)) (id : Digest) :
    Ends (findTransaction s id)
      fun tx => ((Block.chainTransactions bs).find? fun tx => tx.id = id) = some tx := by
  rw [findTransaction, hwalk]
  show Ends (findIn id (bs.map .ok)) _
  rw [findIn_eq]
  cases (Block.chainTransactions bs).find? fun tx => tx.id = id with
  | some tx => exact ends_ok rfl
  | none => exact ends_error rfl

/-- What references find is what the chain has under the id, nearest the tip. -/
def FoundOn (bs : List Block) (refs : References) : Prop :=
  ∀ id tx, refs.find? id = some tx →
    ((Block.chainTransactions bs).find? fun tx => tx.id = id) = some tx

theorem addReference_ends (hwalk : walk s = .ok (bs.map .ok)) {refs : References}
    (hrefs : FoundOn bs refs) (i : Input) : Ends (addReference s refs i) (FoundOn bs) := by
  unfold addReference
  split
  · exact ends_ok hrefs
  · refine (findTransaction_ends hwalk i.source).bind fun tx htx => ends_ok ?_
    intro id found hfound
    rw [References.find?, List.find?_cons] at hfound
    have hid : tx.id = i.source := by simpa using List.find?_some htx
    split at hfound
    -- the transaction that was just found is in front of the others
    · rename_i hmatch
      obtain rfl : tx = found := Option.some.inj hfound
      obtain rfl : tx.id = id := by simpa using hmatch
      rwa [hid]
    · exact hrefs id found hfound

theorem references_ends (hwalk : walk s = .ok (bs.map .ok)) (tx : Transaction) :
    Ends (references s tx) (FoundOn bs) := by
  have hall : ∀ (inputs : List Input) (refs : References), FoundOn bs refs →
      Ends (inputs.foldlM (addReference s) refs) (FoundOn bs) := by
    intro inputs
    induction inputs with
    | nil => exact fun refs hrefs => ends_ok hrefs
    | cons i rest ih =>
        intro refs hrefs
        rw [List.foldlM_cons]
        exact (addReference_ends hwalk hrefs i).bind ih
  exact hall tx.spends [] fun id tx hfound => by cases hfound

end Chain

/-! ## Rules and heights -/

/-- What the rules ask of a block. -/
structure Rules.Admits (r : Rules) (b : Block) : Prop where
  isSealed : r.difficulty.isSealed b = true
  coinbase : ∃ first others, b.transactions = first :: others ∧ first.isCoinbase = true ∧
    (∀ tx ∈ others, tx.isCoinbase = false) ∧ r.checkReward first = .ok ()
  ids : ∀ tx ∈ b.transactions, tx.contentHash = tx.id
  height : b.isGenesis = true → b.height = 0

theorem Rules.checkBlock_eq_ok_iff {r : Rules} {b : Block} :
    r.checkBlock b = .ok () ↔ r.Admits b := by
  unfold checkBlock
  split
  · rename_i hnil
    constructor
    · intro h
      cases h
    · rintro ⟨_, ⟨first, others, heq, _⟩, _⟩
      rw [hnil] at heq
      cases heq
  · rename_i first others htxs
    rw [throwOr_eq_ok, throwOr_eq_ok, throwOr_eq_ok, check_bind_eq_ok, throwOr_eq_ok, throwIf_eq_ok]
    constructor
    · rintro ⟨hsealed, hfirst, hothers, hreward, hids, hheight⟩
      exact ⟨by simpa using hsealed, ⟨first, others, htxs, by simpa using hfirst,
        by simpa using hothers, hreward⟩, by simpa using hids, by simpa using hheight⟩
    · rintro ⟨hsealed, ⟨first', others', heq, hfirst, hothers, hreward⟩, hids, hheight⟩
      obtain ⟨rfl, rfl⟩ := List.cons.inj (htxs.symm.trans heq)
      exact ⟨by simpa using hsealed, by simpa using hfirst, by simpa using hothers, hreward,
        by simpa using hids, by simpa using hheight⟩

theorem toNat_nextHeight {height next : UInt64} (h : nextHeight? height = some next) :
    next.toNat = height.toNat + 1 := by
  unfold nextHeight? at h
  split at h
  · rename_i hlt
    obtain rfl := Option.some.inj h
    rw [UInt64.toNat_add]
    exact Nat.mod_eq_of_lt hlt
  · cases h

theorem Block.checkHeight_eq_ok {b parent : Block} (h : b.checkHeight parent = .ok ()) :
    b.height.toNat = parent.height.toNat + 1 := by
  unfold checkHeight at h
  split at h
  · cases h
  · rename_i next hnext
    split at h
    · rename_i heq
      rw [heq]
      exact toNat_nextHeight hnext
    · cases h

namespace Ledger

open Contents (Attaches Sound)
open Chain (FoundOn)

variable {l : Ledger} {c : Contents} {b : Block} {bs : List Block} {room : Nat}

/-! ## Blocks from elsewhere -/

/-- A transaction verifies against the transactions that the chain has under the ids
it refers to. -/
def Signed (l : Ledger) (bs : List Block) (tx : Transaction) : Prop :=
  ∃ refs, FoundOn bs refs ∧ tx.verifies l.rules.scheme refs = true

theorem verifyTransaction_ends (h : l.store.Holds c) (hl : c.Linked) (ha : c.Active bs)
    (tx : Transaction) :
    Ends (l.verifyTransaction tx) fun flag => flag = true → l.Signed bs tx := by
  have hrefs := Chain.references_ends (Chain.walk_eq h hl ha) tx
  unfold verifyTransaction
  split
  · rename_i refs heq
    exact ends_ok fun hverifies => ⟨refs, hrefs.1 refs heq, hverifies⟩
  · exact ends_ok fun hfalse => nomatch hfalse
  · rename_i e _ heq
    exact ends_error (hrefs.2 e heq)

theorem checkSignatures_ends (h : l.store.Holds c) (hl : c.Linked) (ha : c.Active bs)
    (txs : List Transaction) :
    Ends (l.checkSignatures txs) fun _ => ∀ tx ∈ txs, tx.isCoinbase = false → l.Signed bs tx := by
  induction txs with
  | nil => exact ends_ok fun tx htx => nomatch htx
  | cons tx rest ih =>
      rw [checkSignatures]
      cases hcoinbase : tx.isCoinbase with
      | true =>
          refine ih.mono fun _ hrest t ht hnot => ?_
          rcases List.mem_cons.mp ht with rfl | ht
          · rw [hcoinbase] at hnot
            cases hnot
          · exact hrest t ht hnot
      | false =>
          refine (verifyTransaction_ends h hl ha tx).bind fun flag hflag => ?_
          cases flag with
          | false => exact ends_error rfl
          | true =>
              refine ih.mono fun _ hrest t ht hnot => ?_
              rcases List.mem_cons.mp ht with rfl | ht
              · exact hflag rfl
              · exact hrest t ht hnot

theorem checkParent_ends (h : l.store.Holds c) (b : Block) :
    Ends (l.checkParent b) fun _ => c.Attaches b := by
  unfold checkParent
  split
  · rename_i hg
    exact ends_ok fun hg' => by simp [hg] at hg'
  · rw [Chain.block_eq h]
    cases hp : c.blocks b.parent with
    | none => exact ends_error rfl
    | some parent =>
        cases hheight : b.checkHeight parent with
        | error e =>
            simp only [hheight]
            exact ends_error rfl
        | ok u =>
            simp only [hheight]
            exact ends_ok fun _ => ⟨parent, hp, Block.checkHeight_eq_ok hheight⟩

/-- A block that passes attaches to the stored blocks, obeys the rules, and is
signed against the active chain. -/
theorem checkBlock_ends (h : l.store.Holds c) (hl : c.Linked) (ha : c.Active bs) (b : Block) :
    Ends (l.checkBlock b) fun _ => c.Attaches b ∧ l.rules.Admits b ∧
      ∀ tx ∈ b.transactions, tx.isCoinbase = false → l.Signed bs tx := by
  have hrules : Ends ((l.rules.checkBlock b).mapError .invalidBlock) fun _ => l.rules.Admits b := by
    cases hcheck : l.rules.checkBlock b with
    | error e => exact ends_error rfl
    | ok u => exact ends_ok (Rules.checkBlock_eq_ok_iff.mp hcheck)
  refine hrules.bind fun _ hok => ?_
  refine (checkParent_ends h b).bind fun _ hattach => ?_
  exact (checkSignatures_ends h hl ha b.transactions).mono fun _ hsigned => ⟨hattach, hok, hsigned⟩

/-! ## Blocks made here -/

theorem checkPending_ends (h : l.store.Holds c) (hl : c.Linked) (ha : c.Active bs)
    (txs : List Transaction) :
    Ends (l.checkPending txs) fun _ => ∀ tx ∈ txs, tx.isCoinbase = false ∧ l.Signed bs tx := by
  induction txs with
  | nil => exact ends_ok fun tx htx => nomatch htx
  | cons tx rest ih =>
      rw [checkPending]
      cases hcoinbase : tx.isCoinbase with
      | true => exact ends_error rfl
      | false =>
          refine (verifyTransaction_ends h hl ha tx).bind fun flag hflag => ?_
          cases flag with
          | false => exact ends_error rfl
          | true =>
              refine ih.mono fun _ hrest t ht => ?_
              rcases List.mem_cons.mp ht with rfl | ht
              · exact ⟨hcoinbase, hflag rfl⟩
              · exact hrest t ht

theorem checkSpendable_ends {s : Store} (h : s.Holds c) (txs : List Transaction) :
    Ends (checkSpendable s txs) fun _ =>
      ∃ m, c.index.follow (txs.flatMap Transaction.events) = some m := by
  rcases checkSpendable_cases h txs with ⟨id, herror⟩ | ⟨hok, hm⟩
  · rw [herror]
    exact ends_error rfl
  · rw [hok]
    exact ends_ok hm

end Ledger

/-- A candidate is on top of a stored block. -/
def Candidate.Attaches (c : Contents) (k : Candidate) : Prop :=
  ∃ p, c.blocks k.parent = some p ∧ k.height.toNat = p.height.toNat + 1

namespace Ledger

variable {l : Ledger} {c : Contents} {b : Block} {bs : List Block} {room : Nat}

/-- A candidate goes on top of the tip, with the miner's coinbase in front. -/
theorem candidate_ends (h : l.store.Holds c) (hl : c.Linked) (ha : c.Active bs)
    (txs : List Transaction) (miner : Bytes) :
    Ends (l.candidate txs miner) fun k =>
      k.Attaches c ∧ c.tip = some k.parent ∧ k.transactions =
        Transaction.coinbase miner (rewardNote miner k.height) l.rules.reward :: txs := by
  refine (checkPending_ends h hl ha txs).bind fun _ _ => ?_
  refine (Chain.tip_ends h).bind fun parent htip => ?_
  refine (Chain.block_ends h parent).bind fun p hp => ?_
  cases hnext : nextHeight? p.height with
  | none => exact ends_error rfl
  | some height =>
      refine (checkSpendable_ends h _).bind fun _ _ => ends_ok ⟨⟨p, hp, ?_⟩, htip, rfl⟩
      exact toNat_nextHeight hnext

end Ledger

/-- What a search finds is admitted, and is the hash under the nonce that was found. -/
theorem Seal.searchFrom_eq_some {admits : Digest → Bool} {hashWith : UInt64 → Digest}
    {calledOff : Schedule} {nonce : Nat} {attempts : UInt64} {found : Seal}
    (h : searchFrom admits hashWith calledOff nonce attempts = some found) :
    hashWith found.nonce = found.hash ∧ admits found.hash = true := by
  fun_induction searchFrom admits hashWith calledOff nonce attempts with
  | case1 => cases h
  | case2 _ _ _ _ _ _ hadmits =>
      obtain rfl := Option.some.inj h
      exact ⟨rfl, hadmits⟩
  | case3 _ _ _ _ _ _ _ ih => exact ih h
  | case4 => cases h

/-- Sealing keeps the parts of the block, and the block passes the check of its seal. -/
theorem Difficulty.sealBlock_ends (d : Difficulty) (timestamp : Int64) (txs : List Transaction)
    (parent : Digest) (height : UInt64) (calledOff : Schedule) :
    Ends (d.sealBlock timestamp txs parent height calledOff) fun b =>
      b.transactions = txs ∧ b.parent = parent ∧ b.height = height ∧ d.isSealed b = true := by
  unfold sealBlock
  split
  · exact ends_error rfl
  · dsimp only
    split
    · exact ends_error rfl
    · rename_i found hfound
      obtain ⟨hhash, hadmits⟩ := Seal.searchFrom_eq_some hfound
      refine ends_ok ⟨rfl, rfl, rfl, ?_⟩
      -- the seal covers neither the hash field of the draft nor its nonce field
      rw [isSealed, Bool.and_eq_true, decide_eq_true_iff]
      exact ⟨hhash, hhash ▸ hadmits⟩

end CoinLedger
