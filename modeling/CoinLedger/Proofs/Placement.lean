import CoinLedger.Proofs.Halting

/-!
# Placing a block in any store

What a commit does when nothing is known of the store or of the block: records may be
missing, unreadable or under the wrong hash, and the block's parent need not be there.

Nearly every failure leaves the store as it was, or is fatal and halts the ledger. The
exception is a block that `Strands` the ledger: it takes the tip for a branch that does not
reach a genesis block, because some ancestor is not stored. Then the tip has moved when the
rebuild of the index finds nothing under the ancestor's hash, which is not a fatal error.

The main statement is `Ledger.commitBlock_allOrNothing_iff`: a commit is all or nothing
unless it strands a running ledger. By `Ledger.not_strands_of_attaches` that never happens
to a sound ledger with a block that is a genesis block or has its parent stored one level
below it, as every block has that passed the checks.
-/

namespace CoinLedger

theorem Except.bind_eq_error {ε α β : Type} {r : Except ε α} {f : α → Except ε β} {e : ε} :
    r >>= f = .error e ↔ r = .error e ∨ ∃ a, r = .ok a ∧ f a = .error e := by
  cases r with
  | error e' =>
      constructor
      · intro h
        exact Or.inl (congrArg Except.error (Except.error.inj h))
      · rintro (h | ⟨_, h, _⟩)
        · exact congrArg Except.error (Except.error.inj h)
        · cases h
  | ok a =>
      constructor
      · intro h
        exact Or.inr ⟨a, rfl, h⟩
      · rintro (h | ⟨a', ha, h⟩)
        · cases h
        · exact Except.ok.inj ha ▸ h

/-! ## Computations that fail fatally -/

/-- Whatever error the computation ends with, it halts a ledger. -/
def FailsFatally {α : Type} (r : Result α) : Prop := ∀ e, r = .error e → e.isFatal = true

section

variable {α β : Type}

theorem failsFatally_ok (a : α) : FailsFatally (.ok a) := fun _ heq => nomatch heq

theorem failsFatally_corrupt (cause : Corruption) :
    FailsFatally (.error (.corruptStore cause) : Result α) :=
  fun _ heq => Except.error.inj heq ▸ rfl

theorem FailsFatally.bind {r : Result α} {f : α → Result β} (hr : FailsFatally r)
    (hf : ∀ a, FailsFatally (f a)) : FailsFatally (r >>= f) := by
  intro e h
  rcases Except.bind_eq_error.mp h with h | ⟨a, _, h⟩
  · exact hr e h
  · exact hf a e h

theorem FailsFatally.foldlM {f : β → α → Result β} (hf : ∀ b a, FailsFatally (f b a))
    (as : List α) (b : β) : FailsFatally (as.foldlM f b) := by
  induction as generalizing b with
  | nil => exact failsFatally_ok b
  | cons a as ih =>
      rw [List.foldlM_cons]
      exact (hf b a).bind ih

/-- A record that is decoded from the store. -/
theorem failsFatally_undecodable (r : Except CodecError α) :
    FailsFatally (r.mapError LedgerError.undecodable) := by
  cases r with
  | ok a => exact failsFatally_ok a
  | error cause => exact failsFatally_corrupt (.undecodable cause)

end

namespace Unspent

theorem consume_failsFatally (s : Store) (i : Input) : FailsFatally (consume s i) := by
  unfold consume
  split
  · exact failsFatally_corrupt _
  · refine (failsFatally_undecodable _).bind fun e => ?_
    split
    · exact failsFatally_corrupt _
    · split
      · exact failsFatally_corrupt _
      · dsimp only [pure_bind]
        split
        · exact failsFatally_ok _
        · exact failsFatally_ok _

/-- A block that has been put on the tip is followed by the index, or the index is corrupt. -/
theorem update_failsFatally (s : Store) (b : Block) : FailsFatally (update s b) := by
  refine FailsFatally.foldlM (fun s tx => ?_) b.transactions s
  exact (FailsFatally.foldlM consume_failsFatally tx.spends s).bind fun s => failsFatally_ok _

end Unspent

/-! ## Branches without a beginning -/

namespace Chain

variable {s : Store} {hash missing : Digest} {hashes : List Digest}

/-- From a hash back along the parents there is no genesis block, but a hash under which
nothing is stored. The hashes on the way are listed, the first one first. -/
inductive RunsOut (s : Store) : Digest → List Digest → Digest → Prop
  | missing {hash : Digest} : hasBlock s hash = false → RunsOut s hash [] hash
  | parent {hash missing : Digest} {b : Block} {hashes : List Digest} :
      block s hash = .ok b → b.isGenesis = false → RunsOut s b.parent hashes missing →
      RunsOut s hash (hash :: hashes) missing

theorem block_of_not_hasBlock (h : hasBlock s hash = false) :
    block s hash = .error (.notFound (.block hash)) := by
  have hnone : s.get? (Store.blockKey hash) = none := by simpa [hasBlock] using h
  rw [block, hnone]

/-- A block that cannot be read is not stored, or the store is corrupt. -/
theorem not_hasBlock_of_error {e : LedgerError} (h : block s hash = .error e)
    (he : e.isFatal = false) : hasBlock s hash = false := by
  unfold block at h
  rw [hasBlock]
  cases hget : s.get? (Store.blockKey hash) with
  | none => rfl
  | some data =>
      rw [hget] at h
      rw [failsFatally_undecodable _ e h] at he
      cases he

namespace RunsOut

/-- A branch that runs out is a walk that ends at what is missing. -/
theorem walks (h : RunsOut s hash hashes missing) :
    ∃ steps, Walks s hash steps (some (.notFound (.block missing))) ∧
      steps.length = hashes.length := by
  induction h with
  | missing hnone => exact ⟨[], .broken (block_of_not_hasBlock hnone), rfl⟩
  | parent hb hg _ ih =>
      obtain ⟨steps, hwalks, hlength⟩ := ih
      exact ⟨_, .parent hb hg hwalks, congrArg (· + 1) hlength⟩

theorem length_le_size (h : RunsOut s hash hashes missing) : hashes.length ≤ s.size := by
  obtain ⟨steps, hwalks, hlength⟩ := h.walks
  exact hlength ▸ hwalks.length_le_size

/-- What has an ancestry does not run out. -/
theorem not_ancestry {c : Contents} {bs : List Block} (h : RunsOut s hash hashes missing)
    (hholds : s.Holds c) : ¬ Ancestry c.blocks hash bs := by
  induction h generalizing bs with
  | missing hnone =>
      intro ha
      obtain ⟨b, _, _, hb⟩ := ha.head_stored
      rw [hasBlock_eq hholds, hb] at hnone
      cases hnone
  | parent hread hg _ ih =>
      intro ha
      cases ha with
      | genesis hb hg' =>
          obtain rfl := Except.ok.inj (hread.symm.trans (block_of_some hholds hb))
          rw [hg] at hg'
          cases hg'
      | child hb _ hrest =>
          obtain rfl := Except.ok.inj (hread.symm.trans (block_of_some hholds hb))
          exact ih hrest

end RunsOut

/-- A walk that is long enough finds that a branch runs out. -/
theorem mapM_walkFrom_of_runsOut (h : RunsOut s hash hashes missing) {limit : Nat}
    (hlt : hashes.length < limit) :
    (walkFrom s limit hash).mapM id = .error (.notFound (.block missing)) := by
  obtain ⟨steps, hwalks, hlength⟩ := h.walks
  exact hwalks.mapM_walkFrom (hlength ▸ hlt)

/-- A walk that fails without meeting corruption has run out. -/
theorem runsOut_of_mapM_walkFrom {limit : Nat} {e : LedgerError}
    (h : (walkFrom s limit hash).mapM id = .error e) (he : e.isFatal = false) :
    ∃ hashes missing, RunsOut s hash hashes missing := by
  induction limit generalizing hash with
  | zero =>
      obtain rfl := Except.error.inj h
      cases he
  | succ limit ih =>
      cases hb : block s hash with
      | error e' =>
          rw [mapM_walkFrom_of_error hb] at h
          obtain rfl := Except.error.inj h
          exact ⟨[], hash, .missing (not_hasBlock_of_error hb he)⟩
      | ok b =>
          cases hg : b.isGenesis with
          | true =>
              rw [mapM_walkFrom_of_genesis hb hg] at h
              cases h
          | false =>
              rw [mapM_walkFrom_of_parent hb hg] at h
              rcases Except.bind_eq_error.mp h with hrest | ⟨_, _, h⟩
              · obtain ⟨hashes, missing, hout⟩ := ih hrest
                exact ⟨hash :: hashes, missing, .parent hb hg hout⟩
              · cases h

end Chain

namespace Unspent

open Chain (RunsOut)

variable {s : Store} {hash missing : Digest} {hashes : List Digest}

/-- The index cannot be rebuilt for a tip whose branch runs out. -/
theorem rebuild_of_runsOut (h : RunsOut s hash hashes missing) :
    rebuild (s.withTip hash) = .error (.notFound (.block missing)) := by
  have hle : s.size ≤ (s.withTip hash).size := Std.ExtTreeMap.size_le_size_insert
  have hblocks : Chain.blocks (s.withTip hash) = .error (.notFound (.block missing)) := by
    rw [Chain.blocks_withTip]
    exact Chain.mapM_walkFrom_of_runsOut h (by have := h.length_le_size; omega)
  rw [rebuild, hblocks]
  rfl

/-- Nothing else keeps the index from being rebuilt but corruption. -/
theorem runsOut_of_rebuild {e : LedgerError} (h : rebuild (s.withTip hash) = .error e)
    (he : e.isFatal = false) : ∃ hashes missing, RunsOut s hash hashes missing := by
  rcases Except.bind_eq_error.mp h with hblocks | ⟨_, _, h⟩
  · rw [Chain.blocks_withTip] at hblocks
    exact Chain.runsOut_of_mapM_walkFrom hblocks he
  · cases h

end Unspent

/-! ## What a commit does -/

namespace Ledger

open Chain (RunsOut)

variable {s : Store} {b : Block} {l : Ledger}

/-- The block is new and takes the place of the tip without extending it, and some
ancestor of it is not stored. -/
structure Strands (s : Store) (b : Block) : Prop where
  isNew : Chain.hasBlock s b.hash = false
  aside : extendsTip s b = .ok false
  overtakes : Chain.overtakesTip (s.withBlock b) b = .ok true
  runsOut : ∃ hashes missing, RunsOut (s.withBlock b) b.hash hashes missing

/-- What becomes of a block in any store before the index follows it: it is refused, or
known already, or stored, as the tip or not. -/
theorem storeBlock_outcomes (s : Store) (b : Block) (onTip : Bool) :
    (∃ e, storeBlock s b onTip = .error e) ∨
    storeBlock s b onTip = .ok (false, s) ∨
    Chain.hasBlock s b.hash = false ∧
      (storeBlock s b onTip = .ok (false, s.withBlock b) ∨
        Chain.overtakesTip (s.withBlock b) b = .ok true ∧
          storeBlock s b onTip = .ok (true, (s.withBlock b).withTip b.hash)) := by
  have hcheck : (∃ e, storeBlock s b onTip = .error e) ∨
      storeBlock s b onTip = Chain.addBlock s b := by
    unfold storeBlock
    split
    · cases checkSpendable s b.transactions with
      | error e => exact Or.inl ⟨e, rfl⟩
      | ok u => exact Or.inr rfl
    · exact Or.inr rfl
  rcases hcheck with herror | hadd
  · exact Or.inl herror
  rw [hadd]
  cases hknown : Chain.hasBlock s b.hash with
  | true => exact Or.inr (Or.inl (Chain.addBlock_of_known hknown))
  | false =>
      rw [Chain.addBlock_of_new hknown]
      cases hover : Chain.overtakesTip (s.withBlock b) b with
      | error e => exact Or.inl ⟨e, rfl⟩
      | ok overtakes =>
          right; right
          refine ⟨rfl, ?_⟩
          cases overtakes with
          | false => exact Or.inl rfl
          | true => exact Or.inr ⟨rfl, rfl⟩

/-- A block that strands a ledger has been stored and is the tip when the index cannot
follow. -/
theorem placeBlock_of_strands (h : Strands s b) : ∃ missing, placeBlock s b =
    (.error (.notFound (.block missing)), (s.withBlock b).withTip b.hash) := by
  obtain ⟨hashes, missing, hout⟩ := h.runsOut
  have hstore : storeBlock s b false = .ok (true, (s.withBlock b).withTip b.hash) := by
    show Chain.addBlock s b = _
    rw [Chain.addBlock_of_new h.isNew, h.overtakes]
    rfl
  refine ⟨missing, placeBlock_of_unfollowed h.aside hstore ?_⟩
  rw [followTip, Unspent.rebuild_of_runsOut hout]
  rfl

/-- The ends of placing a block that leave nothing half done, unless the store is corrupt. -/
inductive Completes (s : Store) (b : Block) : Result Bool × Store → Prop
  | refused (e : LedgerError) : Completes s b (.error e, s)
  | corrupt (t : Store) {e : LedgerError} : e.isFatal = true → Completes s b (.error e, t)
  | known : Completes s b (.ok false, s)
  | beside : Chain.hasBlock s b.hash = false → Completes s b (.ok false, s.withBlock b)
  | onTip (t : Store) : Completes s b (.ok true, t)

/-- The index follows a new tip, or is corrupt, or the branch of the tip runs out. -/
theorem followTip_error {e : LedgerError} {onTip : Bool}
    (h : followTip ((s.withBlock b).withTip b.hash) b onTip = .error e) (he : e.isFatal = false) :
    onTip = false ∧ ∃ hashes missing, RunsOut (s.withBlock b) b.hash hashes missing := by
  cases onTip with
  | true =>
      rw [followTip, if_pos rfl] at h
      rw [Unspent.update_failsFatally _ b e h] at he
      cases he
  | false =>
      rcases Except.bind_eq_error.mp h with hrebuild | ⟨_, _, h⟩
      · exact ⟨rfl, Unspent.runsOut_of_rebuild hrebuild he⟩
      · cases h

/-- Nothing but a block that strands a ledger is left half done. -/
theorem placeBlock_completes (h : ¬ Strands s b) : Completes s b (placeBlock s b) := by
  cases hextends : extendsTip s b with
  | error e =>
      have hplace : placeBlock s b = (.error e, s) := by
        simp only [placeBlock, hextends, bind, Except.bind]
      rw [hplace]
      exact .refused e
  | ok onTip =>
      rcases storeBlock_outcomes s b onTip with
        ⟨e, hstore⟩ | hstore | ⟨hnew, hstore | ⟨hover, hstore⟩⟩
      · rw [placeBlock_of_refused hextends hstore]
        exact .refused e
      · rw [placeBlock_of_beside hextends hstore]
        exact .known
      · rw [placeBlock_of_beside hextends hstore]
        exact .beside hnew
      · cases hfollow : followTip ((s.withBlock b).withTip b.hash) b onTip with
        | ok u =>
            rw [placeBlock_of_followed hextends hstore hfollow]
            exact .onTip u
        | error e =>
            rw [placeBlock_of_unfollowed hextends hstore hfollow]
            apply Completes.corrupt
            by_contra hfatal
            rw [Bool.not_eq_true] at hfatal
            obtain ⟨rfl, hout⟩ := followTip_error hfollow hfatal
            exact h ⟨hnew, hextends, hover, hout⟩

/-- A genesis block or one that is one level above a stored parent does not strand a ledger
whose store holds linked contents. -/
theorem not_strands_of_attaches {c : Contents} (h : s.Holds c) (hl : c.Linked) (hb : b.Fits)
    (hattach : c.Attaches b) : ¬ Strands s b := by
  intro hstrands
  have hnew : c.blocks b.hash = none := by
    have := hstrands.isNew
    rw [Chain.hasBlock_eq h] at this
    simpa using this
  obtain ⟨bs, hbs⟩ :=
    (hl.withBlock hnew hattach).exists_ancestry (Contents.blocks_withBlock_self c b)
  obtain ⟨hashes, missing, hout⟩ := hstrands.runsOut
  exact hout.not_ancestry (h.withBlock hb) hbs

/-- A commit that fails without halting the ledger leaves everything as it was, and one
that leaves the tip leaves the index and the blocks that were there. -/
structure AllOrNothing (l : Ledger) (b : Block) : Prop where
  refused : ∀ e, (l.commitBlock b).1 = .error e → e.isFatal = false → (l.commitBlock b).2 = l
  tip : (l.commitBlock b).1 = .ok false →
    (l.commitBlock b).2.store.get? Store.tipKey = l.store.get? Store.tipKey
  entries : (l.commitBlock b).1 = .ok false → ∀ key, Store.entryTag <+: key →
    (l.commitBlock b).2.store.get? key = l.store.get? key
  blocks : (l.commitBlock b).1 = .ok false → ∀ hash data,
    l.store.get? (Store.blockKey hash) = some data →
    (l.commitBlock b).2.store.get? (Store.blockKey hash) = some data

theorem allOrNothing_of_unchanged (h : (l.commitBlock b).2 = l) : l.AllOrNothing b where
  refused _ _ _ := h
  tip _ := by rw [h]
  entries _ _ _ := by rw [h]
  blocks _ _ _ hdata := by rwa [h]

theorem allOrNothing_of_fatal {e : LedgerError} (h : (l.commitBlock b).1 = .error e)
    (he : e.isFatal = true) : l.AllOrNothing b where
  refused e' heq he' := by
    rw [Except.error.inj (h.symm.trans heq), he'] at he
    cases he
  tip heq := nomatch h.symm.trans heq
  entries heq := nomatch h.symm.trans heq
  blocks heq := nomatch h.symm.trans heq

theorem allOrNothing_of_onTip (h : (l.commitBlock b).1 = .ok true) : l.AllOrNothing b where
  refused _ heq := nomatch h.symm.trans heq
  tip heq := nomatch h.symm.trans heq
  entries heq := nomatch h.symm.trans heq
  blocks heq := nomatch h.symm.trans heq

theorem allOrNothing_of_beside (hnew : Chain.hasBlock l.store b.hash = false)
    (h : l.commitBlock b = (.ok false, { l with store := l.store.withBlock b })) :
    l.AllOrNothing b where
  refused _ heq := by
    rw [h] at heq
    cases heq
  tip _ := by
    rw [h]
    exact (Store.get?_withBlock _ _ _).trans (if_neg (Store.tipKey_ne_blockKey _).symm)
  entries _ key hkey := by
    rw [h]
    refine (Store.get?_withBlock _ _ _).trans (if_neg ?_)
    rintro rfl
    have := Store.isPrefixOf_blockKey b.hash
    rw [List.isPrefixOf_iff_prefix.mpr hkey] at this
    cases this
  blocks _ hash data hdata := by
    rw [h]
    refine (Store.get?_withBlock _ _ _).trans ((if_neg fun heq => ?_).trans hdata)
    obtain rfl := Store.blockKey_injective.mp heq
    rw [Chain.hasBlock, hdata] at hnew
    cases hnew

theorem allOrNothing_of_not_strands (h : l.isHalted = false → ¬ Strands l.store b) :
    l.AllOrNothing b := by
  cases hrunning : l.isHalted with
  | true => exact allOrNothing_of_unchanged (by rw [commitBlock_of_halted hrunning])
  | false =>
      have heq := commitBlock_eq hrunning b
      have hcompletes := placeBlock_completes (h hrunning)
      generalize placeBlock l.store b = placed at heq hcompletes
      cases hcompletes with
      | refused e =>
          cases he : e.isFatal with
          | true => exact allOrNothing_of_fatal (by rw [heq, afterWrite, if_pos he]) he
          | false =>
              apply allOrNothing_of_unchanged
              rw [heq, afterWrite, if_neg (by simp [he])]
      | corrupt t he => exact allOrNothing_of_fatal (by rw [heq, afterWrite, if_pos he]) he
      | known => exact allOrNothing_of_unchanged (by rw [heq, afterWrite])
      | beside hnew => exact allOrNothing_of_beside hnew heq
      | onTip t => exact allOrNothing_of_onTip (by rw [heq, afterWrite])

/-- The ledger that a block strands: the tip has moved to the block, the index and the
marker have not been touched, and nothing has been halted. -/
theorem commitBlock_of_strands (hrunning : l.isHalted = false) (h : Strands l.store b) :
    ∃ missing, l.commitBlock b = (.error (.notFound (.block missing)),
      { l with store := (l.store.withBlock b).withTip b.hash }) := by
  obtain ⟨missing, hplace⟩ := placeBlock_of_strands h
  refine ⟨missing, ?_⟩
  rw [commitBlock_eq hrunning, hplace]
  rfl

theorem not_allOrNothing_of_strands (hrunning : l.isHalted = false) (h : Strands l.store b) :
    ¬ l.AllOrNothing b := by
  intro hall
  obtain ⟨missing, heq⟩ := commitBlock_of_strands hrunning h
  have hsame := hall.refused (.notFound (.block missing)) (by rw [heq]) rfl
  have hstored : Chain.hasBlock ((l.store.withBlock b).withTip b.hash) b.hash = true := by
    rw [Chain.hasBlock, Store.get?_withTip, if_neg (Store.tipKey_ne_blockKey _),
      Store.get?_withBlock, if_pos rfl]
    rfl
  rw [heq] at hsame
  have hstore : (l.store.withBlock b).withTip b.hash = l.store := congrArg Ledger.store hsame
  rw [hstore, h.isNew] at hstored
  cases hstored

/-- On any ledger and for any block, a commit is all or nothing unless the ledger is running
and the block strands it. -/
theorem commitBlock_allOrNothing_iff (l : Ledger) (b : Block) :
    l.AllOrNothing b ↔ ¬ (l.isHalted = false ∧ Strands l.store b) := by
  constructor
  · rintro hall ⟨hrunning, hstrands⟩
    exact not_allOrNothing_of_strands hrunning hstrands hall
  · intro h
    exact allOrNothing_of_not_strands fun hrunning hstrands => h ⟨hrunning, hstrands⟩

/-- A block whose parent is not there strands a ledger that has just been opened. -/
theorem start_not_allOrNothing :
    ¬ (Session.start Fork.rules).ledger.AllOrNothing Fork.shorter := by
  have hread : Chain.block (Store.empty.withBlock Fork.shorter) Fork.shorter.hash =
      .ok Fork.shorter := by
    decide +kernel
  have hmissing : Chain.hasBlock (Store.empty.withBlock Fork.shorter) Fork.root.hash = false := by
    decide +kernel
  apply not_allOrNothing_of_strands
  · decide +kernel
  · exact ⟨by decide +kernel, by decide +kernel, by decide +kernel,
      [Fork.shorter.hash], Fork.root.hash, .parent hread rfl (.missing hmissing)⟩

end Ledger

end CoinLedger
