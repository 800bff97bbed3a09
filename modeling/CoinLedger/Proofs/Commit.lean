import CoinLedger.Ledger.Mining
import CoinLedger.Proofs.Rebuild

/-!
# Committing a block

`Contents.Places` lists what a commit can do to the contents of a store: put the
block beside the active chain, put it on the tip with the index following it, or
switch to its branch with the index of that branch. `Contents.Sound` is what every
such step keeps: blocks are linked, the tip is stored, and a store without a tip has
nothing in it. It also bounds the outputs along every chain, since an entry counts
them in 64 bits.

The main statement is `Ledger.commitBlock_cases`: on a sound store a commit refuses
what the block spends and changes nothing, or finds the block stored already, or
does one of the things that `Contents.Places` lists. No other error can come up.
-/

namespace CoinLedger

namespace Contents

variable {c : Contents} {b : Block} {hash : Digest} {bs : List Block}

/-- A block continues the active chain, or begins one where there is none. -/
def ExtendedBy (c : Contents) (b : Block) : Prop :=
  match c.tip with
  | some hash => b.parent = hash
  | none => b.isGenesis = true

/-- A block is a genesis block, or its parent is stored one level below it. -/
def Attaches (c : Contents) (b : Block) : Prop :=
  b.isGenesis = false → ∃ p, c.blocks b.parent = some p ∧ b.height.toNat = p.height.toNat + 1

/-- The ways of storing a new block; the flag says that it has become the tip. -/
inductive Places (c : Contents) (b : Block) : Bool → Contents → Prop
  | beside : c.blocks b.hash = none → ¬ c.OvertakenBy b →
      (c.ExtendedBy b → ∃ m, c.index.follow b.events = some m) →
      Places c b false (c.withBlock b)
  | onTip {m : Index} : c.blocks b.hash = none → c.OvertakenBy b → c.ExtendedBy b →
      c.index.follow b.events = some m →
      Places c b true (((c.withBlock b).withTip b.hash).withIndex m)
  | switch {bs : List Block} : c.blocks b.hash = none → c.OvertakenBy b → ¬ c.ExtendedBy b →
      Ancestry (c.withBlock b).blocks b.hash bs →
      Places c b true (((c.withBlock b).withTip b.hash).withIndex (Index.ofChain bs))

/-! ## Sound contents -/

/-- What every store that a ledger writes has. No chain in it has more than `room`
outputs. -/
structure Sound (c : Contents) (room : Nat) : Prop where
  linked : c.Linked
  hasTip : c.HasTip
  bare : c.tip = none → c = empty
  count : ∀ hash bs, Ancestry c.blocks hash bs → Block.chainOutputCount bs ≤ room

theorem sound_empty : empty.Sound 0 where
  linked := ⟨fun _ _ h => (Option.some_ne_none _ h.symm).elim,
    fun _ _ h => (Option.some_ne_none _ h.symm).elim⟩
  hasTip _ h := (Option.some_ne_none _ h.symm).elim
  bare _ := rfl
  count _ _ h := by
    obtain ⟨_, _, _, hb⟩ := h.head_stored
    cases hb

theorem Sound.mono {room more : Nat} (h : c.Sound room) (hle : room ≤ more) : c.Sound more where
  linked := h.linked
  hasTip := h.hasTip
  bare := h.bare
  count hash bs ha := Nat.le_trans (h.count hash bs ha) hle

theorem blocks_subset_withBlock (hnew : c.blocks b.hash = none) :
    ∀ hash t, c.blocks hash = some t → (c.withBlock b).blocks hash = some t := by
  intro hash t ht
  rw [blocks_withBlock_of_ne]
  · exact ht
  · rintro rfl
    rw [hnew] at ht
    cases ht

/-- A new block leaves the active chain as long as the tip stays. -/
theorem Active.withBlock (ha : c.Active bs) (hnew : c.blocks b.hash = none) :
    (c.withBlock b).Active bs := by
  cases hc : c.tip with
  | none =>
      rw [ha.of_none hc]
      exact active_of_none hc
  | some hash => exact active_of_some hc ((ha.of_some hc).mono (blocks_subset_withBlock hnew))

theorem Linked.withBlock (hl : c.Linked) (hnew : c.blocks b.hash = none) (hattach : c.Attaches b) :
    (c.withBlock b).Linked where
  named hash t ht := by
    rcases blocks_withBlock_cases ht with ⟨rfl, rfl⟩ | ht
    · rfl
    · exact hl.named hash t ht
  parent hash t ht hg := by
    rcases blocks_withBlock_cases ht with ⟨_, rfl⟩ | ht
    · obtain ⟨p, hp, hheight⟩ := hattach hg
      exact ⟨p, blocks_subset_withBlock hnew _ _ hp, hheight⟩
    · obtain ⟨p, hp, hheight⟩ := hl.parent hash t ht hg
      exact ⟨p, blocks_subset_withBlock hnew _ _ hp, hheight⟩

/-- A new block brings one ancestry, its own; all others were there before. -/
theorem Linked.ancestry_withBlock (hl : c.Linked) (hnew : c.blocks b.hash = none)
    (hattach : c.Attaches b) (h : Ancestry (c.withBlock b).blocks hash bs) :
    Ancestry c.blocks hash bs ∨
      hash = b.hash ∧ ∃ rest, bs = b :: rest ∧ (b.isGenesis = true → rest = []) ∧
        (b.isGenesis = false → Ancestry c.blocks b.parent rest) := by
  -- an old block has an ancestry already, which is still one, and there is only one
  have hold : ∀ name t cs, c.blocks name = some t → Ancestry (c.withBlock b).blocks name cs →
      Ancestry c.blocks name cs := by
    intro name t cs ht hcs
    obtain ⟨ds, hds⟩ := hl.exists_ancestry ht
    rwa [hcs.unique (hds.mono (blocks_subset_withBlock hnew))]
  by_cases heq : hash = b.hash
  · subst heq
    right
    refine ⟨rfl, ?_⟩
    cases h with
    | genesis ht hg =>
        obtain rfl : b = _ := by simpa using ht
        exact ⟨[], rfl, fun _ => rfl, fun hg' => by simp [hg] at hg'⟩
    | child ht hg hrest =>
        obtain rfl : b = _ := by simpa using ht
        obtain ⟨p, hp, _⟩ := hattach hg
        exact ⟨_, rfl, fun hg' => by simp [hg] at hg', fun _ => hold _ p _ hp hrest⟩
  · left
    obtain ⟨t, _, _, ht⟩ := h.head_stored
    rw [blocks_withBlock_of_ne c heq] at ht
    exact hold hash t bs ht h

theorem Sound.withBlock {room : Nat} (h : c.Sound room) (hnew : c.blocks b.hash = none)
    (hattach : c.Attaches b) :
    (c.withBlock b).Linked ∧ (c.withBlock b).HasTip ∧
      ∀ hash bs, Ancestry (c.withBlock b).blocks hash bs →
        Block.chainOutputCount bs ≤ room + outputCount b.transactions := by
  refine ⟨h.linked.withBlock hnew hattach, h.hasTip.withBlock b, ?_⟩
  intro hash bs ha
  rcases h.linked.ancestry_withBlock hnew hattach ha with hold | ⟨_, rest, rfl, hgenesis, hchild⟩
  · have := h.count hash bs hold
    omega
  · have hrest : Block.chainOutputCount rest ≤ room := by
      cases hg : b.isGenesis with
      | true =>
          rw [hgenesis hg]
          exact Nat.zero_le room
      | false => exact h.count _ _ (hchild hg)
    rw [Block.chainOutputCount] at hrest ⊢
    rw [List.map_cons, List.sum_cons]
    omega

theorem Sound.putOnTip {room : Nat} (h : c.Sound room) (hnew : c.blocks b.hash = none)
    (hattach : c.Attaches b) (m : Index) :
    (((c.withBlock b).withTip b.hash).withIndex m).Sound (room + outputCount b.transactions) := by
  obtain ⟨hlinked, _, hcount⟩ := h.withBlock hnew hattach
  refine ⟨⟨hlinked.named, hlinked.parent⟩, ?_, fun hc => (Option.some_ne_none _ hc).elim, hcount⟩
  rintro hash hc
  obtain rfl := Option.some.inj hc
  exact ⟨b, blocks_withBlock_self c b⟩

theorem Sound.places {room : Nat} {flag : Bool} {c' : Contents} (h : c.Sound room)
    (hattach : c.Attaches b) (hplace : c.Places b flag c') :
    c'.Sound (room + outputCount b.transactions) := by
  cases hplace with
  | beside hnew hnot _ =>
      obtain ⟨hlinked, htip, hcount⟩ := h.withBlock hnew hattach
      -- without a tip there is nothing to be beside of
      refine ⟨hlinked, htip, fun hc => absurd ?_ hnot, hcount⟩
      intro hash t hsome _
      rw [show c.tip = none from hc] at hsome
      cases hsome
  | onTip hnew _ _ _ => exact h.putOnTip hnew hattach _
  | switch hnew _ _ _ => exact h.putOnTip hnew hattach _

theorem Sound.withIndex {room : Nat} (h : c.Sound room) {bs : List Block} (ha : c.Active bs) :
    (c.withIndex (Index.ofChain bs)).Sound room where
  linked := ⟨h.linked.named, h.linked.parent⟩
  hasTip := h.hasTip
  bare htip := by
    have hc := h.bare htip
    rw [ha.of_none htip, hc]
    rfl
  count := h.count

/-- There is an active chain. -/
theorem Sound.exists_active {room : Nat} (h : c.Sound room) : ∃ bs, c.Active bs := by
  cases hc : c.tip with
  | none => exact ⟨[], active_of_none hc⟩
  | some hash =>
      obtain ⟨t, ht⟩ := h.hasTip hash hc
      obtain ⟨bs, hbs⟩ := h.linked.exists_ancestry ht
      exact ⟨bs, active_of_some hc hbs⟩

theorem Sound.active_count {room : Nat} (h : c.Sound room) (ha : c.Active bs) :
    Block.chainOutputCount bs ≤ room := by
  cases hc : c.tip with
  | none =>
      rw [ha.of_none hc]
      exact Nat.zero_le room
  | some hash => exact h.count hash bs (ha.of_some hc)

end Contents

namespace Ledger

open Contents (Places Sound)

variable {s : Store} {c : Contents} {b : Block} {room : Nat}

/-! ## Storing -/

theorem extendsTip_eq (h : s.Holds c) (b : Block) :
    ∃ flag, extendsTip s b = .ok flag ∧ (flag = true ↔ c.ExtendedBy b) := by
  rw [extendsTip, Chain.tip?_eq h]
  unfold Contents.ExtendedBy
  cases c.tip with
  | none => exact ⟨b.isGenesis, rfl, Iff.rfl⟩
  | some hash => exact ⟨decide (b.parent = hash), rfl, decide_eq_true_iff⟩

/-- Before a block is stored, it is checked if it extends the tip. -/
theorem storeBlock_cases (h : s.Holds c) (htip : c.HasTip) (hb : b.Fits) (onTip : Bool) :
    (∃ id, storeBlock s b onTip = .error (.verificationFailed id)) ∨
    ((c.blocks b.hash).isSome ∧ storeBlock s b onTip = .ok (false, s)) ∨
    (c.blocks b.hash = none ∧ (onTip = true → ∃ m, c.index.follow b.events = some m) ∧
      ((¬ c.OvertakenBy b ∧ ∃ t, storeBlock s b onTip = .ok (false, t) ∧ t.Holds (c.withBlock b)) ∨
      (c.OvertakenBy b ∧ ∃ t, storeBlock s b onTip = .ok (true, t) ∧
        t.Holds ((c.withBlock b).withTip b.hash)))) := by
  have hadd := Chain.addBlock_cases h htip hb
  rw [storeBlock, Chain.hasBlock_eq h]
  -- the check is made for a new block on the tip, and only there
  by_cases hcheck : (onTip && !(c.blocks b.hash).isSome) = true
  · rw [if_pos hcheck]
    have hnew : c.blocks b.hash = none := by
      rw [Bool.and_eq_true] at hcheck
      simpa using hcheck.2
    rcases checkSpendable_cases h b.transactions with ⟨id, herror⟩ | ⟨hok, m, hm⟩
    · left
      rw [herror]
      exact ⟨id, rfl⟩
    · rw [hok]
      right; right
      refine ⟨hnew, fun _ => ⟨m, hm⟩, ?_⟩
      rcases hadd with ⟨hknown, _⟩ | ⟨_, hnot, t, ht⟩ | ⟨_, hover, t, ht⟩
      · rw [hnew] at hknown
        cases hknown
      · exact Or.inl ⟨hnot, t, ht⟩
      · exact Or.inr ⟨hover, t, ht⟩
  · rw [if_neg hcheck]
    right
    rcases hadd with ⟨hknown, heq⟩ | ⟨hnew, hnot, t, ht⟩ | ⟨hnew, hover, t, ht⟩
    · exact Or.inl ⟨hknown, heq⟩
    · have haside : onTip = false := by simpa [hnew] using hcheck
      exact Or.inr ⟨hnew, by simp [haside], Or.inl ⟨hnot, t, ht⟩⟩
    · have haside : onTip = false := by simpa [hnew] using hcheck
      exact Or.inr ⟨hnew, by simp [haside], Or.inr ⟨hover, t, ht⟩⟩

section

variable {t u : Store} {onTip : Bool} (hextends : extendsTip s b = .ok onTip)

include hextends

theorem placeBlock_of_refused {e : LedgerError} (hstore : storeBlock s b onTip = .error e) :
    placeBlock s b = (.error e, s) := by
  simp only [placeBlock, hextends, hstore, bind, Except.bind]

theorem placeBlock_of_beside (hstore : storeBlock s b onTip = .ok (false, t)) :
    placeBlock s b = (.ok false, t) := by
  simp only [placeBlock, hextends, hstore, bind, Except.bind, pure, Except.pure]

theorem placeBlock_of_followed (hstore : storeBlock s b onTip = .ok (true, t))
    (hfollow : followTip t b onTip = .ok u) : placeBlock s b = (.ok true, u) := by
  simp only [placeBlock, hextends, hstore, hfollow, bind, Except.bind, pure, Except.pure]

/-- The block stays where it is when the index cannot follow. -/
theorem placeBlock_of_unfollowed {e : LedgerError} (hstore : storeBlock s b onTip = .ok (true, t))
    (hfollow : followTip t b onTip = .error e) : placeBlock s b = (.error e, t) := by
  simp only [placeBlock, hextends, hstore, hfollow, bind, Except.bind, pure, Except.pure]

end

/-- A switch to the branch of a block leads to the index of the branch. -/
theorem followTip_branch (hsound : c.Sound room) (hnew : c.blocks b.hash = none)
    (hattach : c.Attaches b) (hroom : room + outputCount b.transactions < 2 ^ 64)
    (h : s.Holds ((c.withBlock b).withTip b.hash)) :
    ∃ u bs, followTip s b false = .ok u ∧ Ancestry (c.withBlock b).blocks b.hash bs ∧
      u.Holds (((c.withBlock b).withTip b.hash).withIndex (Index.ofChain bs)) := by
  obtain ⟨hlinked, _, hcount⟩ := hsound.withBlock hnew hattach
  obtain ⟨bs, hbs⟩ := hlinked.exists_ancestry (Contents.blocks_withBlock_self c b)
  have hlinked' : ((c.withBlock b).withTip b.hash).Linked := ⟨hlinked.named, hlinked.parent⟩
  have hactive : ((c.withBlock b).withTip b.hash).Active bs := Contents.active_of_some rfl hbs
  have hsize := hcount _ _ hbs
  obtain ⟨n, u, hu, hrebuilt⟩ := Unspent.rebuild_eq h hlinked' hactive (by omega)
  refine ⟨u, bs, ?_, hbs, hrebuilt⟩
  rw [followTip, if_neg Bool.false_ne_true, hu]
  rfl

/-- Bringing the index along never fails: on the tip because the block was checked,
and on another branch because all its blocks are stored. -/
theorem placeBlock_cases (h : s.Holds c) (hsound : c.Sound room) (hb : b.Fits)
    (hattach : c.Attaches b) (hroom : room + outputCount b.transactions < 2 ^ 64) :
    (∃ id, placeBlock s b = (.error (.verificationFailed id), s)) ∨
    ((c.blocks b.hash).isSome ∧ placeBlock s b = (.ok false, s)) ∨
    ∃ flag t c', placeBlock s b = (.ok flag, t) ∧ t.Holds c' ∧ c.Places b flag c' := by
  obtain ⟨onTip, hextends, hiff⟩ := extendsTip_eq h b
  rcases storeBlock_cases h hsound.hasTip hb onTip with
    ⟨id, herror⟩ | ⟨hknown, hkeep⟩ |
      ⟨hnew, hchecked, ⟨hnot, t, ht, hholds⟩ | ⟨hover, t, ht, hholds⟩⟩
  · exact Or.inl ⟨id, placeBlock_of_refused hextends herror⟩
  · exact Or.inr (Or.inl ⟨hknown, placeBlock_of_beside hextends hkeep⟩)
  · right; right
    exact ⟨false, t, _, placeBlock_of_beside hextends ht, hholds,
      .beside hnew hnot fun hext => hchecked (hiff.mpr hext)⟩
  · right; right
    cases onTip with
    | true =>
        obtain ⟨m, hm⟩ := hchecked rfl
        obtain ⟨u, hu, hfollowed⟩ := Unspent.update_eq hholds hb hm
        have hfollow : followTip t b true = .ok u := by rw [followTip, if_pos rfl, hu]
        exact ⟨true, u, _, placeBlock_of_followed hextends ht hfollow, hfollowed,
          .onTip hnew hover (hiff.mp rfl) hm⟩
    | false =>
        obtain ⟨u, bs, hfollow, hbs, hrebuilt⟩ := followTip_branch hsound hnew hattach hroom hholds
        refine ⟨true, u, _, placeBlock_of_followed hextends ht hfollow, hrebuilt,
          .switch hnew hover ?_ hbs⟩
        exact fun hext => Bool.false_ne_true (hiff.mpr hext)

/-! ## Committing -/

theorem ensureWritable_eq {l : Ledger} (h : l.store.Holds c) (hrun : l.halted = false) :
    l.ensureWritable = .ok () := by
  rw [ensureWritable, isHalted, hrun, h.haltReason?]
  rfl

theorem commitBlock_cases {l : Ledger} (h : l.store.Holds c) (hrun : l.halted = false)
    (hsound : c.Sound room) (hb : b.Fits) (hattach : c.Attaches b)
    (hroom : room + outputCount b.transactions < 2 ^ 64) :
    (∃ id, l.commitBlock b = (.error (.verificationFailed id), l)) ∨
    ((c.blocks b.hash).isSome ∧ l.commitBlock b = (.ok false, l)) ∨
    ∃ flag t c', l.commitBlock b = (.ok flag, { l with store := t }) ∧ t.Holds c' ∧
      c.Places b flag c' := by
  rw [commitBlock, ensureWritable_eq h hrun]
  rcases placeBlock_cases h hsound hb hattach hroom with
    ⟨id, herror⟩ | ⟨hknown, hkeep⟩ | ⟨flag, t, c', ht, hholds, hplace⟩
  · left
    rw [herror]
    exact ⟨id, rfl⟩
  · right; left
    rw [hkeep]
    exact ⟨hknown, rfl⟩
  · right; right
    rw [ht]
    exact ⟨flag, t, c', rfl, hholds, hplace⟩

end Ledger

end CoinLedger
