import CoinLedger.Proofs.ChainStructure
import Mathlib.Data.List.Perm.Basic

/-!
# The order of delivery

Blocks from elsewhere arrive in some order, each after its parent. Whether a block
obeys the rules and attaches to its parent does not depend on the order. Two things
do: what the block spends is looked up on the branch that is active when it arrives,
and of two blocks under one hash the first to arrive is stored. A block that falls to
one of these is `PassedOver`.

The main statement, `Session.delivery_order_iff`, says that this is all: two orders
of the same blocks lead to the same stored blocks and the same height exactly when
they pass over the same blocks.
-/

namespace CoinLedger

/-! ## What the checks say -/

namespace Chain

variable {s : Store} {c : Contents} {bs : List Block}

theorem findTransaction_cases (h : s.Holds c) (hl : c.Linked) (ha : c.Active bs) (id : Digest) :
    (∃ tx, findTransaction s id = .ok tx) ∨
      findTransaction s id = .error (.notFound (.transaction id)) := by
  have hfind : findTransaction s id = findIn id (bs.map .ok) := by
    rw [findTransaction, walk_eq h hl ha]
    rfl
  rw [hfind, findIn_eq]
  cases (Block.chainTransactions bs).find? fun tx => tx.id = id with
  | some tx => exact Or.inl ⟨tx, rfl⟩
  | none => exact Or.inr rfl

/-- Looking up what a transaction refers to fails only where something is not found. -/
theorem references_cases (h : s.Holds c) (hl : c.Linked) (ha : c.Active bs) (tx : Transaction) :
    (∃ refs, references s tx = .ok refs) ∨ ∃ what, references s tx = .error (.notFound what) := by
  have hall : ∀ (inputs : List Input) (refs : References),
      (∃ found, inputs.foldlM (addReference s) refs = .ok found) ∨
        ∃ what, inputs.foldlM (addReference s) refs = .error (.notFound what) := by
    intro inputs
    induction inputs with
    | nil => exact fun refs => Or.inl ⟨refs, rfl⟩
    | cons i rest ih =>
        intro refs
        rw [List.foldlM_cons]
        unfold addReference
        split
        · exact ih refs
        · rcases findTransaction_cases h hl ha i.source with ⟨found, hfound⟩ | hmissing
          · rw [hfound]
            exact ih (found :: refs)
          · rw [hmissing]
            exact Or.inr ⟨_, rfl⟩
  exact hall tx.spends []

end Chain

theorem Block.checkHeight_eq_ok_iff {b parent : Block} :
    b.checkHeight parent = .ok () ↔ b.height.toNat = parent.height.toNat + 1 := by
  refine ⟨checkHeight_eq_ok, fun h => ?_⟩
  have hlt : parent.height.toNat + 1 < UInt64.size := h ▸ b.height.toNat_lt
  have hnext : nextHeight? parent.height = some (parent.height + 1) := by
    rw [nextHeight?, if_pos hlt]
  rw [checkHeight, hnext]
  refine if_pos (UInt64.toNat_inj.mp ?_)
  rw [h, toNat_nextHeight hnext]

namespace Ledger

variable {l : Ledger} {c : Contents} {b : Block} {bs : List Block} {room : Nat}

theorem verifyTransaction_cases (h : l.store.Holds c) (hl : c.Linked) (ha : c.Active bs)
    (tx : Transaction) : ∃ flag, l.verifyTransaction tx = .ok flag := by
  unfold verifyTransaction
  rcases Chain.references_cases h hl ha tx with ⟨refs, hrefs⟩ | ⟨what, hmissing⟩
  · rw [hrefs]
    exact ⟨_, rfl⟩
  · rw [hmissing]
    exact ⟨_, rfl⟩

theorem checkSignatures_cases (h : l.store.Holds c) (hl : c.Linked) (ha : c.Active bs)
    (txs : List Transaction) :
    l.checkSignatures txs = .ok () ∨
      ∃ id, l.checkSignatures txs = .error (.verificationFailed id) := by
  induction txs with
  | nil => exact Or.inl rfl
  | cons tx rest ih =>
      rw [checkSignatures]
      cases hcoinbase : tx.isCoinbase with
      | true => simpa using ih
      | false =>
          obtain ⟨flag, hflag⟩ := verifyTransaction_cases h hl ha tx
          rw [hflag]
          cases flag with
          | true => exact ih
          | false => exact Or.inr ⟨tx.id, rfl⟩

theorem checkParent_cases (h : l.store.Holds c) (b : Block) :
    (c.Attaches b ∧ l.checkParent b = .ok ()) ∨
      (¬ c.Attaches b ∧ ∃ cause, l.checkParent b = .error (.invalidBlock cause)) := by
  unfold checkParent
  cases hg : b.isGenesis with
  | true =>
      left
      refine ⟨fun hnot => ?_, rfl⟩
      rw [hg] at hnot
      cases hnot
  | false =>
      rw [if_neg Bool.false_ne_true, Chain.block_eq h]
      cases hp : c.blocks b.parent with
      | none =>
          right
          refine ⟨fun hattach => ?_, .unknownParent, rfl⟩
          obtain ⟨p, hsome, _⟩ := hattach hg
          rw [hp] at hsome
          cases hsome
      | some parent =>
          simp only
          cases hcheck : b.checkHeight parent with
          | ok u =>
              left
              exact ⟨fun _ => ⟨parent, hp, Block.checkHeight_eq_ok hcheck⟩, rfl⟩
          | error cause =>
              right
              refine ⟨fun hattach => ?_, cause, rfl⟩
              obtain ⟨p, hsome, hheight⟩ := hattach hg
              obtain rfl := Option.some.inj (hp.symm.trans hsome)
              rw [Block.checkHeight_eq_ok_iff.mpr hheight] at hcheck
              cases hcheck

/-- A block is refused as invalid exactly when it breaks the rules or does not attach;
else the only error is what the signatures give. -/
theorem checkBlock_cases (h : l.store.Holds c) (hl : c.Linked) (ha : c.Active bs) (b : Block) :
    (¬ (l.rules.Admits b ∧ c.Attaches b) ∧ ∃ cause, l.checkBlock b = .error (.invalidBlock cause)) ∨
      (l.rules.Admits b ∧ c.Attaches b ∧
        (l.checkBlock b = .ok () ∨ ∃ id, l.checkBlock b = .error (.verificationFailed id))) := by
  rw [checkBlock]
  cases hrules : l.rules.checkBlock b with
  | error cause =>
      left
      refine ⟨?_, cause, rfl⟩
      rintro ⟨hadmits, -⟩
      rw [Rules.checkBlock_eq_ok_iff.mpr hadmits] at hrules
      cases hrules
  | ok u =>
      have hadmits := Rules.checkBlock_eq_ok_iff.mp hrules
      rcases checkParent_cases h b with ⟨hattach, hparent⟩ | ⟨hnot, cause, hparent⟩
      · rw [hparent]
        exact Or.inr ⟨hadmits, hattach, checkSignatures_cases h hl ha b.transactions⟩
      · rw [hparent]
        exact Or.inl ⟨fun hboth => hnot hboth.2, cause, rfl⟩

end Ledger

theorem Contents.attaches_congr {c c' : Contents} {b : Block}
    (h : b.isGenesis = false → c'.blocks b.parent = c.blocks b.parent) :
    c'.Attaches b ↔ c.Attaches b := by
  unfold Attaches
  refine forall_congr' fun hg => ?_
  rw [h hg]

theorem Contents.Attaches.mono {c c' : Contents} {b : Block} (h : c.Attaches b)
    (hsub : ∀ hash t, c.blocks hash = some t → c'.blocks hash = some t) : c'.Attaches b := by
  intro hg
  obtain ⟨p, hp, hheight⟩ := h hg
  exact ⟨p, hsub _ _ hp, hheight⟩

theorem RunFits.perm {requests requests' : List Request} (h : RunFits requests)
    (hperm : requests.Perm requests') : RunFits requests' where
  each r hr := h.each r (hperm.mem_iff.mpr hr)
  count := by
    have hsum := (hperm.map Request.outputCount).sum_nat
    rw [Request.totalOutputCount, ← hsum]
    exact h.count

namespace Session

variable {σ σ' : Session} {c c' : Contents} {b x : Block} {room room' : Nat} {rules : Rules}
  {o o' : List Block}

/-! ## What becomes of one block -/

/-- The block is refused for what it spends, or not stored because its hash is taken. -/
def PassesOver (σ : Session) (b : Block) : Prop :=
  (∃ id, (σ.ledger.acceptBlock b).1 = .error (.verificationFailed id)) ∨
    (Chain.hasBlock σ.ledger.store b.hash = true ∧ (σ.ledger.acceptBlock b).1 = .ok false)

/-- A block that is delivered breaks the rules or does not attach, or is passed over, or
is stored. -/
inductive Fate (σ : Session) (b : Block) (c c' : Contents) : Prop
  | refused : ¬ (σ.ledger.rules.Admits b ∧ c.Attaches b) → ¬ σ.PassesOver b →
      c'.blocks = c.blocks → Fate σ b c c'
  | passedOver : σ.ledger.rules.Admits b → c.Attaches b → σ.PassesOver b →
      c'.blocks = c.blocks → Fate σ b c c'
  | stored : σ.ledger.rules.Admits b → c.Attaches b → ¬ σ.PassesOver b →
      c.blocks b.hash = none → c'.blocks = (c.withBlock b).blocks → Fate σ b c c'

theorem not_passesOver_of_invalid {cause : ValidationError}
    (h : (σ.ledger.acceptBlock b).1 = .error (.invalidBlock cause)) : ¬ σ.PassesOver b := by
  rintro (⟨id, herror⟩ | ⟨_, hok⟩)
  · cases h.symm.trans herror
  · cases h.symm.trans hok

theorem not_passesOver_of_new {flag : Bool} (h : (σ.ledger.acceptBlock b).1 = .ok flag)
    (hnew : Chain.hasBlock σ.ledger.store b.hash = false) : ¬ σ.PassesOver b := by
  rintro (⟨id, herror⟩ | ⟨hknown, _⟩)
  · cases h.symm.trans herror
  · rw [hnew] at hknown
    cases hknown

theorem Sound.fate (h : σ.Sound c room) (hb : b.Fits)
    (hroom : room + outputCount b.transactions < 2 ^ 64)
    (h' : (σ.perform (.accept b)).2.Sound c' room') : Fate σ b c c' := by
  obtain ⟨bs, ha⟩ := h.contents.exists_active
  have hholds : (σ.ledger.acceptBlock b).2.store.Holds c' := h'.holds
  -- an answer that leaves the ledger as it was leaves the blocks as they were
  have hkept : ∀ {answer : Result Bool}, σ.ledger.acceptBlock b = (answer, σ.ledger) →
      c'.blocks = c.blocks := by
    intro answer heq
    rw [heq] at hholds
    exact congrArg Contents.blocks (hholds.contents_eq h.holds)
  rcases Ledger.checkBlock_cases h.holds h.contents.linked ha b with
    ⟨hnot, cause, hcheck⟩ | ⟨hadmits, hattach, hcheck | ⟨id, hcheck⟩⟩
  · have haccept : σ.ledger.acceptBlock b = (.error (.invalidBlock cause), σ.ledger) := by
      rw [Ledger.acceptBlock, hcheck]
    exact .refused hnot (not_passesOver_of_invalid (congrArg Prod.fst haccept)) (hkept haccept)
  · have haccept : σ.ledger.acceptBlock b = σ.ledger.commitBlock b := by
      rw [Ledger.acceptBlock, hcheck]
    rcases Ledger.commitBlock_cases h.holds h.running h.contents hb hattach hroom with
      ⟨id, herror⟩ | ⟨hknown, hkeep⟩ | ⟨flag, t, c'', ht, hplaced, hplace⟩
    · rw [herror] at haccept
      exact .passedOver hadmits hattach (Or.inl ⟨id, congrArg Prod.fst haccept⟩) (hkept haccept)
    · rw [hkeep] at haccept
      rw [← Chain.hasBlock_eq h.holds] at hknown
      exact .passedOver hadmits hattach (Or.inr ⟨hknown, congrArg Prod.fst haccept⟩) (hkept haccept)
    · rw [ht] at haccept
      rw [haccept] at hholds
      obtain rfl := hholds.contents_eq hplaced
      have hnew : Chain.hasBlock σ.ledger.store b.hash = false := by
        rw [Chain.hasBlock_eq h.holds, hplace.blocks_eq_none]
        rfl
      exact .stored hadmits hattach (not_passesOver_of_new (congrArg Prod.fst haccept) hnew)
        hplace.blocks_eq_none hplace.blocks_eq
  · have haccept : σ.ledger.acceptBlock b = (.error (.verificationFailed id), σ.ledger) := by
      rw [Ledger.acceptBlock, hcheck]
    exact .passedOver hadmits hattach (Or.inl ⟨id, congrArg Prod.fst haccept⟩) (hkept haccept)

/-- Only the record of the delivered block can change. -/
theorem Fate.blocks_of_ne (h : Fate σ b c c') {hash : Digest} (hne : hash ≠ b.hash) :
    c'.blocks hash = c.blocks hash := by
  cases h with
  | refused _ _ hblocks => rw [hblocks]
  | passedOver _ _ _ hblocks => rw [hblocks]
  | stored _ _ _ _ hblocks => rw [hblocks, Contents.blocks_withBlock_of_ne c hne]

/-- What is stored was stored before or is the delivered block. -/
theorem Fate.stored_cases (h : Fate σ b c c') {hash : Digest} {t : Block}
    (ht : c'.blocks hash = some t) : c.blocks hash = some t ∨ t = b := by
  cases h with
  | refused _ _ hblocks => exact Or.inl (hblocks ▸ ht)
  | passedOver _ _ _ hblocks => exact Or.inl (hblocks ▸ ht)
  | stored _ _ _ _ hblocks =>
      rw [hblocks] at ht
      rcases Contents.blocks_withBlock_cases ht with ⟨_, rfl⟩ | hold
      · exact Or.inr rfl
      · exact Or.inl hold

/-- The blocks that are passed over obey the rules and attach. -/
theorem Fate.of_passesOver (h : Fate σ b c c') (hpasses : σ.PassesOver b) :
    σ.ledger.rules.Admits b ∧ c.Attaches b := by
  cases h with
  | refused _ hnot _ => exact absurd hpasses hnot
  | passedOver hadmits hattach _ _ => exact ⟨hadmits, hattach⟩
  | stored _ _ hnot _ _ => exact absurd hpasses hnot

/-- What it takes for the delivered block to be stored. -/
theorem Fate.stored_iff (h : Fate σ b c c') (hnew : c.blocks b.hash ≠ some b)
    (hsub : ∀ hash t, c.blocks hash = some t → c'.blocks hash = some t) :
    c'.blocks b.hash = some b ↔ σ.ledger.rules.Admits b ∧ c'.Attaches b ∧ ¬ σ.PassesOver b := by
  cases h with
  | refused hnot _ hblocks =>
      rw [hblocks, Contents.attaches_congr fun _ => congrFun hblocks _]
      exact ⟨fun hstored => absurd hstored hnew, fun hall => absurd ⟨hall.1, hall.2.1⟩ hnot⟩
  | passedOver _ _ hpasses hblocks =>
      rw [hblocks]
      exact ⟨fun hstored => absurd hstored hnew, fun hall => absurd hpasses hall.2.2⟩
  | stored hadmits hattach hnot _ hblocks =>
      refine ⟨fun _ => ⟨hadmits, hattach.mono hsub, hnot⟩, fun _ => ?_⟩
      rw [hblocks]
      exact Contents.blocks_withBlock_self c b

/-! ## Deliveries -/

/-- The session that blocks from elsewhere lead to, from an empty store. -/
def delivered (rules : Rules) (o : List Block) : Session := (start rules).run (o.map .accept)

/-- No block is delivered before its parent. -/
def ParentsFirst (o : List Block) : Prop :=
  o.Pairwise fun earlier later => earlier.isGenesis = false → later.hash ≠ earlier.parent

instance (o : List Block) : Decidable (ParentsFirst o) :=
  inferInstanceAs (Decidable (o.Pairwise _))

/-- A block of the delivery was passed over when it arrived. -/
def PassedOver (rules : Rules) (o : List Block) (b : Block) : Prop :=
  ∃ before after, o = before ++ b :: after ∧ (delivered rules before).PassesOver b

theorem delivered_snoc (rules : Rules) (o : List Block) (x : Block) :
    delivered rules (o ++ [x]) = ((delivered rules o).perform (.accept x)).2 := by
  rw [delivered, List.map_append, List.map_singleton, run_snoc]
  rfl

theorem PassedOver.mem (h : PassedOver rules o b) : b ∈ o := by
  obtain ⟨before, after, rfl, _⟩ := h
  simp

theorem passedOver_snoc : PassedOver rules (o ++ [x]) b ↔
    PassedOver rules o b ∨ (b = x ∧ (delivered rules o).PassesOver x) := by
  constructor
  · rintro ⟨before, after, heq, hpasses⟩
    rcases split_snoc heq with ⟨rfl, rfl⟩ | ⟨rest, hrest⟩
    · exact Or.inr ⟨rfl, hpasses⟩
    · exact Or.inl ⟨before, rest, hrest, hpasses⟩
  · rintro (⟨before, after, rfl, hpasses⟩ | ⟨rfl, hpasses⟩)
    · exact ⟨before, after ++ [x], by simp, hpasses⟩
    · exact ⟨o, [], rfl, hpasses⟩

theorem passedOver_snoc_self (hx : x ∉ o) :
    PassedOver rules (o ++ [x]) x ↔ (delivered rules o).PassesOver x := by
  rw [passedOver_snoc]
  refine ⟨fun hpassed => ?_, fun hpasses => Or.inr ⟨rfl, hpasses⟩⟩
  rcases hpassed with hold | ⟨_, hpasses⟩
  · exact absurd hold.mem hx
  · exact hpasses

theorem passedOver_snoc_of_mem (hx : x ∉ o) (hb : b ∈ o) :
    PassedOver rules (o ++ [x]) b ↔ PassedOver rules o b := by
  rw [passedOver_snoc, or_iff_left]
  rintro ⟨rfl, _⟩
  exact hx hb

/-- What a delivery leads to: of the blocks that obey the rules and attach to the stored
ones in the end, those are stored that were not passed over. -/
structure Settled (rules : Rules) (o : List Block) (c : Contents) : Prop where
  sound : (delivered rules o).Sound c (Request.totalOutputCount (o.map .accept))
  rules_eq : (delivered rules o).ledger.rules = rules
  tipHighest : c.TipHighest
  among : ∀ hash b, c.blocks hash = some b → b ∈ o
  stored_iff : ∀ b ∈ o, c.blocks b.hash = some b ↔
    rules.Admits b ∧ c.Attaches b ∧ ¬ PassedOver rules o b
  passed : ∀ b, PassedOver rules o b → rules.Admits b ∧ c.Attaches b

theorem settled_nil (rules : Rules) : Settled rules [] Contents.empty where
  sound := sound_start rules
  rules_eq := rfl
  tipHighest := Contents.tipHighest_empty
  among _ _ h := by cases h
  stored_iff _ h := by cases h
  passed _ h := by cases h.mem

/-- One more block that is delivered, none of whose children came before. -/
theorem Settled.step (h : Settled rules o c) (hx : x ∉ o)
    (hfirst : ∀ b ∈ o, b.isGenesis = false → x.hash ≠ b.parent)
    (hfits : RunFits ((o ++ [x]).map .accept)) : ∃ c', Settled rules (o ++ [x]) c' := by
  rw [List.map_append, List.map_singleton] at hfits
  have hcount := hfits.count
  rw [Request.totalOutputCount_snoc] at hcount
  obtain ⟨c', hperforms⟩ := h.sound.perform hfits.last hcount
  have hfate := h.sound.fate hfits.last hcount hperforms.sound
  -- nothing changes for the blocks that came before, whatever becomes of the new one
  have hattaches : ∀ b ∈ o, c'.Attaches b ↔ c.Attaches b := fun b hb =>
    Contents.attaches_congr fun hg => hfate.blocks_of_ne (hfirst b hb hg).symm
  have hstays : ∀ b ∈ o, c'.blocks b.hash = some b ↔ c.blocks b.hash = some b := by
    intro b hb
    refine ⟨fun hstored => ?_, hperforms.step.blocks_subset _ _⟩
    rcases hfate.stored_cases hstored with hold | rfl
    · exact hold
    · exact absurd hb hx
  have hnew : c.blocks x.hash ≠ some x := fun hstored => hx (h.among _ _ hstored)
  refine ⟨c', ?_, ?_, hperforms.step.tipHighest h.sound.contents h.tipHighest, ?_, ?_, ?_⟩
  · rw [delivered_snoc, List.map_append, List.map_singleton, Request.totalOutputCount_snoc]
    exact hperforms.sound
  · rw [delivered_snoc]
    exact hperforms.rules.trans h.rules_eq
  · intro hash b hb
    rcases hfate.stored_cases hb with hold | rfl
    · exact List.mem_append_left _ (h.among hash b hold)
    · exact List.mem_append_right _ List.mem_cons_self
  · intro b hb
    rcases List.mem_append.mp hb with hb | hb
    · rw [hstays b hb, hattaches b hb, passedOver_snoc_of_mem hx hb]
      exact h.stored_iff b hb
    · obtain rfl := List.mem_singleton.mp hb
      have hiff := hfate.stored_iff hnew hperforms.step.blocks_subset
      rw [h.rules_eq] at hiff
      rw [hiff, passedOver_snoc_self hx]
  · intro b hpassed
    rcases passedOver_snoc.mp hpassed with hold | ⟨rfl, hpasses⟩
    · rw [hattaches b hold.mem]
      exact h.passed b hold
    · obtain ⟨hadmits, hattach⟩ := hfate.of_passesOver hpasses
      exact ⟨h.rules_eq ▸ hadmits, hattach.mono hperforms.step.blocks_subset⟩

theorem exists_settled (rules : Rules) (hnodup : o.Nodup) (hfirst : ParentsFirst o)
    (hfits : RunFits (o.map .accept)) : ∃ c, Settled rules o c := by
  induction o using List.reverseRecOn with
  | nil => exact ⟨Contents.empty, settled_nil rules⟩
  | append_singleton o x ih =>
      obtain ⟨hearlier, _, hbetween⟩ := List.pairwise_append.mp hfirst
      obtain ⟨hnodup', _, hapart⟩ := List.nodup_append.mp hnodup
      have hfits' := hfits
      rw [List.map_append, List.map_singleton] at hfits'
      obtain ⟨c, h⟩ := ih hnodup' hearlier hfits'.init
      refine h.step (fun hx => hapart x hx x List.mem_cons_self rfl) ?_ hfits
      exact fun b hb => hbetween b hb x List.mem_cons_self

/-! ## Two orders -/

/-- Heights fall towards a genesis block, so a block that is stored after one delivery
has its parent stored after the other, and attaches there too. -/
theorem Settled.subset (h : Settled rules o c) (h' : Settled rules o' c') (hmem : ∀ b ∈ o, b ∈ o')
    (hpassed : ∀ b ∈ o, PassedOver rules o' b → PassedOver rules o b) :
    ∀ hash b, c.blocks hash = some b → c'.blocks hash = some b := by
  intro hash b
  induction hheight : b.height.toNat using Nat.strongRecOn generalizing hash b with
  | ind n ih =>
      intro hb
      have hb' := h.among hash b hb
      obtain rfl := h.sound.contents.linked.named hash b hb
      obtain ⟨hadmits, hattach, hnot⟩ := (h.stored_iff b hb').mp hb
      refine (h'.stored_iff b (hmem b hb')).mpr ⟨hadmits, fun hg => ?_, fun hpass => ?_⟩
      · obtain ⟨p, hp, hnext⟩ := hattach hg
        exact ⟨p, ih p.height.toNat (by omega) b.parent p rfl hp, hnext⟩
      · exact hnot (hpassed b hb' hpass)

/-- After deliveries that lead to the same blocks, the same blocks were passed over. -/
theorem Settled.passedOver_of_blocks_eq (h : Settled rules o c) (h' : Settled rules o' c')
    (hblocks : c.blocks = c'.blocks) (hb : b ∈ o') (hpassed : PassedOver rules o b) :
    PassedOver rules o' b := by
  obtain ⟨hadmits, hattach⟩ := h.passed b hpassed
  by_contra hnot
  rw [Contents.attaches_congr fun _ => congrFun hblocks _] at hattach
  have hstored := (h'.stored_iff b hb).mpr ⟨hadmits, hattach, hnot⟩
  rw [← hblocks] at hstored
  exact ((h.stored_iff b hpassed.mem).mp hstored).2.2 hpassed

theorem tip_eq_none_congr (h : c.Sound room) (h' : c'.HasTip) (hblocks : c.blocks = c'.blocks)
    (htip : c.tip = none) : c'.tip = none := by
  cases htip' : c'.tip with
  | none => rfl
  | some hash =>
      obtain ⟨t, ht⟩ := h' hash htip'
      rw [← hblocks, h.bare htip] at ht
      cases ht

/-- The greatest height depends on the stored blocks alone. -/
theorem Sound.bestHeight_congr (h : σ.Sound c room) (h' : σ'.Sound c' room')
    (htop : c.TipHighest) (htop' : c'.TipHighest) (hblocks : c.blocks = c'.blocks) :
    Chain.bestHeight σ.ledger.store = Chain.bestHeight σ'.ledger.store := by
  cases hc : c.tip with
  | none =>
      have hc' := tip_eq_none_congr h.contents h'.contents.hasTip hblocks hc
      rw [Chain.bestHeight, Chain.tip, Chain.tip?_eq h.holds, hc, Chain.bestHeight, Chain.tip,
        Chain.tip?_eq h'.holds, hc']
      rfl
  | some hash =>
      cases hc' : c'.tip with
      | none =>
          rw [tip_eq_none_congr h'.contents h.contents.hasTip hblocks.symm hc'] at hc
          cases hc
      | some hash' =>
          obtain ⟨t, ht⟩ := h.contents.hasTip hash hc
          obtain ⟨t', ht'⟩ := h'.contents.hasTip hash' hc'
          rw [Chain.bestHeight_eq h.holds hc ht, Chain.bestHeight_eq h'.holds hc' ht']
          -- each of the two tips is among the blocks that the other one is highest of
          refine congrArg Except.ok (UInt64.le_antisymm ?_ ?_)
          · exact htop' hash' t' hc' ht' hash t (hblocks ▸ ht)
          · exact htop hash t hc ht hash' t' (hblocks ▸ ht')

/-- Two orders of the same blocks, each with every block after its parent, lead to the
same stored blocks and the same greatest height exactly when the blocks that are passed
over are the same: refused for what they spend, or not stored because another block has
their hash. -/
theorem delivery_order_iff (rules : Rules) (o o' : List Block) (hperm : o.Perm o')
    (hnodup : o.Nodup) (hfirst : ParentsFirst o) (hfirst' : ParentsFirst o')
    (hfits : RunFits (o.map .accept)) :
    ((∀ hash, Chain.block (delivered rules o).ledger.store hash =
        Chain.block (delivered rules o').ledger.store hash) ∧
      Chain.bestHeight (delivered rules o).ledger.store =
        Chain.bestHeight (delivered rules o').ledger.store) ↔
    ∀ b ∈ o, PassedOver rules o b ↔ PassedOver rules o' b := by
  obtain ⟨c, h⟩ := exists_settled rules hnodup hfirst hfits
  obtain ⟨c', h'⟩ := exists_settled rules (hperm.nodup_iff.mp hnodup) hfirst'
    (hfits.perm (hperm.map _))
  constructor
  · rintro ⟨hread, _⟩ b hb
    have hblocks : c.blocks = c'.blocks := by
      funext hash
      have hsame := hread hash
      rw [Chain.block_eq h.sound.holds, Chain.block_eq h'.sound.holds] at hsame
      cases hc : c.blocks hash <;> cases hc' : c'.blocks hash <;> simp [hc, hc'] at hsame
      · rfl
      · rw [hsame]
    exact ⟨h.passedOver_of_blocks_eq h' hblocks (hperm.mem_iff.mp hb),
      h'.passedOver_of_blocks_eq h hblocks.symm hb⟩
  · intro hpassed
    have hblocks : c.blocks = c'.blocks := by
      have hleft := h.subset h' (fun b hb => hperm.mem_iff.mp hb) fun b hb => (hpassed b hb).mpr
      have hright := h'.subset h (fun b hb => hperm.mem_iff.mpr hb) fun b hb =>
        (hpassed b (hperm.mem_iff.mpr hb)).mp
      funext hash
      exact Option.ext fun b => ⟨hleft hash b, hright hash b⟩
    refine ⟨fun hash => ?_, h.sound.bestHeight_congr h'.sound h.tipHighest h'.tipHighest hblocks⟩
    rw [Chain.block_eq h.sound.holds, Chain.block_eq h'.sound.holds, hblocks]

end Session

/-! ## Two orders that differ -/

namespace Fork

/-- A block on the root, without any payment. -/
def rival : Block where
  timestamp := 0
  hash := Digest.ofNat 0x65474d6e232122ef105bd1a363a5bcf078f724a16841ac536a39235cce4a30d5
  transactions :=
    [coinbase 0x135e6f8c534454fd0d92d0745de750755fda5d6a3aa9aa25f338693df3866875 5 alice]
  parent := root.hash
  nonce := 0
  height := 1

/-- Bob's payment of the reward in the shorter branch, back to Alice. -/
def repayment : Transaction where
  id := Digest.ofNat 0xeb980059d79f884ebe34c7fd8bda347dc7c824324d79a1a27ed1aac3b4a09357
  inputs := [{
    source := Digest.ofNat 0xaac89103622dfac30cfa027da946ecef08f0ed2e143aa1c62fd43f979524b6dd
    index := 0
    signature :=
      Bytes.bigEndian 32 0xc1392cfd8481980fcf19a954c17b5bbde1c48988e533e06b3a2ee302615bff81 ++
        Bytes.bigEndian 32 0x322468f4fe66eb7202356e8e50b1bead01f1d7f7f6613dbd9c8d1985316cd369
    key :=
      Bytes.bigEndian 32 0x466d7fcae563e5cb09a0d1870bb580344804617879a14949cf22285f1bae3f27 ++
        Bytes.bigEndian 32 0x6728176c3c6431f8eeda4538dc37c865e2784f3a9e77d044f33e407797e1278a }]
  outputs := [⟨100, alice⟩]

/-- The second block of the shorter branch. -/
def repaid : Block where
  timestamp := 0
  hash := Digest.ofNat 0x000ae9a0542e7d9e3d08920cfb87f20790c331ec6754ad7915a523eaba19a46d
  transactions :=
    [coinbase 0xcc4568747b3c9479a548a388c6918274e36b8e93db340095814ed025a2b91518 4 bob, repayment]
  parent := shorter.hash
  nonce := 3
  height := 2

/-- The shorter branch first. -/
def rivalLast : List Block := [root, shorter, repaid, rival]

/-- The rival first, so that the shorter branch does not become the active chain. -/
def rivalFirst : List Block := [root, rival, shorter, repaid]

theorem delivered_rivalLast :
    Chain.hasBlock (Session.delivered rules rivalLast).ledger.store repaid.hash = true ∧
      Chain.bestHeight (Session.delivered rules rivalLast).ledger.store = .ok 2 := by
  decide +kernel

theorem delivered_rivalFirst :
    Chain.hasBlock (Session.delivered rules rivalFirst).ledger.store repaid.hash = false ∧
      Chain.bestHeight (Session.delivered rules rivalFirst).ledger.store = .ok 1 := by
  decide +kernel

/-- The repayment is looked for on the active chain, which is the rival's when the block
arrives after it; so the block is refused there, and stored in the other order. -/
theorem delivery_order_matters :
    rivalLast.Perm rivalFirst ∧ rivalLast.Nodup ∧ Session.ParentsFirst rivalLast ∧
      Session.ParentsFirst rivalFirst ∧ RunFits (rivalLast.map .accept) ∧
      Chain.hasBlock (Session.delivered rules rivalLast).ledger.store repaid.hash = true ∧
      Chain.hasBlock (Session.delivered rules rivalFirst).ledger.store repaid.hash = false ∧
      Chain.bestHeight (Session.delivered rules rivalLast).ledger.store = .ok 2 ∧
      Chain.bestHeight (Session.delivered rules rivalFirst).ledger.store = .ok 1 :=
  ⟨by decide, by decide, by decide, by decide, by decide, delivered_rivalLast.1,
    delivered_rivalFirst.1, delivered_rivalLast.2, delivered_rivalFirst.2⟩

/-- One of the two orders passes over a block that the other does not. -/
theorem delivery_order_rival :
    ∃ b ∈ rivalLast, ¬ (Session.PassedOver rules rivalLast b ↔
      Session.PassedOver rules rivalFirst b) := by
  by_contra hnone
  have hsame : ∀ b ∈ rivalLast, Session.PassedOver rules rivalLast b ↔
      Session.PassedOver rules rivalFirst b :=
    fun b hb => by_contra fun hb' => hnone ⟨b, hb, hb'⟩
  have hiff := Session.delivery_order_iff rules rivalLast rivalFirst (by decide) (by decide)
    (by decide) (by decide) (by decide)
  have hbest := (hiff.mpr hsame).2
  rw [delivered_rivalLast.2, delivered_rivalFirst.2] at hbest
  cases hbest

end Fork

end CoinLedger
