import CoinLedger.Proofs.ChainStructure

/-!
# Fork choice

Which block is at the tip when blocks have been put into an empty store one after the
other, whatever blocks they are. Of blocks with one hash the first to arrive is kept, and
of the blocks that are kept the highest leads; among several of one height it is again the
first to arrive. `Chain.LeadsAmong` says this of the whole history, while
`Chain.addBlock` compares a new block with the tip alone.

The main statement is `Chain.fork_choice`: no delivery fails, what is read from the store
is what the history says, and so is the answer to the next delivery.
-/

namespace CoinLedger.Chain

variable {s t : Store} {bs : List Block} {b b' : Block} {c c' : Contents}

/-! ## Histories -/

/-- The store after some blocks have been stored in order, beginning with an empty one. -/
def deliver (bs : List Block) : Result Store :=
  bs.foldlM (fun s b => Prod.snd <$> addBlock s b) Store.empty

/-- The first block of a history that has the hash. -/
def firstUnder (bs : List Block) (hash : Digest) : Option Block :=
  bs.find? fun b => b.hash = hash

/-- The block is the first one under its hash. -/
def KeptFrom (bs : List Block) (b : Block) : Prop := firstUnder bs b.hash = some b

instance (bs : List Block) (b : Block) : Decidable (KeptFrom bs b) :=
  inferInstanceAs (Decidable (_ = _))

/-- The block is the earliest of the blocks that are kept and have the greatest height. -/
structure LeadsAmong (bs : List Block) (b : Block) : Prop where
  earliest : ∃ before after, bs = before ++ b :: after ∧ (∀ t ∈ before, t.hash ≠ b.hash) ∧
    ∀ t ∈ before, KeptFrom before t → t.height < b.height
  highest : ∀ t ∈ bs, KeptFrom bs t → t.height ≤ b.height

theorem deliver_snoc (bs : List Block) (b : Block) :
    deliver (bs ++ [b]) = deliver bs >>= fun s => Prod.snd <$> addBlock s b := by
  simp only [deliver, List.foldlM_append, List.foldlM_cons, List.foldlM_nil, bind_pure]

theorem firstUnder_snoc (bs : List Block) (b : Block) (hash : Digest) :
    firstUnder (bs ++ [b]) hash =
      (firstUnder bs hash).or (if b.hash = hash then some b else none) := by
  rw [firstUnder, List.find?_append, List.find?_singleton]
  simp only [decide_eq_true_eq]
  rfl

theorem mem_of_firstUnder {hash : Digest} (h : firstUnder bs hash = some b) :
    b ∈ bs ∧ b.hash = hash :=
  ⟨List.mem_of_find?_eq_some h, by simpa using List.find?_some h⟩

theorem firstUnder_eq_none_iff {hash : Digest} :
    firstUnder bs hash = none ↔ ∀ b ∈ bs, b.hash ≠ hash := by
  simp [firstUnder]

theorem KeptFrom.mem (h : KeptFrom bs b) : b ∈ bs := (mem_of_firstUnder h).1

theorem keptFrom_of_firstUnder {hash : Digest} (h : firstUnder bs hash = some b) :
    KeptFrom bs b := by
  rwa [KeptFrom, (mem_of_firstUnder h).2]

theorem KeptFrom.snoc (h : KeptFrom bs b) : KeptFrom (bs ++ [b']) b := by
  rw [KeptFrom, firstUnder_snoc, show firstUnder bs b.hash = some b from h]
  rfl

/-- A block under a hash of its own is kept besides those that were. -/
theorem keptFrom_snoc_of_new (hnew : firstUnder bs b.hash = none) :
    KeptFrom (bs ++ [b]) b' ↔ KeptFrom bs b' ∨ b' = b := by
  rw [KeptFrom, KeptFrom, firstUnder_snoc]
  by_cases hhash : b.hash = b'.hash
  · rw [← hhash, hnew, if_pos rfl]
    constructor
    · intro h
      exact Or.inr (Option.some.inj h).symm
    · rintro (h | rfl)
      · cases h
      · rfl
  · rw [if_neg hhash, Option.or_none]
    exact (or_iff_left fun h => hhash (congrArg Block.hash h.symm)).symm

theorem firstUnder_snoc_of_known (hknown : (firstUnder bs b.hash).isSome) :
    firstUnder (bs ++ [b]) = firstUnder bs := by
  funext hash
  rw [firstUnder_snoc]
  split
  · rename_i heq
    rw [← heq]
    exact Option.or_of_isSome hknown
  · exact Option.or_none

/-- A block before which there is none of its hash is kept. -/
theorem keptFrom_of_split {before after : List Block} (h : ∀ t ∈ before, t.hash ≠ b.hash) :
    KeptFrom (before ++ b :: after) b := by
  rw [KeptFrom, firstUnder, List.find?_append, List.find?_eq_none.mpr (by simpa using h)]
  simp

/-! ## Who leads -/

theorem LeadsAmong.kept (h : LeadsAmong bs b) : KeptFrom bs b := by
  obtain ⟨before, after, rfl, hnew, _⟩ := h.earliest
  exact keptFrom_of_split hnew

/-- A block that leads does not come before another one that does. -/
theorem LeadsAmong.not_before {before between : List Block} (h : LeadsAmong bs b)
    (h' : LeadsAmong bs b') (hnew : ∀ t ∈ before, t.hash ≠ b.hash)
    (hlower : ∀ t ∈ before ++ b :: between, KeptFrom (before ++ b :: between) t →
      t.height < b'.height) : False := by
  have hlt := hlower b (by simp) (keptFrom_of_split hnew)
  have hle := h.highest b' h'.kept.mem h'.kept
  exact UInt64.not_lt.mpr hle hlt

theorem LeadsAmong.unique (h : LeadsAmong bs b) (h' : LeadsAmong bs b') : b = b' := by
  obtain ⟨before, after, heq, hnew, hlower⟩ := h.earliest
  obtain ⟨before', after', heq', hnew', hlower'⟩ := h'.earliest
  rcases List.append_eq_append_iff.mp (heq.symm.trans heq') with
    ⟨between, hbefore, hrest⟩ | ⟨between, hbefore, hrest⟩
  · cases between with
    | nil => exact (List.cons.inj hrest).1
    | cons t between =>
        obtain ⟨rfl, _⟩ := List.cons.inj hrest
        exact (h.not_before h' hnew (hbefore ▸ hlower')).elim
  · cases between with
    | nil => exact (List.cons.inj hrest).1.symm
    | cons t between =>
        obtain ⟨rfl, _⟩ := List.cons.inj hrest
        exact (h'.not_before h hnew' (hbefore ▸ hlower)).elim

theorem LeadsAmong.snoc_of_known (h : LeadsAmong bs b) (hknown : (firstUnder bs b'.hash).isSome) :
    LeadsAmong (bs ++ [b']) b := by
  have hkept : ∀ t, KeptFrom (bs ++ [b']) t ↔ KeptFrom bs t := fun t => by
    rw [KeptFrom, KeptFrom, firstUnder_snoc_of_known hknown]
  obtain ⟨before, after, heq, hfirst⟩ := h.earliest
  refine ⟨⟨before, after ++ [b'], by simp [heq], hfirst⟩, fun t _ ht => ?_⟩
  exact h.highest t ((hkept t).mp ht).mem ((hkept t).mp ht)

/-- A new block that is not higher leaves the lead where it is. -/
theorem LeadsAmong.snoc_of_le (h : LeadsAmong bs b) (hnew : firstUnder bs b'.hash = none)
    (hle : b'.height ≤ b.height) : LeadsAmong (bs ++ [b']) b := by
  obtain ⟨before, after, heq, hfirst⟩ := h.earliest
  refine ⟨⟨before, after ++ [b'], by simp [heq], hfirst⟩, fun t _ ht => ?_⟩
  rcases (keptFrom_snoc_of_new hnew).mp ht with hold | rfl
  · exact h.highest t hold.mem hold
  · exact hle

/-- A new block that is higher than all that are kept takes the lead. -/
theorem leadsAmong_snoc_self (hnew : firstUnder bs b.hash = none)
    (hhigher : ∀ t ∈ bs, KeptFrom bs t → t.height < b.height) : LeadsAmong (bs ++ [b]) b := by
  refine ⟨⟨bs, [], rfl, firstUnder_eq_none_iff.mp hnew, hhigher⟩, fun t _ ht => ?_⟩
  rcases (keptFrom_snoc_of_new hnew).mp ht with hold | rfl
  · exact UInt64.le_of_lt (hhigher t hold.mem hold)
  · exact UInt64.le_refl _

/-! ## What a delivery leaves -/

/-- The contents are those of a history: its first block under every hash, and the tip at
the block that leads. -/
structure Keeps (bs : List Block) (c : Contents) : Prop where
  blocks : c.blocks = firstUnder bs
  noTip : c.tip = none → bs = []
  tip : ∀ hash, c.tip = some hash → ∃ t, LeadsAmong bs t ∧ t.hash = hash

namespace Keeps

theorem nil : Keeps [] Contents.empty where
  blocks := rfl
  noTip _ := rfl
  tip _ h := nomatch h

theorem stored (h : Keeps bs c) (hb : KeptFrom bs b) : c.blocks b.hash = some b := by
  rw [h.blocks]
  exact hb

theorem hasTip (h : Keeps bs c) : c.HasTip := by
  intro hash hc
  obtain ⟨t, ht, rfl⟩ := h.tip hash hc
  exact ⟨t, h.stored ht.kept⟩

/-- To overtake the tip is to be higher than all blocks that are kept. -/
theorem overtakenBy_iff (h : Keeps bs c) :
    c.OvertakenBy b ↔ ∀ t ∈ bs, KeptFrom bs t → t.height < b.height := by
  constructor
  · intro hover t hmem ht
    cases hc : c.tip with
    | none =>
        rw [h.noTip hc] at hmem
        exact absurd hmem List.not_mem_nil
    | some hash =>
        obtain ⟨top, htop, rfl⟩ := h.tip hash hc
        have hlt := hover top.hash top hc (h.stored htop.kept)
        exact UInt64.lt_of_le_of_lt (htop.highest t hmem ht) hlt
  · intro hhigher hash t _ ht
    rw [h.blocks] at ht
    have hkept := keptFrom_of_firstUnder ht
    exact hhigher t hkept.mem hkept

theorem blocks_withBlock (h : Keeps bs c) (hnew : firstUnder bs b.hash = none) :
    (c.withBlock b).blocks = firstUnder (bs ++ [b]) := by
  funext hash
  rw [firstUnder_snoc, ← h.blocks]
  split
  · rename_i heq
    rw [← heq, h.blocks, hnew, Contents.blocks_withBlock_self]
    rfl
  · rename_i hne
    rw [Contents.blocks_withBlock_of_ne c (Ne.symm hne), Option.or_none]

theorem known (h : Keeps bs c) (hknown : (firstUnder bs b.hash).isSome) : Keeps (bs ++ [b]) c where
  blocks := by rw [h.blocks, firstUnder_snoc_of_known hknown]
  noTip hc := by
    rw [h.noTip hc] at hknown
    cases hknown
  tip hash hc := by
    obtain ⟨t, ht, hhash⟩ := h.tip hash hc
    exact ⟨t, ht.snoc_of_known hknown, hhash⟩

theorem beside (h : Keeps bs c) (hnew : firstUnder bs b.hash = none)
    (hnot : ¬ ∀ t ∈ bs, KeptFrom bs t → t.height < b.height) :
    Keeps (bs ++ [b]) (c.withBlock b) where
  blocks := h.blocks_withBlock hnew
  noTip hc := by
    have hc : c.tip = none := hc
    rw [h.noTip hc] at hnot
    exact absurd (fun t ht => absurd ht List.not_mem_nil) hnot
  tip hash hc := by
    obtain ⟨top, htop, hhash⟩ := h.tip hash hc
    refine ⟨top, htop.snoc_of_le hnew ?_, hhash⟩
    by_contra hhigh
    refine hnot fun t hmem ht => ?_
    exact UInt64.lt_of_le_of_lt (htop.highest t hmem ht) (UInt64.not_le.mp hhigh)

theorem overtaken (h : Keeps bs c) (hnew : firstUnder bs b.hash = none)
    (hover : ∀ t ∈ bs, KeptFrom bs t → t.height < b.height) :
    Keeps (bs ++ [b]) ((c.withBlock b).withTip b.hash) where
  blocks := h.blocks_withBlock hnew
  noTip hc := nomatch hc
  tip _ hc := ⟨b, leadsAmong_snoc_self hnew hover, Option.some.inj hc⟩

/-- Who leads is at the tip. -/
theorem tip_eq_some_iff (h : Keeps bs c) {hash : Digest} :
    c.tip = some hash ↔ ∃ t, LeadsAmong bs t ∧ t.hash = hash := by
  constructor
  · exact h.tip hash
  · rintro ⟨t, ht, rfl⟩
    cases hc : c.tip with
    | none =>
        have hmem := ht.kept.mem
        rw [h.noTip hc] at hmem
        exact absurd hmem List.not_mem_nil
    | some name =>
        obtain ⟨t', ht', rfl⟩ := h.tip name hc
        rw [ht.unique ht']

theorem exists_leads (h : Keeps bs c) (hne : bs ≠ []) : ∃ t, LeadsAmong bs t := by
  cases hc : c.tip with
  | none => exact absurd (h.noTip hc) hne
  | some hash =>
      obtain ⟨t, ht, _⟩ := h.tip hash hc
      exact ⟨t, ht⟩

theorem bestHeight_iff (h : Keeps bs c) (hs : s.Holds c) {height : UInt64} :
    bestHeight s = .ok height ↔ ∃ t, LeadsAmong bs t ∧ t.height = height := by
  constructor
  · intro hbest
    cases hc : c.tip with
    | none =>
        rw [bestHeight, Chain.tip, tip?_eq hs, hc] at hbest
        cases hbest
    | some hash =>
        obtain ⟨t, ht, rfl⟩ := h.tip hash hc
        rw [bestHeight_eq hs hc (h.stored ht.kept)] at hbest
        exact ⟨t, ht, Except.ok.inj hbest⟩
  · rintro ⟨t, ht, rfl⟩
    exact bestHeight_eq hs (h.tip_eq_some_iff.mpr ⟨t, ht, rfl⟩) (h.stored ht.kept)

end Keeps

/-- The answer to one more block, and what it leaves. -/
theorem Keeps.addBlock (h : Keeps bs c) (hs : s.Holds c) (hb : b.Fits) :
    ∃ flag t c', addBlock s b = .ok (flag, t) ∧ t.Holds c' ∧ Keeps (bs ++ [b]) c' ∧
      (flag = true ↔ (∀ t ∈ bs, t.hash ≠ b.hash) ∧ ∀ t ∈ bs, KeptFrom bs t → t.height < b.height) ∧
      ((firstUnder bs b.hash).isSome → t = s) := by
  rw [← firstUnder_eq_none_iff]
  rcases addBlock_cases hs h.hasTip hb with
    ⟨hknown, hadd⟩ | ⟨hnew, hnot, t, hadd, ht⟩ | ⟨hnew, hover, t, hadd, ht⟩
  · rw [h.blocks] at hknown
    refine ⟨false, s, c, hadd, hs, h.known hknown, ?_, fun _ => rfl⟩
    simp [Option.ne_none_iff_isSome.mpr hknown]
  · rw [h.overtakenBy_iff] at hnot
    rw [h.blocks] at hnew
    refine ⟨false, t, _, hadd, ht, h.beside hnew hnot, ?_, by simp [hnew]⟩
    simp only [Bool.false_eq_true, false_iff]
    exact fun hboth => hnot hboth.2
  · rw [h.overtakenBy_iff] at hover
    rw [h.blocks] at hnew
    refine ⟨true, t, _, hadd, ht, h.overtaken hnew hover, ?_, by simp [hnew]⟩
    exact iff_of_true rfl ⟨hnew, hover⟩

theorem deliver_snoc_of_ok {flag : Bool} (h : deliver bs = .ok s)
    (hadd : addBlock s b = .ok (flag, t)) :
    deliver (bs ++ [b]) = .ok t := by
  rw [deliver_snoc, h]
  show Prod.snd <$> addBlock s b = _
  rw [hadd]
  rfl

theorem deliver_keeps (hfits : ∀ b ∈ bs, b.Fits) :
    ∃ s c, deliver bs = .ok s ∧ s.Holds c ∧ Keeps bs c := by
  induction bs using List.reverseRecOn with
  | nil => exact ⟨Store.empty, Contents.empty, rfl, Store.holds_empty, .nil⟩
  | append_singleton bs b ih =>
      obtain ⟨s, c, hdeliver, hholds, hkeeps⟩ := ih fun t ht => hfits t (List.mem_append_left _ ht)
      obtain ⟨flag, t, c', hadd, ht, hkeeps', _⟩ :=
        hkeeps.addBlock hholds (hfits b (List.mem_append_right _ List.mem_cons_self))
      exact ⟨t, c', deliver_snoc_of_ok hdeliver hadd, ht, hkeeps'⟩

/-- The lead does not get lower. -/
theorem LeadsAmong.height_le_snoc (h : LeadsAmong bs b) {top : Block}
    (h' : LeadsAmong (bs ++ [b']) top) : b.height ≤ top.height :=
  h'.highest b (List.mem_append_left _ h.kept.mem) h.kept.snoc

/-- However many blocks have been stored in order, beginning with an empty store: all of
them were taken; the record under a hash is the first block that came with it; and the tip
is the block that leads. The next block becomes the tip exactly when its hash is new and it
is higher than all that are kept; if it has come before nothing changes, and the best height
does not fall. -/
theorem fork_choice (bs : List Block) (hfits : ∀ b ∈ bs, b.Fits) :
    ∃ s, deliver bs = .ok s ∧
      (∀ hash, block s hash =
        match firstUnder bs hash with
        | some b => .ok b
        | none => .error (.notFound (.block hash))) ∧
      (∃ tip, tip? s = .ok tip ∧
        ∀ hash, tip = some hash ↔ ∃ t, LeadsAmong bs t ∧ t.hash = hash) ∧
      ∀ b, b.Fits → ∃ flag s', addBlock s b = .ok (flag, s') ∧ deliver (bs ++ [b]) = .ok s' ∧
        (flag = true ↔
          (∀ t ∈ bs, t.hash ≠ b.hash) ∧ ∀ t ∈ bs, KeptFrom bs t → t.height < b.height) ∧
        (b ∈ bs → s' = s) ∧
        ∀ height, bestHeight s = .ok height →
          ∃ height', bestHeight s' = .ok height' ∧ height ≤ height' := by
  obtain ⟨s, c, hdeliver, hs, h⟩ := deliver_keeps hfits
  refine ⟨s, hdeliver, fun hash => ?_, ⟨c.tip, tip?_eq hs, fun hash => h.tip_eq_some_iff⟩,
    fun b hb => ?_⟩
  · have hblock := block_eq hs hash
    rw [h.blocks] at hblock
    exact hblock
  · obtain ⟨flag, s', c', hadd, hs', h', hflag, hsame⟩ := h.addBlock hs hb
    refine ⟨flag, s', hadd, deliver_snoc_of_ok hdeliver hadd, hflag, fun hmem => hsame ?_,
      fun height hbest => ?_⟩
    · rw [Option.isSome_iff_ne_none, ne_eq, firstUnder_eq_none_iff]
      exact fun hnone => hnone b hmem rfl
    · obtain ⟨top, htop, rfl⟩ := (h.bestHeight_iff hs).mp hbest
      obtain ⟨top', htop'⟩ := h'.exists_leads (List.append_ne_nil_of_right_ne_nil _ (by simp))
      exact ⟨top'.height, (h'.bestHeight_iff hs').mpr ⟨top', htop', rfl⟩, htop.height_le_snoc htop'⟩

/-- Of two branches of one height the first to arrive leads, until the other one grows. -/
theorem fork_choice_rivals :
    (∀ b ∈ [Fork.root, Fork.shorter, Fork.longer], b.Fits) ∧
      ∃ s, deliver [Fork.root, Fork.shorter, Fork.longer] = .ok s ∧
        tip? s = .ok (some Fork.shorter.hash) ∧
        ∃ s', addBlock s Fork.longest = .ok (true, s') := by
  have hfits : ∀ b ∈ [Fork.root, Fork.shorter, Fork.longer], b.Fits := by decide
  have hleads : LeadsAmong [Fork.root, Fork.shorter, Fork.longer] Fork.shorter :=
    ⟨⟨[Fork.root], [Fork.longer], rfl, by decide, by decide⟩, by decide⟩
  obtain ⟨s, hdeliver, _, ⟨tip, htip, hiff⟩, hnext⟩ := fork_choice _ hfits
  obtain ⟨flag, s', hadd, _, hflag, _⟩ := hnext Fork.longest (by decide)
  refine ⟨hfits, s, hdeliver, ?_, s', ?_⟩
  · rw [htip, (hiff Fork.shorter.hash).mpr ⟨Fork.shorter, hleads, rfl⟩]
  · rw [hadd, hflag.mpr (by decide)]

end CoinLedger.Chain
