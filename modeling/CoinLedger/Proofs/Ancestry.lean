import CoinLedger.Proofs.Contents
import Mathlib.Data.List.Nodup
import Mathlib.Data.List.Perm.Subperm

/-!
# Chains of ancestors

`Ancestry` relates a hash to the blocks that lead from it back to a genesis block,
the named block first. Contents in which every block is stored under its own hash
and one level above its parent are `Linked`; there every stored block has exactly
one ancestry, and heights fall by one along it, so that no hash comes twice.

The main statement is `Chain.blocks_eq`: reading the chain of a store that holds
linked contents succeeds and gives the ancestry of the tip. The walk's bound on the
number of blocks is never met, since the blocks of an ancestry have keys of their
own in the store.
-/

namespace CoinLedger

/-- The blocks from a hash back to a genesis block. -/
inductive Ancestry (blocks : Digest → Option Block) : Digest → List Block → Prop
  | genesis {hash : Digest} {b : Block} :
      blocks hash = some b → b.isGenesis = true → Ancestry blocks hash [b]
  | child {hash : Digest} {b : Block} {bs : List Block} :
      blocks hash = some b → b.isGenesis = false → Ancestry blocks b.parent bs →
      Ancestry blocks hash (b :: bs)

/-- Every block is stored under its hash, and is a genesis block or one level above
its parent. -/
structure Contents.Linked (c : Contents) : Prop where
  named : ∀ hash b, c.blocks hash = some b → b.hash = hash
  parent : ∀ hash b, c.blocks hash = some b → b.isGenesis = false →
    ∃ p, c.blocks b.parent = some p ∧ b.height.toNat = p.height.toNat + 1

/-- The active chain: the ancestry of the tip, or no blocks without a tip. -/
def Contents.Active (c : Contents) (bs : List Block) : Prop :=
  match c.tip with
  | none => bs = []
  | some hash => Ancestry c.blocks hash bs

/-! ## Reading one after the other -/

theorem Except.bind_eq_ok {ε α β : Type} {r : Except ε α} {f : α → Except ε β} {b : β} :
    r >>= f = .ok b ↔ ∃ a, r = .ok a ∧ f a = .ok b := by
  cases r with
  | error e => exact ⟨fun h => (nomatch h), fun ⟨_, h, _⟩ => (nomatch h)⟩
  | ok a =>
      constructor
      · intro h
        exact ⟨a, rfl, h⟩
      · rintro ⟨a', ha, h⟩
        exact Except.ok.inj ha ▸ h

/-- Reading one after the other succeeds with the results that the single readings have. -/
theorem Except.mapM_eq_ok_iff {ε α β : Type} {f : α → Except ε β} {xs : List α} {ys : List β} :
    xs.mapM f = .ok ys ↔ List.Forall₂ (fun x y => f x = .ok y) xs ys := by
  induction xs generalizing ys with
  | nil =>
      rw [List.mapM_nil, List.forall₂_nil_left_iff]
      exact ⟨fun h => (Except.ok.inj h).symm, fun h => h ▸ rfl⟩
  | cons x rest ih =>
      simp only [List.mapM_cons, bind_eq_ok, List.forall₂_cons_left_iff, ← ih]
      constructor
      · rintro ⟨y, hy, others, hothers, h⟩
        exact ⟨y, others, hy, hothers, (Except.ok.inj h).symm⟩
      · rintro ⟨y, others, hy, hothers, rfl⟩
        exact ⟨y, hy, others, hothers, rfl⟩

theorem Except.mapM_id_eq_ok_iff {ε α : Type} {results : List (Except ε α)} {ys : List α} :
    results.mapM id = .ok ys ↔ results = ys.map .ok := by
  rw [mapM_eq_ok_iff, ← List.forall₂_eq_eq_eq, List.forall₂_map_right_iff]
  rfl

/-- What has been written can be read one after the other if each of it can be read. -/
theorem Except.mapM_map_eq_ok {ε α β γ : Type} {write : γ → α} {read : α → Except ε β}
    {result : γ → β} {xs : List γ} (h : ∀ x ∈ xs, read (write x) = .ok (result x)) :
    (xs.map write).mapM read = .ok (xs.map result) := by
  rw [mapM_eq_ok_iff, List.forall₂_map_left_iff, List.forall₂_map_right_iff]
  exact List.forall₂_same.mpr h

/-! ## Ancestries -/

namespace Ancestry

variable {blocks more : Digest → Option Block} {hash : Digest} {b : Block} {bs cs : List Block}

theorem unique (h : Ancestry blocks hash bs) (h' : Ancestry blocks hash cs) : bs = cs := by
  induction h generalizing cs with
  | genesis hb hg =>
      cases h' with
      | genesis hb' _ => rw [Option.some.inj (hb.symm.trans hb')]
      | child hb' hg' _ =>
          obtain rfl := Option.some.inj (hb.symm.trans hb')
          rw [hg] at hg'
          cases hg'
  | child hb hg _ ih =>
      cases h' with
      | genesis hb' hg' =>
          obtain rfl := Option.some.inj (hb.symm.trans hb')
          rw [hg] at hg'
          cases hg'
      | child hb' _ hrest' =>
          obtain rfl := Option.some.inj (hb.symm.trans hb')
          rw [ih hrest']

/-- Storing more blocks keeps every ancestry. -/
theorem mono (hsub : ∀ hash b, blocks hash = some b → more hash = some b)
    (h : Ancestry blocks hash bs) : Ancestry more hash bs := by
  induction h with
  | genesis hb hg => exact genesis (hsub _ _ hb) hg
  | child hb hg _ ih => exact child (hsub _ _ hb) hg ih

theorem head_stored (h : Ancestry blocks hash bs) :
    ∃ b rest, bs = b :: rest ∧ blocks hash = some b := by
  cases h with
  | genesis hb _ => exact ⟨_, _, rfl, hb⟩
  | child hb _ _ => exact ⟨_, _, rfl, hb⟩

theorem stored (h : Ancestry blocks hash bs) : ∀ b ∈ bs, ∃ name, blocks name = some b := by
  induction h with
  | genesis hb _ =>
      intro t ht
      rw [List.mem_singleton] at ht
      exact ⟨_, ht ▸ hb⟩
  | child hb _ _ ih =>
      intro t ht
      rcases List.mem_cons.mp ht with rfl | ht
      · exact ⟨_, hb⟩
      · exact ih t ht

/-- What follows the first block of an ancestry is the ancestry of its parent. -/
theorem tail (h : Ancestry blocks hash (b :: bs)) (hne : bs ≠ []) :
    Ancestry blocks b.parent bs := by
  cases h with
  | genesis => exact absurd rfl hne
  | child _ _ hrest => exact hrest

/-- Any later part of an ancestry is the ancestry of its first block. -/
theorem suffix {later earlier : List Block} (h : Ancestry blocks hash (later ++ b :: earlier)) :
    ∃ name, Ancestry blocks name (b :: earlier) := by
  induction later generalizing hash with
  | nil => exact ⟨hash, h⟩
  | cons t later ih => exact ih (h.tail (by simp))

end Ancestry

namespace Contents

variable {c : Contents} {hash : Digest} {b : Block} {bs : List Block}

theorem Active.of_none (ha : c.Active bs) (hc : c.tip = none) : bs = [] := by
  unfold Active at ha
  rwa [hc] at ha

theorem Active.of_some (ha : c.Active bs) (hc : c.tip = some hash) : Ancestry c.blocks hash bs := by
  unfold Active at ha
  rwa [hc] at ha

theorem active_of_some (hc : c.tip = some hash) (ha : Ancestry c.blocks hash bs) : c.Active bs := by
  unfold Active
  rwa [hc]

theorem active_of_none (hc : c.tip = none) : c.Active [] := by
  unfold Active
  rw [hc]

/-- A genesis block at the tip is the whole active chain. -/
theorem active_of_genesis (c : Contents) (hg : b.isGenesis = true) :
    ((c.withBlock b).withTip b.hash).Active [b] :=
  active_of_some rfl (.genesis (blocks_withBlock_self c b) hg)

/-- The active chain does not depend on the index. -/
theorem active_withIndex {m : Index} : (c.withIndex m).Active bs ↔ c.Active bs := Iff.rfl

theorem Active.unique {cs : List Block} (ha : c.Active bs) (ha' : c.Active cs) : bs = cs := by
  cases hc : c.tip with
  | none => rw [ha.of_none hc, ha'.of_none hc]
  | some hash => exact (ha.of_some hc).unique (ha'.of_some hc)

theorem Active.stored (ha : c.Active bs) : ∀ b ∈ bs, ∃ name, c.blocks name = some b := by
  cases hc : c.tip with
  | none =>
      rw [ha.of_none hc]
      intro b hb
      cases hb
  | some hash => exact (ha.of_some hc).stored

/-- In linked contents every stored block has an ancestry. The induction is on the
height, which is the only thing that falls from a block to its parent. -/
theorem Linked.exists_ancestry (hl : c.Linked) (hb : c.blocks hash = some b) :
    ∃ bs, Ancestry c.blocks hash bs := by
  induction hheight : b.height.toNat generalizing hash b with
  | zero =>
      cases hg : b.isGenesis with
      | true => exact ⟨[b], .genesis hb hg⟩
      | false =>
          obtain ⟨p, _, hp⟩ := hl.parent hash b hb hg
          omega
  | succ n ih =>
      cases hg : b.isGenesis with
      | true => exact ⟨[b], .genesis hb hg⟩
      | false =>
          obtain ⟨p, hstored, hp⟩ := hl.parent hash b hb hg
          obtain ⟨bs, hbs⟩ := ih hstored (by omega)
          exact ⟨b :: bs, .child hb hg hbs⟩

/-- Every block of an active chain is at the head of its own ancestry. -/
theorem Linked.suffix {later earlier : List Block} (hl : c.Linked) (ha : c.Active bs)
    (heq : bs = later ++ b :: earlier) : Ancestry c.blocks b.hash (b :: earlier) := by
  subst heq
  cases hc : c.tip with
  | none =>
      exact absurd (ha.of_none hc) (List.append_ne_nil_of_right_ne_nil _ (List.cons_ne_nil _ _))
  | some hash =>
      obtain ⟨name, hname⟩ := (ha.of_some hc).suffix
      obtain ⟨t, rest, hcons, ht⟩ := hname.head_stored
      obtain ⟨rfl, rfl⟩ := List.cons.inj hcons
      rwa [hl.named name _ ht]

/-- Along an ancestry no block is as high as the first one. -/
theorem Linked.height_lt (hl : c.Linked) (h : Ancestry c.blocks hash (b :: bs)) :
    ∀ t ∈ bs, t.height.toNat < b.height.toNat := by
  induction bs generalizing hash b with
  | nil => intro t ht; cases ht
  | cons p bs ih =>
      cases h with
      | child hb hg hrest =>
          obtain ⟨q, hstored, hq⟩ := hl.parent _ _ hb hg
          obtain ⟨p', _, heq, hp⟩ := hrest.head_stored
          obtain ⟨rfl, _⟩ := List.cons.inj heq
          obtain rfl := Option.some.inj (hstored.symm.trans hp)
          intro t ht
          rcases List.mem_cons.mp ht with rfl | ht
          · omega
          · have := ih hrest t ht
            omega

theorem Linked.nodup_hashes (hl : c.Linked) (h : Ancestry c.blocks hash bs) :
    (bs.map Block.hash).Nodup := by
  induction bs generalizing hash with
  | nil => exact List.nodup_nil
  | cons b bs ih =>
      rw [List.map_cons, List.nodup_cons]
      refine ⟨fun hmem => ?_, ?_⟩
      · obtain ⟨t, ht, heq⟩ := List.mem_map.mp hmem
        obtain ⟨nt, hnt⟩ := h.stored t (List.mem_cons_of_mem _ ht)
        obtain ⟨nb, hnb⟩ := h.stored b List.mem_cons_self
        have hname : nt = nb := by rw [← hl.named _ _ hnt, ← hl.named _ _ hnb, heq]
        obtain rfl : t = b := Option.some.inj (hnt.symm.trans (hname ▸ hnb))
        exact Nat.lt_irrefl _ (hl.height_lt h t ht)
      · cases h with
        | genesis => exact List.nodup_nil
        | child _ _ hrest => exact ih hrest

end Contents

/-! ## Walking along the ancestors -/

namespace Chain

variable {s : Store} {c : Contents} {hash : Digest} {bs : List Block}

theorem walkFrom_eq (h : s.Holds c) (ha : Ancestry c.blocks hash bs) {limit : Nat}
    (hle : bs.length ≤ limit) : walkFrom s limit hash = bs.map .ok := by
  induction ha generalizing limit with
  | genesis hb hg =>
      obtain ⟨n, rfl⟩ : ∃ n, limit = n + 1 := ⟨limit - 1, by simp at hle; omega⟩
      rw [walkFrom, block_of_some h hb]
      simp [hg]
  | child hb hg _ ih =>
      obtain ⟨n, rfl⟩ : ∃ n, limit = n + 1 := ⟨limit - 1, by simp at hle; omega⟩
      rw [walkFrom, block_of_some h hb]
      simp only [hg]
      rw [ih (by simpa using hle)]
      rfl

/-! One step of a walk. -/

theorem mapM_walkFrom_of_error {e : LedgerError} (h : block s hash = .error e) (limit : Nat) :
    (walkFrom s (limit + 1) hash).mapM id = .error e := by
  rw [walkFrom, h]
  rfl

theorem mapM_walkFrom_of_genesis {b : Block} (h : block s hash = .ok b) (hg : b.isGenesis = true)
    (limit : Nat) : (walkFrom s (limit + 1) hash).mapM id = .ok [b] := by
  rw [walkFrom, h]
  simp only [hg]
  rfl

theorem mapM_walkFrom_of_parent {b : Block} (h : block s hash = .ok b) (hg : b.isGenesis = false)
    (limit : Nat) : (walkFrom s (limit + 1) hash).mapM id =
      (walkFrom s limit b.parent).mapM id >>= fun bs => .ok (b :: bs) := by
  rw [walkFrom, h]
  simp only [hg, Bool.false_eq_true, if_false, List.mapM_cons]
  rfl

/-- Blocks under different hashes are different records of the store. -/
theorem length_le_size_of_nodup {hashes : List Digest} (hnodup : hashes.Nodup)
    (hstored : ∀ hash ∈ hashes, hasBlock s hash = true) : hashes.length ≤ s.size := by
  have hkeys := hnodup.map fun _ _ => Store.blockKey_injective.mp
  have hsub : hashes.map Store.blockKey ⊆ s.keys := by
    intro key hkey
    obtain ⟨hash, hmem, rfl⟩ := List.mem_map.mp hkey
    rw [Std.ExtTreeMap.mem_keys, Std.ExtTreeMap.mem_iff_isSome_getElem?]
    exact hstored hash hmem
  have hle := (List.subperm_of_subset hkeys hsub).length_le
  rwa [List.length_map, Std.ExtTreeMap.length_keys] at hle

/-- The blocks of an ancestry are records of the store, under keys of their own. -/
theorem length_le_size (h : s.Holds c) (hl : c.Linked) (ha : Ancestry c.blocks hash bs) :
    bs.length ≤ s.size := by
  -- heights fall along an ancestry, so no hash comes twice
  have hle := length_le_size_of_nodup (s := s) (hl.nodup_hashes ha) (by
    intro name hmem
    obtain ⟨b, hb, rfl⟩ := List.mem_map.mp hmem
    obtain ⟨name, hname⟩ := ha.stored b hb
    rw [hasBlock_eq h, hl.named _ _ hname, hname]
    rfl)
  rwa [List.length_map] at hle

/-- Moving the tip changes no block, and so no walk. -/
theorem walkFrom_withTip (s : Store) (tip : Digest) (limit : Nat) (hash : Digest) :
    walkFrom (s.withTip tip) limit hash = walkFrom s limit hash := by
  have hblock : block (s.withTip tip) = block s := by
    funext name
    rw [block, block, Store.get?_withTip, if_neg (Store.tipKey_ne_blockKey name)]
  induction limit generalizing hash with
  | zero => rfl
  | succ limit ih =>
      rw [walkFrom, walkFrom, hblock]
      simp only [ih]

/-- The chain of a store whose tip has been moved to a hash. -/
theorem blocks_withTip (s : Store) (hash : Digest) : blocks (s.withTip hash) =
    (walkFrom s ((s.withTip hash).size + 1) hash).mapM id := by
  have htip : tip? (s.withTip hash) = .ok (some hash) := by
    rw [tip?, Store.get?_withTip, if_pos rfl]
    simp only [Digest.ofBytes_bytes]
  rw [blocks, walk, htip, ← walkFrom_withTip s hash]
  rfl

theorem walk_eq (h : s.Holds c) (hl : c.Linked) (ha : c.Active bs) :
    walk s = .ok (bs.map .ok) := by
  rw [walk, tip?_eq h]
  cases hc : c.tip with
  | none =>
      rw [ha.of_none hc]
      rfl
  | some hash =>
      replace ha := ha.of_some hc
      -- so the walk ends at a genesis block before its bound does
      have hle := length_le_size h hl ha
      show Except.ok (walkFrom s (s.size + 1) hash) = _
      rw [walkFrom_eq h ha (by omega)]

/-- Reading the chain gives the active chain of the contents. -/
theorem blocks_eq (h : s.Holds c) (hl : c.Linked) (ha : c.Active bs) : blocks s = .ok bs := by
  rw [blocks, walk_eq h hl ha]
  exact Except.mapM_id_eq_ok_iff.mpr rfl

/-! ## Walks in any store -/

theorem hasBlock_of_block {b : Block} (h : block s hash = .ok b) : hasBlock s hash = true := by
  unfold block at h
  rw [hasBlock]
  cases hget : s.get? (Store.blockKey hash) with
  | none =>
      rw [hget] at h
      cases h
  | some data => rfl

/-- Whatever the records are: the blocks that are read from a hash back along the parents,
each with the hash that it was read under. The walk ends at a genesis block, or with the
error of a block that cannot be read. -/
inductive Walks (s : Store) : Digest → List (Digest × Block) → Option LedgerError → Prop
  | genesis {hash : Digest} {b : Block} :
      block s hash = .ok b → b.isGenesis = true → Walks s hash [(hash, b)] none
  | broken {hash : Digest} {e : LedgerError} : block s hash = .error e → Walks s hash [] (some e)
  | parent {hash : Digest} {b : Block} {steps : List (Digest × Block)}
      {ending : Option LedgerError} :
      block s hash = .ok b → b.isGenesis = false → Walks s b.parent steps ending →
      Walks s hash ((hash, b) :: steps) ending

namespace Walks

variable {steps steps' : List (Digest × Block)} {ending ending' : Option LedgerError}

theorem block_of_mem (h : Walks s hash steps ending) : ∀ p ∈ steps, block s p.1 = .ok p.2 := by
  induction h with
  | genesis hb _ => simpa using hb
  | broken _ => simp
  | parent hb _ _ ih => simpa using ⟨hb, by simpa using ih⟩

theorem unique (h : Walks s hash steps ending) (h' : Walks s hash steps' ending') :
    steps = steps' ∧ ending = ending' := by
  induction h generalizing steps' with
  | genesis hb hg =>
      cases h' with
      | genesis hb' _ =>
          obtain rfl := Except.ok.inj (hb.symm.trans hb')
          exact ⟨rfl, rfl⟩
      | broken he => cases hb.symm.trans he
      | parent hb' hg' _ =>
          obtain rfl := Except.ok.inj (hb.symm.trans hb')
          cases hg.symm.trans hg'
  | broken he =>
      cases h' with
      | genesis hb' _ => cases he.symm.trans hb'
      | broken he' => exact ⟨rfl, congrArg some (Except.error.inj (he.symm.trans he'))⟩
      | parent hb' _ _ => cases he.symm.trans hb'
  | parent hb hg _ ih =>
      cases h' with
      | genesis hb' hg' =>
          obtain rfl := Except.ok.inj (hb.symm.trans hb')
          cases hg.symm.trans hg'
      | broken he => cases hb.symm.trans he
      | parent hb' _ hrest' =>
          obtain rfl := Except.ok.inj (hb.symm.trans hb')
          obtain ⟨rfl, rfl⟩ := ih hrest'
          exact ⟨rfl, rfl⟩

/-- What is left of the walk from a hash on it. -/
theorem rest {name : Digest} (h : Walks s hash steps ending) (hmem : name ∈ steps.map Prod.fst) :
    ∃ rest, Walks s name rest ending ∧ rest.length ≤ steps.length := by
  induction h with
  | genesis hb hg =>
      obtain rfl : name = _ := by simpa using hmem
      exact ⟨_, .genesis hb hg, Nat.le_refl _⟩
  | broken _ => cases hmem
  | parent hb hg hrest ih =>
      rcases List.mem_cons.mp hmem with rfl | hmem
      · exact ⟨_, .parent hb hg hrest, Nat.le_refl _⟩
      · obtain ⟨rest, hname, hle⟩ := ih hmem
        exact ⟨rest, hname, Nat.le_succ_of_le hle⟩

/-- No hash comes twice, since the walk from it would have two lengths. -/
theorem nodup (h : Walks s hash steps ending) : (steps.map Prod.fst).Nodup := by
  induction h with
  | genesis _ _ => exact List.nodup_singleton _
  | broken _ => exact List.nodup_nil
  | parent hb hg hrest ih =>
      refine List.nodup_cons.mpr ⟨fun hmem => ?_, ih⟩
      obtain ⟨rest, hname, hle⟩ := hrest.rest hmem
      rw [(hname.unique (.parent hb hg hrest)).1, List.length_cons] at hle
      omega

theorem length_le_size (h : Walks s hash steps ending) : steps.length ≤ s.size := by
  have hle := length_le_size_of_nodup h.nodup fun name hname => by
    obtain ⟨p, hp, rfl⟩ := List.mem_map.mp hname
    exact hasBlock_of_block (h.block_of_mem p hp)
  rwa [List.length_map] at hle

/-- A walk with room for one more step than there are finds the end. -/
theorem mapM_walkFrom (h : Walks s hash steps ending) {limit : Nat} (hlt : steps.length < limit) :
    (walkFrom s limit hash).mapM id =
      match ending with
      | none => .ok (steps.map Prod.snd)
      | some e => .error e := by
  induction h generalizing limit with
  | genesis hb hg =>
      obtain ⟨n, rfl⟩ := Nat.exists_eq_succ_of_ne_zero (Nat.ne_zero_of_lt hlt)
      exact mapM_walkFrom_of_genesis hb hg n
  | broken he =>
      obtain ⟨n, rfl⟩ := Nat.exists_eq_succ_of_ne_zero (Nat.ne_zero_of_lt hlt)
      exact mapM_walkFrom_of_error he n
  | @parent _ _ _ ending hb hg _ ih =>
      obtain ⟨n, rfl⟩ := Nat.exists_eq_succ_of_ne_zero (Nat.ne_zero_of_lt hlt)
      rw [mapM_walkFrom_of_parent hb hg, ih (Nat.lt_of_succ_lt_succ hlt)]
      cases ending <;> rfl

/-- A store that keeps every block keeps the walks that end at a genesis block. -/
theorem mono {t : Store} (h : Walks s hash steps none)
    (hkeep : ∀ name b, block s name = .ok b → block t name = .ok b) : Walks t hash steps none := by
  generalize hending : (none : Option LedgerError) = ending at h
  induction h with
  | genesis hb hg => exact .genesis (hkeep _ _ hb) hg
  | broken _ => cases hending
  | parent hb hg _ ih => exact .parent (hkeep _ _ hb) hg (ih hending)

end Walks

/-- The walk from the tip reads these blocks and ends at a genesis block; without a tip
there are no blocks to read. -/
def ReachesGenesis (s : Store) (bs : List Block) : Prop :=
  tip? s = .ok none ∧ bs = [] ∨
    ∃ tip steps, tip? s = .ok (some tip) ∧ Walks s tip steps none ∧ bs = steps.map Prod.snd

/-- The tip record is malformed, or the walk from the tip meets a block that is missing or
cannot be decoded. -/
def BreaksOff (s : Store) (e : LedgerError) : Prop :=
  tip? s = .error e ∨ ∃ tip steps, tip? s = .ok (some tip) ∧ Walks s tip steps (some e)

theorem blocks_of_reachesGenesis (h : ReachesGenesis s bs) : blocks s = .ok bs := by
  rcases h with ⟨htip, rfl⟩ | ⟨tip, steps, htip, hwalks, rfl⟩
  · rw [blocks, walk, htip]
    rfl
  · rw [blocks, walk, htip]
    exact hwalks.mapM_walkFrom (Nat.lt_succ_of_le hwalks.length_le_size)

/-- Blocks that are read without an error end at a genesis block, by induction on the
bound of the walk. -/
theorem exists_walks {limit : Nat} (h : (walkFrom s limit hash).mapM id = .ok bs) :
    ∃ steps, Walks s hash steps none ∧ bs = steps.map Prod.snd := by
  induction limit generalizing hash bs with
  | zero => cases h
  | succ limit ih =>
      cases hb : block s hash with
      | error e =>
          rw [mapM_walkFrom_of_error hb] at h
          cases h
      | ok b =>
          cases hg : b.isGenesis with
          | true =>
              rw [mapM_walkFrom_of_genesis hb hg] at h
              obtain rfl := Except.ok.inj h
              exact ⟨_, .genesis hb hg, rfl⟩
          | false =>
              rw [mapM_walkFrom_of_parent hb hg] at h
              cases hrest : (walkFrom s limit b.parent).mapM id with
              | error e =>
                  rw [hrest] at h
                  cases h
              | ok rest =>
                  rw [hrest] at h
                  obtain rfl := Except.ok.inj h
                  obtain ⟨steps, hwalks, rfl⟩ := ih hrest
                  exact ⟨_, .parent hb hg hwalks, rfl⟩

theorem blocks_eq_ok_iff : blocks s = .ok bs ↔ ReachesGenesis s bs := by
  refine ⟨fun h => ?_, blocks_of_reachesGenesis⟩
  rw [blocks, walk] at h
  cases htip : tip? s with
  | error e =>
      rw [htip] at h
      cases h
  | ok tip =>
      rw [htip] at h
      cases tip with
      | none => exact Or.inl ⟨htip, (Except.ok.inj h).symm⟩
      | some hash =>
          obtain ⟨steps, hwalks, hbs⟩ := exists_walks h
          exact Or.inr ⟨hash, steps, htip, hwalks, hbs⟩

/-- A store with the same tip that keeps every block has the same chain. -/
theorem ReachesGenesis.mono {t : Store} (h : ReachesGenesis s bs) (htip : tip? t = tip? s)
    (hkeep : ∀ name b, block s name = .ok b → block t name = .ok b) : ReachesGenesis t bs := by
  rcases h with ⟨hnone, rfl⟩ | ⟨tip, steps, hsome, hwalks, rfl⟩
  · exact Or.inl ⟨htip.trans hnone, rfl⟩
  · exact Or.inr ⟨tip, steps, htip.trans hsome, hwalks.mono hkeep, rfl⟩

theorem blocks_of_breaksOff {e : LedgerError} (h : BreaksOff s e) : blocks s = .error e := by
  rcases h with htip | ⟨tip, steps, htip, hwalks⟩
  · rw [blocks, walk, htip]
    rfl
  · rw [blocks, walk, htip]
    exact hwalks.mapM_walkFrom (Nat.lt_succ_of_le hwalks.length_le_size)

end Chain

end CoinLedger
