import CoinLedger.Merkle
import Mathlib.Data.List.Basic
import Mathlib.Data.Nat.Log
import Mathlib.Logic.Function.Iterate

/-!
# What a Merkle root commits to

A level of nodes is hashed in pairs, and a last node without neighbour is paired with
itself. So a list of leaves has the root of any longer list that the pairing completes
in the same way; `fill` is the completed list, with as many leaves as the tree has
places. It does not depend on what is hashed, and commutes with maps, so that an
argument about the nodes of one level carries over to the level below.

`fill_eq_or_collision` says that nothing else is lost: equal roots come from lists with
one completion, or two different strings with one hash occur among the strings that are
hashed for the two roots. Trees of different height are told apart at their first leaf,
which must not have the length of two digests.
-/

namespace CoinLedger

/-- Two different strings of the list have one SHA-256. -/
def CollidesAmong (strings : List Bytes) : Prop :=
  ∃ x ∈ strings, ∃ y ∈ strings, IsCollision x y

section

variable {xs ys : List Bytes}

theorem CollidesAmong.mono (h : CollidesAmong xs) (hsub : xs ⊆ ys) : CollidesAmong ys := by
  obtain ⟨x, hx, y, hy, hcollision⟩ := h
  exact ⟨x, hsub hx, y, hsub hy, hcollision⟩

theorem CollidesAmong.append {xs' ys' : List Bytes} (h : CollidesAmong (xs ++ ys)) (hx : xs ⊆ xs')
    (hy : ys ⊆ ys') : CollidesAmong (xs' ++ ys') := by
  apply h.mono
  rw [List.append_subset]
  exact ⟨List.subset_append_of_subset_left _ hx, List.subset_append_of_subset_right _ hy⟩

end

/-- Strings with one hash are equal, or collide. -/
theorem eq_or_collidesAmong {strings : List Bytes} {x y : Bytes} (hx : x ∈ strings)
    (hy : y ∈ strings) (h : sha256 x = sha256 y) : x = y ∨ CollidesAmong strings := by
  by_cases heq : x = y
  · exact Or.inl heq
  · exact Or.inr ⟨x, hx, y, hy, heq, h⟩

/-- Lists of strings with the same hashes are equal, or strings at one place collide. -/
theorem eq_or_collision_of_map {xs ys : List Bytes} (h : xs.map sha256 = ys.map sha256) :
    xs = ys ∨ ∃ i : Nat, ∃ x ∈ xs[i]?, ∃ y ∈ ys[i]?, IsCollision x y := by
  by_cases heq : xs = ys
  · exact Or.inl heq
  right
  obtain ⟨i, hi⟩ : ∃ i : Nat, xs[i]? ≠ ys[i]? := by
    by_contra hall
    push Not at hall
    exact heq (List.ext_getElem? hall)
  have hsha : xs[i]?.map sha256 = ys[i]?.map sha256 := by
    rw [← List.getElem?_map, h, List.getElem?_map]
  cases hx : xs[i]? with
  | none => simp_all
  | some x =>
      cases hy : ys[i]? with
      | none => simp_all
      | some y =>
          simp only [hx, hy, Option.map_some, Option.some.injEq, ne_eq] at hi hsha
          exact ⟨i, x, hx, y, hy, hi, hsha⟩

/-- Lists of strings with the same hashes are equal, or some of the strings collide. -/
theorem eq_or_collidesAmong_of_map {strings xs ys : List Bytes} (hx : xs ⊆ strings)
    (hy : ys ⊆ strings) (h : xs.map sha256 = ys.map sha256) : xs = ys ∨ CollidesAmong strings := by
  refine (eq_or_collision_of_map h).imp_right ?_
  rintro ⟨i, x, hi, y, hi', hcollision⟩
  exact ⟨x, hx (List.mem_of_getElem? hi), y, hy (List.mem_of_getElem? hi'), hcollision⟩

namespace Merkle

/-! ## Pairs -/

section

variable {α β : Type}

/-- Neighbours in pairs; a last one without neighbour is its own. -/
def pairUp : List α → List (α × α)
  | left :: right :: rest => (left, right) :: pairUp rest
  | [last] => [(last, last)]
  | [] => []

def unpair (pairs : List (α × α)) : List α := pairs.flatMap fun p => [p.1, p.2]

theorem length_pairUp (xs : List α) : (pairUp xs).length = (xs.length + 1) / 2 := by
  fun_induction pairUp xs with
  | case1 left right rest ih =>
      simp only [List.length_cons, ih]
      omega
  | case2 last => simp
  | case3 => simp

theorem pairUp_map (f : α → β) (xs : List α) :
    pairUp (xs.map f) = (pairUp xs).map (Prod.map f f) := by
  fun_induction pairUp xs with
  | case1 left right rest ih => simp [pairUp, ih]
  | case2 last => rfl
  | case3 => rfl

theorem unpair_map (f : α → β) (pairs : List (α × α)) :
    unpair (pairs.map (Prod.map f f)) = (unpair pairs).map f := by
  simp [unpair, List.flatMap_map, List.map_flatMap]

theorem pairUp_unpair (pairs : List (α × α)) : pairUp (unpair pairs) = pairs := by
  induction pairs with
  | nil => rfl
  | cons p rest ih =>
      show (p.1, p.2) :: pairUp (unpair rest) = _
      rw [ih]

theorem length_unpair (pairs : List (α × α)) : (unpair pairs).length = 2 * pairs.length := by
  induction pairs with
  | nil => rfl
  | cons p rest ih =>
      show (unpair rest).length + 2 = _
      rw [ih, List.length_cons]
      omega

/-- Both members of a pair come from the list. -/
theorem mem_of_mem_pairUp {xs : List α} {p : α × α} (h : p ∈ pairUp xs) : p.1 ∈ xs ∧ p.2 ∈ xs := by
  fun_induction pairUp xs with
  | case1 left right rest ih =>
      rcases List.mem_cons.mp h with rfl | hrest
      · simp
      · have hboth := ih hrest
        simp [hboth.1, hboth.2]
  | case2 last =>
      rw [List.mem_singleton] at h
      simp [h]
  | case3 => cases h

/-- Pairing loses nothing from the front. -/
theorem isPrefix_unpair_pairUp (xs : List α) : xs <+: unpair (pairUp xs) := by
  fun_induction pairUp xs with
  | case1 left right rest ih =>
      show left :: right :: rest <+: left :: right :: unpair (pairUp rest)
      rwa [List.cons_prefix_cons, List.cons_prefix_cons, and_iff_right rfl, and_iff_right rfl]
  | case2 last => exact ⟨[last], rfl⟩
  | case3 => exact List.prefix_rfl

end

/-! ## Completed lists -/

/-- The list as a tree of the given height completes it. -/
def fillTo : Nat → {α : Type} → List α → List α
  | 0, _, xs => xs
  | height + 1, _, xs => unpair (fillTo height (pairUp xs))

/-- How many times a list is paired up before one node is left. -/
def height {α : Type} (xs : List α) : Nat := Nat.clog 2 xs.length

/-- The list with every last node repeated that pairing repeats. -/
def fill {α : Type} (xs : List α) : List α := fillTo (height xs) xs

section

variable {α β : Type}

theorem height_map (f : α → β) (xs : List α) : height (xs.map f) = height xs := by
  rw [height, height, List.length_map]

theorem height_pairUp {xs : List α} (h : 2 ≤ xs.length) : height xs = height (pairUp xs) + 1 := by
  rw [height, height, length_pairUp, Nat.clog_of_two_le (by decide) h]
  rfl

theorem two_le_length {xs : List α} {n : Nat} (h : height xs = n + 1) : 2 ≤ xs.length := by
  by_contra hlt
  have hzero : height xs = 0 := Nat.clog_of_right_le_one (by omega) 2
  omega

theorem eq_singleton {xs : List α} (hne : xs ≠ []) (h : height xs = 0) : ∃ x, xs = [x] := by
  have hle : xs.length ≤ 1 := by
    by_contra hlt
    have hpos := Nat.clog_pos (b := 2) (by decide) (show 2 ≤ xs.length by omega)
    rw [← height, h] at hpos
    exact Nat.lt_irrefl 0 hpos
  cases xs with
  | nil => exact absurd rfl hne
  | cons x rest =>
      refine ⟨x, ?_⟩
      rw [List.length_cons] at hle
      rw [List.eq_nil_of_length_eq_zero (show rest.length = 0 by omega)]

theorem fillTo_map (n : Nat) (f : α → β) (xs : List α) :
    fillTo n (xs.map f) = (fillTo n xs).map f := by
  induction n generalizing α β with
  | zero => rfl
  | succ n ih => rw [fillTo, fillTo, pairUp_map, ih, unpair_map]

theorem fill_map (f : α → β) (xs : List α) : fill (xs.map f) = (fill xs).map f := by
  rw [fill, height_map, fillTo_map, fill]

/-- Completing brings nothing new into a list. -/
theorem fillTo_subset (n : Nat) (xs : List α) : fillTo n xs ⊆ xs := by
  induction n generalizing α with
  | zero => exact List.Subset.refl xs
  | succ n ih =>
      intro x hx
      obtain ⟨p, hp, hx⟩ := List.mem_flatMap.mp hx
      have hboth := mem_of_mem_pairUp (ih _ hp)
      rcases List.mem_cons.mp hx with rfl | hx
      · exact hboth.1
      · exact List.mem_singleton.mp hx ▸ hboth.2

theorem isPrefix_fillTo (n : Nat) (xs : List α) : xs <+: fillTo n xs := by
  induction n generalizing α with
  | zero => exact List.prefix_rfl
  | succ n ih =>
      refine (isPrefix_unpair_pairUp xs).trans ?_
      obtain ⟨rest, hrest⟩ := ih (pairUp xs)
      refine ⟨unpair rest, ?_⟩
      rw [fillTo, ← hrest, unpair, unpair, unpair, List.flatMap_append]

/-- Of two lists with one completion, one continues the other. -/
theorem isPrefix_of_fill_eq {xs ys : List α} (h : fill xs = fill ys) : xs <+: ys ∨ ys <+: xs := by
  have hxs : xs <+: fill xs := isPrefix_fillTo _ xs
  have hys : ys <+: fill ys := isPrefix_fillTo _ ys
  exact List.prefix_or_prefix_of_prefix hxs (h ▸ hys)

end

/-! ## What is hashed -/

/-- What is hashed for a pair of nodes. -/
def joined (p : Digest × Digest) : Bytes := p.1.bytes ++ p.2.bytes

/-- What is hashed for the level above a level of nodes. -/
def pairings (level : List Digest) : List Bytes := (pairUp level).map joined

/-- What is hashed for all the levels above a level, up to the root. -/
def hashedAbove (level : List Digest) : List Bytes :=
  match level with
  | [] => []
  | [_] => []
  | a :: b :: rest => pairings (a :: b :: rest) ++ hashedAbove (parents (a :: b :: rest))
termination_by level.length
decreasing_by
  rw [length_parents]
  simp only [List.length_cons]
  omega

/-- What is hashed for the root of a list of leaves. -/
def hashed (leaves : List Bytes) : List Bytes := leaves ++ hashedAbove (leaves.map sha256)

theorem length_joined (p : Digest × Digest) : (joined p).length = 64 := by
  rw [joined, List.length_append, p.1.length_eq, p.2.length_eq]

theorem joined_injective : Function.Injective joined := by
  intro p q h
  obtain ⟨hleft, hright⟩ := List.append_inj h (by rw [p.1.length_eq, q.1.length_eq])
  exact Prod.ext (Digest.ext hleft) (Digest.ext hright)

theorem parents_eq (level : List Digest) : parents level = (pairings level).map sha256 := by
  rw [pairings]
  fun_induction pairUp level with
  | case1 left right rest ih =>
      rw [parents, ih]
      rfl
  | case2 last => rfl
  | case3 => rfl

theorem height_parents {level : List Digest} (h : 2 ≤ level.length) :
    height level = height (parents level) + 1 := by
  rw [parents_eq, pairings, height_map, height_map, ← height_pairUp h]

theorem parents_ne_nil {level : List Digest} (h : level ≠ []) : parents level ≠ [] := by
  intro hnil
  have hlength := length_parents level
  have hpos := List.length_pos_iff.mpr h
  rw [hnil, List.length_nil] at hlength
  omega

theorem reduce_parents {level : List Digest} (h : 2 ≤ level.length) :
    reduce level = reduce (parents level) := by
  match level, h with
  | a :: b :: rest, _ => rw [reduce]

theorem hashedAbove_eq {level : List Digest} (h : 2 ≤ level.length) :
    hashedAbove level = pairings level ++ hashedAbove (parents level) := by
  match level, h with
  | a :: b :: rest, _ => rw [hashedAbove]

/-! ## Trees of one height -/

/-- The leaves of two trees of one height and one top are completed to one list, or
strings that were hashed on the way collide. The induction goes down from the top: nodes
with one completion are hashes of pairs with one completion. -/
theorem fillTo_eq_or_collision {n : Nat} {level level' : List Digest} (hne : level ≠ [])
    (hne' : level' ≠ []) (hheight : height level = n) (hheight' : height level' = n)
    (h : reduce level = reduce level') :
    fillTo n level = fillTo n level' ∨ CollidesAmong (hashedAbove level ++ hashedAbove level') := by
  induction n generalizing level level' with
  | zero =>
      obtain ⟨x, rfl⟩ := eq_singleton hne hheight
      obtain ⟨y, rfl⟩ := eq_singleton hne' hheight'
      rw [reduce, reduce] at h
      rw [Option.some.inj h]
      exact Or.inl rfl
  | succ n ih =>
      have htwo := two_le_length hheight
      have htwo' := two_le_length hheight'
      rw [height_parents htwo, Nat.add_right_cancel_iff] at hheight
      rw [height_parents htwo', Nat.add_right_cancel_iff] at hheight'
      rw [reduce_parents htwo, reduce_parents htwo'] at h
      rw [hashedAbove_eq htwo, hashedAbove_eq htwo']
      rcases ih (parents_ne_nil hne) (parents_ne_nil hne') hheight hheight' h with
        hfill | hcollides
      · rw [parents_eq, parents_eq, fillTo_map, fillTo_map] at hfill
        have hsub : fillTo n (pairings level) ⊆ pairings level := fillTo_subset n _
        have hsub' : fillTo n (pairings level') ⊆ pairings level' := fillTo_subset n _
        refine (eq_or_collidesAmong_of_map ?_ ?_ hfill).imp_left fun hpairs => ?_
        · intro x hx
          simp [hsub hx]
        · intro x hx
          simp [hsub' hx]
        · rw [pairings, pairings, fillTo_map, fillTo_map] at hpairs
          rw [fillTo, fillTo, (List.map_injective_iff.mpr joined_injective) hpairs]
      · exact Or.inr
          (hcollides.append (List.subset_append_right _ _) (List.subset_append_right _ _))

/-! ## Trees of different height -/

theorem iterate_parents_ne_nil {level : List Digest} (h : level ≠ []) (n : Nat) :
    parents^[n] level ≠ [] := by
  induction n generalizing level with
  | zero => exact h
  | succ n ih => exact ih (parents_ne_nil h)

/-- The top of a tree is what is left after as many levels as it is high. -/
theorem reduce_eq_head? {n : Nat} {level : List Digest} (hne : level ≠ [])
    (hheight : height level = n) : reduce level = (parents^[n] level).head? := by
  induction n generalizing level with
  | zero =>
      obtain ⟨x, rfl⟩ := eq_singleton hne hheight
      rw [reduce]
      rfl
  | succ n ih =>
      have htwo := two_le_length hheight
      rw [height_parents htwo, Nat.add_right_cancel_iff] at hheight
      rw [reduce_parents htwo, ih (parents_ne_nil hne) hheight, Function.iterate_succ_apply]

/-- What is hashed for any level below the top is hashed for the top. -/
theorem pairings_iterate_subset {n : Nat} {level : List Digest} (h : n < height level) :
    pairings (parents^[n] level) ⊆ hashedAbove level := by
  induction n generalizing level with
  | zero =>
      rw [hashedAbove_eq (two_le_length (Nat.succ_pred_eq_of_pos h).symm)]
      exact List.subset_append_left _ _
  | succ n ih =>
      have htwo := two_le_length (Nat.succ_pred_eq_of_pos (Nat.zero_lt_of_lt h)).symm
      rw [height_parents htwo] at h
      rw [hashedAbove_eq htwo, Function.iterate_succ_apply]
      exact List.Subset.trans (ih (by omega)) (List.subset_append_right _ _)

/-- The first node of the level above is the hash of the first pair. -/
theorem head?_parents {level : List Digest} (hne : level ≠ []) :
    ∃ p, level.head? = some p.1 ∧ joined p ∈ pairings level ∧
      (parents level).head? = some (sha256 (joined p)) := by
  match level, hne with
  | [last], _ => exact ⟨(last, last), rfl, List.mem_cons_self, rfl⟩
  | left :: right :: rest, _ => exact ⟨(left, right), rfl, List.mem_cons_self, rfl⟩

/-- Along the left edge of two trees with one top the nodes at one distance from the top
are the same, or strings collide. -/
theorem head?_eq_or_collision {n extra : Nat} {level level' : List Digest} (hne : level ≠ [])
    (hne' : level' ≠ []) (hheight : height level = n) (hheight' : height level' = n + extra)
    (h : reduce level = reduce level') :
    level.head? = (parents^[extra] level').head? ∨
      CollidesAmong (hashedAbove level ++ hashedAbove level') := by
  induction n generalizing level level' with
  | zero =>
      left
      rw [Nat.zero_add] at hheight'
      obtain ⟨x, rfl⟩ := eq_singleton hne hheight
      rw [← reduce_eq_head? hne' hheight', ← h, reduce]
      rfl
  | succ n ih =>
      have htwo := two_le_length hheight
      have htwo' : 2 ≤ level'.length :=
        two_le_length (n := n + extra) (by rw [hheight']; omega)
      have hedge : pairings (parents^[extra] level') ⊆ hashedAbove level' :=
        pairings_iterate_subset (by rw [hheight']; omega)
      rw [height_parents htwo, Nat.add_right_cancel_iff] at hheight
      rw [height_parents htwo'] at hheight'
      rw [reduce_parents htwo, reduce_parents htwo'] at h
      rcases ih (parents_ne_nil hne) (parents_ne_nil hne') hheight (by omega) h with
        hhead | hcollides
      · rw [← Function.iterate_succ_apply, Function.iterate_succ_apply'] at hhead
        obtain ⟨p, hp, hmem, hsha⟩ := head?_parents hne
        obtain ⟨q, hq, hmem', hsha'⟩ := head?_parents (iterate_parents_ne_nil hne' extra)
        rw [hsha, hsha', Option.some.injEq] at hhead
        have hstrings : joined p ∈ hashedAbove level ++ hashedAbove level' := by
          rw [hashedAbove_eq htwo]
          simp [hmem]
        have hstrings' : joined q ∈ hashedAbove level ++ hashedAbove level' :=
          List.mem_append_right _ (hedge hmem')
        refine (eq_or_collidesAmong hstrings hstrings' hhead).imp_left fun hpairs => ?_
        rw [hp, hq, joined_injective hpairs]
      · rw [hashedAbove_eq htwo, hashedAbove_eq htwo']
        exact Or.inr
          (hcollides.append (List.subset_append_right _ _) (List.subset_append_right _ _))

/-- A tree does not have the top of a higher one: the first leaf of the lower tree would
be hashed to a node, and is not as long as two digests. -/
theorem collision_of_height_lt {leaves leaves' : List Bytes} (hne : leaves ≠ [])
    (hne' : leaves' ≠ []) (hfirst : ∀ x, leaves.head? = some x → x.length ≠ 64)
    (hlt : height leaves < height leaves') (h : root leaves = root leaves') :
    CollidesAmong (hashed leaves ++ hashed leaves') := by
  obtain ⟨extra, hextra⟩ := Nat.exists_eq_add_of_lt hlt
  have hlevel : leaves.map sha256 ≠ [] := by simpa using hne
  have hlevel' : leaves'.map sha256 ≠ [] := by simpa using hne'
  rcases head?_eq_or_collision hlevel hlevel' rfl
    (by rw [height_map, height_map, hextra, Nat.add_assoc]) h with hhead | hcollides
  · rw [Function.iterate_succ_apply'] at hhead
    obtain ⟨q, _, hmem, hsha⟩ := head?_parents (iterate_parents_ne_nil hlevel' extra)
    cases leaves with
    | nil => exact absurd rfl hne
    | cons x rest =>
        rw [hsha, List.map_cons, List.head?_cons, Option.some.injEq] at hhead
        refine ⟨x, by simp [hashed], joined q, ?_, ?_, hhead⟩
        · have hedge : pairings (parents^[extra] (leaves'.map sha256)) ⊆
              hashedAbove (leaves'.map sha256) :=
            pairings_iterate_subset (by rw [height_map]; omega)
          rw [hashed, hashed]
          simp [hedge hmem]
        · intro heq
          exact hfirst x rfl (by rw [heq, length_joined])
  · exact hcollides.append (List.subset_append_right _ _) (List.subset_append_right _ _)

/-! ## Roots -/

/-- Lists of leaves with one root have one completion, or strings that were hashed for
the roots collide. -/
theorem fill_eq_or_collision {leaves leaves' : List Bytes} (hne : leaves ≠ []) (hne' : leaves' ≠ [])
    (hfirst : ∀ x, leaves.head? = some x → x.length ≠ 64)
    (hfirst' : ∀ x, leaves'.head? = some x → x.length ≠ 64) (h : root leaves = root leaves') :
    fill leaves = fill leaves' ∨ CollidesAmong (hashed leaves ++ hashed leaves') := by
  rcases Nat.lt_trichotomy (height leaves) (height leaves') with hlt | heq | hlt
  · exact Or.inr (collision_of_height_lt hne hne' hfirst hlt h)
  · have hlevel : leaves.map sha256 ≠ [] := by simpa using hne
    have hlevel' : leaves'.map sha256 ≠ [] := by simpa using hne'
    rcases fillTo_eq_or_collision hlevel hlevel' (height_map _ _)
      ((height_map _ _).trans heq.symm) h with hfill | hcollides
    · rw [fillTo_map, fillTo_map] at hfill
      rw [fill, fill, ← heq]
      refine eq_or_collidesAmong_of_map ?_ ?_ hfill
      · intro x hx
        simp [hashed, fillTo_subset _ _ hx]
      · intro x hx
        simp [hashed, fillTo_subset _ _ hx]
    · exact Or.inr (hcollides.append (List.subset_append_right _ _) (List.subset_append_right _ _))
  · refine Or.inr ((collision_of_height_lt hne' hne hfirst' hlt h.symm).mono fun x hx => ?_)
    rcases List.mem_append.mp hx with hx | hx <;> simp [hx]

/-- A completed level is reduced to the same top. -/
theorem reduce_fillTo {n : Nat} {level : List Digest} (hne : level ≠ []) (h : height level = n) :
    reduce (fillTo n level) = reduce level := by
  induction n generalizing level with
  | zero => rfl
  | succ n ih =>
      have htwo := two_le_length h
      have hfilled : fillTo n (pairUp level) ≠ [] := by
        intro hnil
        have hfront := isPrefix_fillTo n (pairUp level)
        rw [hnil, List.prefix_nil] at hfront
        have hlength := length_pairUp level
        rw [hfront, List.length_nil] at hlength
        omega
      have hparents : parents (fillTo (n + 1) level) = fillTo n (parents level) := by
        rw [parents_eq, parents_eq, pairings, pairings, fillTo, pairUp_unpair, fillTo_map,
          fillTo_map]
      have hlong : 2 ≤ (fillTo (n + 1) level).length := by
        have hpos := List.length_pos_iff.mpr hfilled
        rw [fillTo, length_unpair]
        omega
      rw [height_parents htwo, Nat.add_right_cancel_iff] at h
      rw [reduce_parents hlong, hparents, ih (parents_ne_nil hne) h, ← reduce_parents htwo]

/-- A list and its completion have one root, so lists with one completion do. -/
theorem root_fill (leaves : List Bytes) : root (fill leaves) = root leaves := by
  cases leaves with
  | nil => rfl
  | cons x rest =>
      rw [root, root, ← fill_map, fill]
      exact reduce_fillTo (by simp) rfl

end Merkle

end CoinLedger
