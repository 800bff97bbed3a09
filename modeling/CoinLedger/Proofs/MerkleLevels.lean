import CoinLedger.Proofs.MerkleTree
import Mathlib.Order.Bounds.Defs
import Mathlib.Tactic.Ring

/-!
# The levels of a Merkle tree

The root of a list of leaves is computed from below: round after round, neighbours are
hashed together, and a last node without neighbour is hashed with itself. `getElem?_levelAt`
says what every round leaves: node number `i` after `k` rounds is the node of height `k`
over the leaves from `i * 2 ^ k` on, read from the top. So `root_eq_subtree` can name the
root, and the number of rounds.

`eq_or_collidesAtNode` compares two computations node by node, from the root down. Lists
of one length go through levels of one length; where two levels agree, so do the pairs that
were hashed for them, and with the pairs the levels below, unless two different strings
were hashed at one and the same place.
-/

namespace CoinLedger.Merkle

variable {leaves leaves' : List Bytes}

/-! ## Levels -/

/-- The nodes that some rounds of hashing neighbours together leave. -/
def levelAt (leaves : List Bytes) (rounds : Nat) : List Digest :=
  parents^[rounds] (leaves.map sha256)

theorem levelAt_zero (leaves : List Bytes) : levelAt leaves 0 = leaves.map sha256 := rfl

theorem levelAt_succ (leaves : List Bytes) (k : Nat) :
    levelAt leaves (k + 1) = parents (levelAt leaves k) :=
  Function.iterate_succ_apply' _ _ _

theorem getElem?_parents (level : List Digest) (i : Nat) : (parents level)[i]? =
    level[2 * i]?.map fun left => node left (level[2 * i + 1]?.getD left) := by
  fun_induction parents level generalizing i with
  | case1 left right rest ih =>
      cases i with
      | zero => rfl
      | succ i => simp [ih, Nat.mul_add]
  | case2 last => cases i <;> simp [Nat.mul_add]
  | case3 => simp

/-- The right half of a tree counts only where it has leaves. -/
theorem subtree_succ (leaves : List Bytes) (k o : Nat) : subtree leaves (k + 1) o =
    node (subtree leaves k o)
      (if o + 2 ^ k < leaves.length then subtree leaves k (o + 2 ^ k) else subtree leaves k o) := by
  simp only [subtree, Nat.one_shiftLeft]
  split <;> rfl

/-- Every node of every level is the node that the tree has at this place. -/
theorem getElem?_levelAt (leaves : List Bytes) (k i : Nat) : (levelAt leaves k)[i]? =
    if i * 2 ^ k < leaves.length then some (subtree leaves k (i * 2 ^ k)) else none := by
  induction k generalizing i with
  | zero =>
      rw [levelAt_zero, List.getElem?_map]
      by_cases h : i < leaves.length <;> simp [h, subtree]
  | succ k ih =>
      -- node `i` is hashed from the nodes `2 * i` and `2 * i + 1` of the level below
      have hleft : 2 * i * 2 ^ k = i * 2 ^ (k + 1) := by ring
      have hright : (2 * i + 1) * 2 ^ k = i * 2 ^ (k + 1) + 2 ^ k := by ring
      rw [levelAt_succ, getElem?_parents, ih, ih, hleft, hright]
      by_cases h : i * 2 ^ (k + 1) < leaves.length
      · rw [if_pos h, if_pos h, Option.map_some, subtree_succ]
        split <;> rfl
      · rw [if_neg h, if_neg h, Option.map_none]

/-- Rounds are left to do just as long as the tree is higher than the rounds are many. -/
theorem one_lt_length_levelAt (leaves : List Bytes) (k : Nat) :
    1 < (levelAt leaves k).length ↔ k < height leaves := by
  rw [← not_iff_not, Nat.not_lt, ← List.getElem?_eq_none_iff, getElem?_levelAt, height,
    Nat.lt_clog_iff_pow_lt (by decide)]
  simp

theorem root_eq_head? (leaves : List Bytes) :
    root leaves = (levelAt leaves (height leaves)).head? := by
  cases leaves with
  | nil => simp [root, reduce, levelAt, height]
  | cons x rest => exact reduce_eq_head? (by simp) (height_map _ _)

/-- The rounds go on until one node is left, as many as it takes for a full tree to have
room for the leaves; and the node that is left is the top of this tree. Without leaves
there is no root. -/
theorem root_eq_subtree (leaves : List Bytes) :
    root leaves = (if leaves = [] then none else some (subtree leaves (height leaves) 0)) ∧
      IsLeast {k | leaves.length ≤ 2 ^ k} (height leaves) ∧
      ∀ rounds, 1 < (levelAt leaves rounds).length ↔ rounds < height leaves := by
  refine ⟨?_, ⟨?_, ?_⟩, one_lt_length_levelAt leaves⟩
  · rw [root_eq_head?, List.head?_eq_getElem?, getElem?_levelAt]
    simp [List.length_pos_iff]
  · exact Nat.le_pow_clog (by decide) _
  · intro k hk
    exact Nat.clog_le_of_le_pow hk

/-! ## Strings hashed at one place -/

/-- What is hashed for the nodes of a level, number by number: the leaves, or pairs of the
nodes below. -/
def hashedAt (leaves : List Bytes) : Nat → List Bytes
  | 0 => leaves
  | k + 1 => pairings (levelAt leaves k)

/-- Two different strings with one SHA-256 are hashed for nodes of one level and number. -/
def CollidesAtNode (leaves leaves' : List Bytes) : Prop :=
  ∃ k ≤ height leaves, ∃ i : Nat, ∃ x ∈ (hashedAt leaves k)[i]?, ∃ y ∈ (hashedAt leaves' k)[i]?,
    IsCollision x y

theorem map_sha256_hashedAt (leaves : List Bytes) (k : Nat) :
    (hashedAt leaves k).map sha256 = levelAt leaves k := by
  cases k with
  | zero => rfl
  | succ k => rw [hashedAt, levelAt_succ, parents_eq]

/-- Up to the top of the tree these are the strings that are hashed for the root. -/
theorem hashedAt_subset {k : Nat} (h : k ≤ height leaves) : hashedAt leaves k ⊆ hashed leaves := by
  cases k with
  | zero => exact List.subset_append_left _ _
  | succ k =>
      apply List.subset_append_of_subset_right
      apply pairings_iterate_subset
      rwa [height_map]

/-- What is hashed above the leaves is as long as two digests. -/
theorem length_of_mem_hashedAt {k : Nat} {x : Bytes} (h : x ∈ hashedAt leaves (k + 1)) :
    x.length = 64 := by
  obtain ⟨p, _, rfl⟩ := List.mem_map.mp h
  exact length_joined p

/-- The two strings are hashed for the two roots, both as leaves or both as pairs. -/
theorem CollidesAtNode.among (hlength : leaves.length = leaves'.length)
    (h : CollidesAtNode leaves leaves') : ∃ x ∈ hashed leaves, ∃ y ∈ hashed leaves',
      IsCollision x y ∧ (x ∈ leaves ∧ y ∈ leaves' ∨ x.length = 64 ∧ y.length = 64) := by
  obtain ⟨k, hk, i, x, hx, y, hy, hcollision⟩ := h
  have hk' : k ≤ height leaves' := by rwa [height, ← hlength]
  have hxmem := List.mem_of_getElem? hx
  have hymem := List.mem_of_getElem? hy
  refine ⟨x, hashedAt_subset hk hxmem, y, hashedAt_subset hk' hymem, hcollision, ?_⟩
  cases k with
  | zero => exact Or.inl ⟨hxmem, hymem⟩
  | succ k => exact Or.inr ⟨length_of_mem_hashedAt hxmem, length_of_mem_hashedAt hymem⟩

/-! ## From the root down -/

theorem length_levelAt_congr (h : leaves.length = leaves'.length) (k : Nat) :
    (levelAt leaves k).length = (levelAt leaves' k).length := by
  induction k with
  | zero => simp [levelAt_zero, h]
  | succ k ih => simp only [levelAt_succ, length_parents, ih]

theorem eq_of_pairings_eq {level level' : List Digest} (hlength : level.length = level'.length)
    (h : pairings level = pairings level') : level = level' := by
  have hpairs : pairUp level = pairUp level' :=
    List.map_injective_iff.mpr joined_injective h
  have hfront := isPrefix_unpair_pairUp level
  have hfront' := isPrefix_unpair_pairUp level'
  rw [hpairs] at hfront
  exact (List.prefix_of_prefix_length_le hfront hfront' hlength.le).eq_of_length hlength

/-- Where two levels agree, so do the strings that were hashed for their nodes. -/
theorem hashedAt_eq_or_collidesAtNode {k : Nat} (hk : k ≤ height leaves)
    (h : levelAt leaves k = levelAt leaves' k) :
    hashedAt leaves k = hashedAt leaves' k ∨ CollidesAtNode leaves leaves' := by
  rw [← map_sha256_hashedAt, ← map_sha256_hashedAt] at h
  refine (eq_or_collision_of_map h).imp_right ?_
  rintro ⟨i, x, hx, y, hy, hcollision⟩
  exact ⟨k, hk, i, x, hx, y, hy, hcollision⟩

/-- And so do the leaves, with all the levels in between. -/
theorem eq_or_collidesAtNode_of_levelAt {k : Nat} (hlength : leaves.length = leaves'.length)
    (hk : k ≤ height leaves) (h : levelAt leaves k = levelAt leaves' k) :
    leaves = leaves' ∨ CollidesAtNode leaves leaves' := by
  induction k with
  | zero => exact hashedAt_eq_or_collidesAtNode hk h
  | succ k ih =>
      rcases hashedAt_eq_or_collidesAtNode hk h with hstrings | hcollides
      · apply ih (Nat.le_of_succ_le hk)
        exact eq_of_pairings_eq (length_levelAt_congr hlength k) hstrings
      · exact Or.inr hcollides

/-- Lists of one length with one root are equal, or two different strings with one SHA-256
were hashed at one and the same place: for a leaf of each, or for two nodes above. -/
theorem eq_or_collidesAtNode (hlength : leaves.length = leaves'.length)
    (h : root leaves = root leaves') : leaves = leaves' ∨ CollidesAtNode leaves leaves' := by
  apply eq_or_collidesAtNode_of_levelAt hlength le_rfl
  have hheight : height leaves = height leaves' := by rw [height, height, hlength]
  have hlengths := length_levelAt_congr hlength (height leaves)
  have htop := one_lt_length_levelAt leaves (height leaves)
  rw [root_eq_head?, root_eq_head?, ← hheight] at h
  refine List.ext_getElem? fun i => ?_
  cases i with
  | zero => rwa [← List.head?_eq_getElem?, ← List.head?_eq_getElem?]
  | succ i =>
      rw [List.getElem?_eq_none, List.getElem?_eq_none]
      · omega
      · omega

/-- Three leaves, written down and counted up. Lists that were not equal would exhibit two
strings with one SHA-256. -/
theorem eq_or_collidesAtNode_three :
    [[1], [2], [3]] = (List.range 3).map (fun i => [UInt8.ofNat (i + 1)]) ∨
      CollidesAtNode [[1], [2], [3]] ((List.range 3).map fun i => [UInt8.ofNat (i + 1)]) :=
  eq_or_collidesAtNode rfl rfl

end CoinLedger.Merkle
