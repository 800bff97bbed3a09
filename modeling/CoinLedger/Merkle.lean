import CoinLedger.Hashing

/-!
# Merkle roots

The leaves are hashed, and neighbours are hashed together level by level until
one node is left. A level with an odd number of nodes repeats its last one, at
every level anew. No leaves have no root.

`subtree` reads the same root from the top: the node of height `k` over the
leaves from `o` on joins the two nodes of height `k - 1` below it, and takes the
left one twice where there are no leaves on the right.
-/

namespace CoinLedger.Merkle

def node (left right : Digest) : Digest :=
  sha256 (left.bytes ++ right.bytes)

/-- The level above a level of nodes; a last node without neighbour is its own. -/
def parents : List Digest → List Digest
  | left :: right :: rest => node left right :: parents rest
  | [last] => [node last last]
  | [] => []

theorem length_parents (level : List Digest) : (parents level).length = (level.length + 1) / 2 := by
  fun_induction parents level with
  | case1 left right rest ih => simp only [List.length_cons, ih]; omega
  | case2 last => simp
  | case3 => rfl

/-- The node that remains when a level is reduced until one is left. -/
def reduce (level : List Digest) : Option Digest :=
  match level with
  | [] => none
  | [top] => some top
  | a :: b :: rest => reduce (parents (a :: b :: rest))
termination_by level.length
decreasing_by
  rw [length_parents]
  simp only [List.length_cons]
  omega

def root (leaves : List Bytes) : Option Digest :=
  reduce (leaves.map sha256)

/-! ## The tree from the top -/

/-- The node of height `k` whose first leaf is number `o`. -/
def subtree (leaves : List Bytes) : Nat → Nat → Digest
  | 0, o => sha256 (leaves.getD o [])
  | k + 1, o =>
    let left := subtree leaves k o
    if o + 1 <<< k < leaves.length then node left (subtree leaves k (o + 1 <<< k))
    else node left left

end CoinLedger.Merkle
