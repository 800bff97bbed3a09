import CoinLedger.Transaction.Basic

/-!
# Index entries

An entry of the index of unspent outputs belongs to one transaction and lists
those of its outputs that are still unspent, each with its place among all outputs
of the transaction, so that what is selected from an entry names the real output.
-/

namespace CoinLedger

structure Entry where
  outputs : List (UInt32 × Output)
deriving DecidableEq

namespace Entry

/-- All outputs of a new transaction. -/
def ofTransaction (tx : Transaction) : Entry := ⟨tx.indexedOutputs⟩

def push (e : Entry) (place : UInt32) (o : Output) : Entry := ⟨e.outputs ++ [(place, o)]⟩

def isEmpty (e : Entry) : Bool := e.outputs.isEmpty

/-- Whether the output at a place is unspent. -/
def holds (e : Entry) (place : UInt32) : Bool := e.outputs.any (·.1 == place)

/-- The entry without the output at a place. -/
def erase (e : Entry) (place : UInt32) : Entry := ⟨e.outputs.filter (·.1 != place)⟩

instance : Record Entry where
  encode e :=
    VarInt.ofLength e.outputs ++
      e.outputs.flatMap fun (place, o) => VarInt.encode place.toUInt64 ++ Record.encode o
  read := do
    let count ← VarInt.readLength
    let outputs ← Reader.times count do
      let place ← VarInt.read
      let o ← Record.read
      return (place.toUInt32, o)
    return ⟨outputs⟩

@[simp]
theorem holds_erase (e : Entry) (p q : UInt32) : (e.erase p).holds q = (e.holds q && q != p) := by
  simp only [holds, erase, List.any_filter]
  rw [Bool.eq_iff_iff]
  simp only [List.any_eq_true, Bool.and_eq_true, bne_iff_ne, ne_eq, beq_iff_eq]
  constructor
  · rintro ⟨x, hx, hne, rfl⟩
    exact ⟨⟨x, hx, rfl⟩, hne⟩
  · rintro ⟨⟨x, hx, rfl⟩, hne⟩
    exact ⟨x, hx, hne, rfl⟩

end Entry

end CoinLedger
