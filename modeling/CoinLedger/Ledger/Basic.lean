import CoinLedger.Rules
import CoinLedger.Unspent.Index

/-!
# The ledger

A ledger writes to a store under the rules of one chain. All writing goes through
`commitBlock`: it stores a block and, if that moves the tip, brings the index
along, step by step where the block extends the tip and by a rebuild where the tip
jumps to another branch.

Corruption that is met while writing halts the ledger: the reason is put into the
store, so that every ledger opened on it refuses to write too, until `reindex`
succeeds.
-/

namespace CoinLedger

structure Ledger where
  rules : Rules
  store : Store
  /-- Whether this ledger met corruption since its last rebuild of the index. -/
  halted : Bool

namespace Ledger

/-- A ledger on a store, before it has met any corruption. -/
def onStore (rules : Rules) (store : Store) : Ledger := ⟨rules, store, false⟩

/-- Whether writing is refused until the index is rebuilt. -/
def isHalted (l : Ledger) : Bool := l.halted || l.store.haltReason?.isSome

def ensureWritable (l : Ledger) : Result Unit :=
  if l.isHalted then .error (.corruptStore .halted) else .ok ()

/-- The ledger after a write that left the given store; a fatal error halts it. -/
def afterWrite {α : Type} (l : Ledger) (outcome : Result α) (s : Store) : Result α × Ledger :=
  match outcome with
  | .ok value => (.ok value, { l with store := s })
  | .error e =>
    if e.isFatal then
      (.error e, { l with store := s.markHalted e.message, halted := true })
    else (.error e, { l with store := s })

/-! ## Transactions against the chain -/

/-- Whether a transaction's signatures hold; one that refers to an unknown
transaction does not verify. -/
def verifyTransaction (l : Ledger) (tx : Transaction) : Result Bool :=
  match Chain.references l.store tx with
  | .ok refs => .ok (tx.verifies l.rules.scheme refs)
  | .error (.notFound _) => .ok false
  | .error e => .error e

/-- What the transactions of a block have taken and created so far. -/
structure Spending where
  taken : List Outpoint
  /-- Ids with the number of their outputs, the latest first. -/
  created : List (Digest × Nat)

namespace Spending

def empty : Spending := ⟨[], []⟩

/-- Whether there is an output to take: one created in the same block if there is a
transaction of that id, else one that the index holds. -/
def isAvailable (sp : Spending) (s : Store) (o : Outpoint) : Result Bool :=
  match sp.created.lookup o.source with
  | some count => .ok (o.index.toNat < count)
  | none => return (← Unspent.entry? s o.source).any (·.holds o.index)

/-- Takes the output that an input of the transaction with the given id consumes. -/
def take (s : Store) (id : Digest) (sp : Spending) (i : Input) : Result Spending :=
  match i.outpoint? with
  | none => .error (.verificationFailed id)
  | some o => do
    if (← sp.isAvailable s o) && o ∉ sp.taken then return { sp with taken := o :: sp.taken }
    else throw (.verificationFailed id)

def addTransaction (s : Store) (sp : Spending) (tx : Transaction) : Result Spending := do
  let sp ← tx.spends.foldlM (take s tx.id) sp
  return { sp with created := (tx.id, tx.outputs.length) :: sp.created }

end Spending

/-- Every input must consume an output that the index holds, or one created earlier
in the list, and no output may be consumed twice. -/
def checkSpendable (s : Store) (txs : List Transaction) : Result Unit := do
  discard (txs.foldlM (Spending.addTransaction s) Spending.empty)

/-! ## Writing -/

/-- Whether a block continues the active chain, or begins one in a store that has
none. -/
def extendsTip (s : Store) (b : Block) : Result Bool := do
  match ← Chain.tip? s with
  | some hash => return b.parent = hash
  | none => return b.isGenesis

/-- Stores a block after checking what it spends, and says whether it has become
the tip. -/
def storeBlock (s : Store) (b : Block) (onTip : Bool) : Result (Bool × Store) := do
  if onTip && !Chain.hasBlock s b.hash then checkSpendable s b.transactions
  Chain.addBlock s b

/-- Brings the index to a block that has become the tip. -/
def followTip (s : Store) (b : Block) (onTip : Bool) : Result Store := do
  if onTip then Unspent.update s b
  else return (← Unspent.rebuild s).2

/-- Stores a block and brings the index along, with the store as it is left. When
the index cannot follow, the block has been stored all the same. -/
def placeBlock (s : Store) (b : Block) : Result Bool × Store :=
  let placed := do
    let onTip ← extendsTip s b
    return (onTip, ← storeBlock s b onTip)
  match placed with
  | .error e => (.error e, s)
  | .ok (_, false, s) => (.ok false, s)
  | .ok (onTip, true, s) =>
    match followTip s b onTip with
    | .error e => (.error e, s)
    | .ok s => (.ok true, s)

/-- Stores a block and says whether it has become the tip. -/
def commitBlock (l : Ledger) (b : Block) : Result Bool × Ledger :=
  match l.ensureWritable with
  | .error e => (.error e, l)
  | .ok () =>
    let (outcome, s) := placeBlock l.store b
    l.afterWrite outcome s

/-- Rebuilds the index from the chain, and ends a halt. -/
def reindex (l : Ledger) : Result Nat × Ledger :=
  match Unspent.rebuild l.store with
  | .error e => (.error e, l)
  | .ok (count, s) => (.ok count, { l with store := s.clearHalted, halted := false })

/-! ## Blocks from elsewhere -/

/-- The checks of a block against its parent; a genesis block has none. -/
def checkParent (l : Ledger) (b : Block) : Result Unit :=
  if b.isGenesis then .ok ()
  else
    match Chain.block l.store b.parent with
    | .ok parent => (b.checkHeight parent).mapError .invalidBlock
    | .error (.notFound _) => .error (.invalidBlock .unknownParent)
    | .error e => .error e

def checkSignatures (l : Ledger) : List Transaction → Result Unit
  | [] => .ok ()
  | tx :: rest => do
    if !tx.isCoinbase then
      if !(← l.verifyTransaction tx) then throw (.verificationFailed tx.id)
    checkSignatures l rest

/-- Whether a block may be committed, whatever it spends. -/
def checkBlock (l : Ledger) (b : Block) : Result Unit := do
  (l.rules.checkBlock b).mapError .invalidBlock
  l.checkParent b
  l.checkSignatures b.transactions

/-- Checks a block received from elsewhere and commits it. -/
def acceptBlock (l : Ledger) (b : Block) : Result Bool × Ledger :=
  match l.checkBlock b with
  | .error e => (.error e, l)
  | .ok () => l.commitBlock b

end Ledger

end CoinLedger
