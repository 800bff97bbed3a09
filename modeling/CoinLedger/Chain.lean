import CoinLedger.Block
import CoinLedger.Store
import CoinLedger.Transaction.Signing

/-!
# The chain in the store

Blocks are found by their hash and linked to their parents; the tip record names
the block at the end of the active chain. A new block is stored under its hash,
and becomes the tip if it is higher than the tip: of blocks of one height the
first to arrive stays.

The active chain is read from the tip back to a genesis block. A chain has no
more blocks than the store has records, so links that lead further run in a
circle and end the walk with an error.
-/

namespace CoinLedger.Chain

/-! ## Looking up -/

def decodeBlock (data : Bytes) : Result Block :=
  (Record.decode data).mapError .undecodable

def block (s : Store) (hash : Digest) : Result Block :=
  match s.get? (Store.blockKey hash) with
  | some data => decodeBlock data
  | none => .error (.notFound (.block hash))

def hasBlock (s : Store) (hash : Digest) : Bool :=
  (s.get? (Store.blockKey hash)).isSome

/-- The tip's hash, none in a store without a chain. -/
def tip? (s : Store) : Result (Option Digest) :=
  match s.get? Store.tipKey with
  | none => .ok none
  | some data =>
    match Digest.ofBytes data with
    | .ok hash => .ok (some hash)
    | .error e => .error (.corruptStore (.badDigest e))

def tip (s : Store) : Result Digest := do
  match ← tip? s with
  | some hash => return hash
  | none => throw (.notFound .chain)

def bestHeight (s : Store) : Result UInt64 := do
  return (← block s (← tip s)).height

/-! ## Walking -/

/-- The blocks from a hash back to a genesis block, at most `limit` of them. The
first block that cannot be read ends the walk as an error. -/
def walkFrom (s : Store) : Nat → Digest → List (Result Block)
  | 0, _ => [.error (.corruptStore .endlessChain)]
  | limit + 1, hash =>
    match block s hash with
    | .error e => [.error e]
    | .ok b => if b.isGenesis then [.ok b] else .ok b :: walkFrom s limit b.parent

/-- The walk along the active chain; only a malformed tip record is an error of
its own. -/
def walk (s : Store) : Result (List (Result Block)) := do
  match ← tip? s with
  | none => return []
  | some hash => return walkFrom s (s.size + 1) hash

/-- The blocks of the active chain from the tip to genesis. -/
def blocks (s : Store) : Result (List Block) := do
  (← walk s).mapM id

def hashes (s : Store) : Result (List Digest) :=
  return (← blocks s).map Block.hash

/-! ## Finding transactions -/

/-- The first transaction with an id along a walk. -/
def findIn (id : Digest) : List (Result Block) → Result Transaction
  | [] => .error (.notFound (.transaction id))
  | .error e :: _ => .error e
  | .ok b :: rest =>
    match b.transactions.find? fun tx => tx.id = id with
    | some tx => .ok tx
    | none => findIn id rest

def findTransaction (s : Store) (id : Digest) : Result Transaction := do
  findIn id (← walk s)

/-- Adds the transaction that an input refers to, unless it is there already. -/
def addReference (s : Store) (refs : References) (i : Input) : Result References :=
  if (refs.find? i.source).isSome then .ok refs
  else do return (← findTransaction s i.source) :: refs

/-- The transactions that the inputs of a transaction refer to. -/
def references (s : Store) (tx : Transaction) : Result References :=
  tx.spends.foldlM (addReference s) []

/-! ## Storing -/

/-- Whether a new block takes the place of the tip. -/
def overtakesTip (s : Store) (b : Block) : Result Bool := do
  match ← tip? s with
  | none => return true
  | some hash =>
    match s.get? (Store.blockKey hash) with
    | none => throw (.corruptStore (.missingTip hash))
    | some data => return (← decodeBlock data).height < b.height

/-- Stores a block, and says whether it has become the tip. A known block changes
nothing. -/
def addBlock (s : Store) (b : Block) : Result (Bool × Store) :=
  if hasBlock s b.hash then .ok (false, s)
  else do
    let stored := s.insert (Store.blockKey b.hash) (Record.encode b)
    if ← overtakesTip stored b then
      return (true, stored.insert Store.tipKey b.hash.bytes)
    else
      return (false, stored)

end CoinLedger.Chain
