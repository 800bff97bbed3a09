import CoinLedger.Ledger.Basic
import CoinLedger.Wallet.Payment

/-!
# Making blocks

A ledger makes blocks of its own in three steps that other writes may come
between: a candidate is put together on top of the tip, the nonce search seals it,
and the sealed block is committed. A block that meets a rival on the tip when it
is committed has been superseded.
-/

namespace CoinLedger

/-- What a block to be mined consists of. -/
structure Candidate where
  transactions : List Transaction
  parent : Digest
  height : UInt64
deriving DecidableEq

namespace Ledger

/-! ## The first block -/

/-- The note in the coinbase of the first block. -/
def genesisNote : Bytes := Bytes.ofText "First Transaction from Genesis"

def sealGenesis (l : Ledger) (timestamp : Int64) (lock : Bytes) : Result Block := do
  l.ensureWritable
  if (← Chain.tip? l.store).isSome then throw (.config .chainExists)
  l.rules.difficulty.sealGenesis timestamp (Transaction.coinbase lock genesisNote l.rules.reward)

/-- Stores the first block and builds the index, with the store as it is left. -/
def placeGenesis (s : Store) (b : Block) : Result Block × Store :=
  match Chain.addBlock s b with
  | .error e => (.error e, s)
  | .ok (_, s) =>
    match Unspent.rebuild s with
    | .error e => (.error e, s)
    | .ok (_, s) => (.ok b, s)

/-- Begins a chain whose first reward goes to a locking hash. -/
def createGenesis (l : Ledger) (timestamp : Int64) (lock : Bytes) : Result Block × Ledger :=
  match l.sealGenesis timestamp lock with
  | .error e => (.error e, l)
  | .ok b =>
    let (outcome, s) := placeGenesis l.store b
    l.afterWrite outcome s

/-! ## Candidates -/

/-- The note in the coinbase of a later block. -/
def rewardNote (miner : Bytes) (height : UInt64) : Bytes :=
  Bytes.ofText ("Reward to " ++ Hex.encode miner ++ " at height " ++ toString height.toNat)

/-- Transactions to be mined must verify, and none may be a coinbase. -/
def checkPending (l : Ledger) : List Transaction → Result Unit
  | [] => .ok ()
  | tx :: rest => do
    if tx.isCoinbase then throw (.verificationFailed tx.id)
    if !(← l.verifyTransaction tx) then throw (.verificationFailed tx.id)
    checkPending l rest

/-- The block that would follow the tip: a coinbase for the miner, then the
transactions. -/
def candidate (l : Ledger) (txs : List Transaction) (miner : Bytes) : Result Candidate := do
  l.checkPending txs
  let parent ← Chain.tip l.store
  match nextHeight? (← Chain.block l.store parent).height with
  | none => throw (.invalidBlock .heightExhausted)
  | some height =>
    let coinbase := Transaction.coinbase miner (rewardNote miner height) l.rules.reward
    checkSpendable l.store (coinbase :: txs)
    return ⟨coinbase :: txs, parent, height⟩

def sealCandidate (l : Ledger) (timestamp : Int64) (c : Candidate) (calledOff : Schedule) :
    Result Block :=
  l.rules.difficulty.sealBlock timestamp c.transactions c.parent c.height calledOff

/-- Commits a block that was sealed here. -/
def commitMined (l : Ledger) (b : Block) : Result Block × Ledger :=
  match l.commitBlock b with
  | (.error e, l) => (.error e, l)
  | (.ok false, l) => (.error (.superseded b.hash), l)
  | (.ok true, l) => (.ok b, l)

/-- Makes a block of a candidate and commits it. -/
def mineCandidate (l : Ledger) (timestamp : Int64) (c : Candidate) (calledOff : Schedule) :
    Result Block × Ledger :=
  match l.sealCandidate timestamp c calledOff with
  | .error e => (.error e, l)
  | .ok b => l.commitMined b

/-- Mines transactions on top of the tip; the reward goes to the miner. -/
def mineBlock (l : Ledger) (timestamp : Int64) (txs : List Transaction) (miner : Bytes)
    (calledOff : Schedule) : Result Block × Ledger :=
  match l.candidate txs miner with
  | .error e => (.error e, l)
  | .ok c => l.mineCandidate timestamp c calledOff

/-! ## Transactions of this ledger's users -/

/-- Builds and signs a payment. -/
def newTransaction (l : Ledger) (sender : SecretKey) (recipient : Bytes) (amount : UInt64) :
    Result Transaction :=
  Payment.build l.rules.scheme l.store sender recipient amount

/-- Signs a transaction against the chain; returns it as it is left. -/
def signTransaction (l : Ledger) (tx : Transaction) (secret : SecretKey) :
    Transaction × Result Unit :=
  match Chain.references l.store tx with
  | .error e => (tx, .error e)
  | .ok refs => tx.signOrFail l.rules.scheme secret refs

end Ledger

/-! ## Mining jobs -/

/-- A search that runs beside other work, and can be called off. -/
structure MiningJob where
  candidate : Candidate
  calledOff : Bool

namespace MiningJob

def height (j : MiningJob) : UInt64 := j.candidate.height

def cancel (j : MiningJob) : MiningJob := { j with calledOff := true }

/-- Whether a block of some height from elsewhere makes the search pointless. -/
def isSupersededBy (j : MiningJob) (height : UInt64) : Bool := j.height ≤ height

/-- Calls the search off if a block of some height from elsewhere supersedes it. -/
def onArrival (j : MiningJob) (height : UInt64) : MiningJob :=
  if j.isSupersededBy height then j.cancel else j

def schedule (j : MiningJob) : Schedule := fun _ => j.calledOff

end MiningJob

namespace Ledger

def startMining (l : Ledger) (txs : List Transaction) (miner : Bytes) : Result MiningJob :=
  return ⟨← l.candidate txs miner, false⟩

/-- The end of a job, by what has become of it meanwhile. -/
def finishMining (l : Ledger) (timestamp : Int64) (j : MiningJob) : Result Block × Ledger :=
  l.mineCandidate timestamp j.candidate j.schedule

end Ledger

end CoinLedger
