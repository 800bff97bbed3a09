import CoinLedger.Error
import CoinLedger.ProofOfWork
import CoinLedger.Signature.Scheme

/-!
# The rules of a chain

What all ledgers of one chain agree on: the difficulty, the greatest reward of a
block and the signature scheme. A block is checked against the rules alone here,
and against its parent; whether its inputs can be spent is a question to a
ledger. The checks are made in a fixed order and the first that fails is
reported.
-/

namespace CoinLedger

/-- The difficulty of some number of bits, or what is wrong with it. -/
def Difficulty.ofBits (bits : UInt32) : Result Difficulty :=
  match Difficulty.ofNat? bits.toNat with
  | some d => .ok d
  | none => .error (.config (.difficultyOutOfRange bits))

structure Rules where
  difficulty : Difficulty
  reward : UInt64
  scheme : SignatureScheme

namespace Rules

/-- The value that the first transaction creates must not exceed the reward. -/
def checkReward (r : Rules) (coinbase : Transaction) : Except ValidationError Unit :=
  match totalValue? coinbase.outputs with
  | none => .error .rewardOverflow
  | some paid => if r.reward < paid then .error (.excessiveReward r.reward paid) else .ok ()

/-- The checks of a block that need no other block. -/
def checkBlock (r : Rules) (b : Block) : Except ValidationError Unit :=
  match b.transactions with
  | [] => .error .noTransactions
  | first :: others => do
    if !r.difficulty.isSealed b then throw .invalidProofOfWork
    if !first.isCoinbase then throw .missingCoinbase
    if others.any Transaction.isCoinbase then throw .coinbaseNotFirst
    checkReward r first
    if b.transactions.any fun tx => tx.contentHash ≠ tx.id then throw .invalidTransactionId
    if b.isGenesis && b.height ≠ 0 then throw .invalidGenesisHeight

end Rules

/-- The height above a height, none above the greatest one. -/
def nextHeight? (height : UInt64) : Option UInt64 :=
  if height.toNat + 1 < UInt64.size then some (height + 1) else none

/-- A block's height must be one more than its parent's. -/
def Block.checkHeight (b parent : Block) : Except ValidationError Unit :=
  match nextHeight? parent.height with
  | none => .error .heightExhausted
  | some next =>
    if b.height = next then .ok () else .error (.invalidHeight parent.height b.height)

/-! ## Sealing -/

/-- Seals transactions into a block on top of a parent. -/
def Difficulty.sealBlock (d : Difficulty) (timestamp : Int64) (transactions : List Transaction)
    (parent : Digest) (height : UInt64) (calledOff : Schedule) : Result Block :=
  if transactions.isEmpty then .error .emptyBlock
  else
    let draft : Block := ⟨timestamp, Digest.zero, transactions, parent, 0, height⟩
    match d.search draft calledOff with
    | none => .error .cancelled
    | some found => .ok { draft with nonce := found.nonce, hash := found.hash }

/-- Seals the first block of a chain, which holds one coinbase. -/
def Difficulty.sealGenesis (d : Difficulty) (timestamp : Int64) (coinbase : Transaction) :
    Result Block :=
  d.sealBlock timestamp [coinbase] Digest.zero 0 .never

end CoinLedger
