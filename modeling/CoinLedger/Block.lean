import CoinLedger.Merkle
import CoinLedger.Transaction.Basic

/-!
# Blocks

A block lists transactions on top of a parent block. Its hash is the one that the
nonce search found for it; it commits to the parent, to the Merkle root of the
transactions and to the nonce, and neither to the time nor to the height.
-/

namespace CoinLedger

structure Block where
  /-- Seconds since 1970 when the block was put together. -/
  timestamp : Int64
  hash : Digest
  transactions : List Transaction
  /-- Hash of the parent, zero for a genesis block. -/
  parent : Digest
  nonce : UInt64
  height : UInt64
deriving DecidableEq

namespace Block

instance : Record Block where
  encode b :=
    Bytes.littleEndian 8 b.timestamp.toUInt64.toNat ++ b.hash.bytes ++ b.parent.bytes ++
      Bytes.littleEndian 8 b.nonce.toNat ++ Bytes.littleEndian 8 b.height.toNat ++
      Record.encodeList b.transactions
  read := do
    let timestamp ← Reader.number 8
    let hash ← Reader.digest
    let parent ← Reader.digest
    let nonce ← Reader.number 8
    let height ← Reader.number 8
    let transactions ← Record.readList
    return ⟨(UInt64.ofNat timestamp).toInt64, hash, transactions, parent,
      UInt64.ofNat nonce, UInt64.ofNat height⟩

def isGenesis (b : Block) : Bool := b.parent.isZero

/-- The Merkle root over the encodings of the transactions, zero without any. -/
def merkleRoot (b : Block) : Digest :=
  (Merkle.root (b.transactions.map Record.encode)).getD Digest.zero

end Block

end CoinLedger
