import CoinLedger.Block

/-!
# Proof of work

A difficulty of `d` bits admits the hashes below `2 ^ (256 - d)`. A block is
sealed by a nonce for which the hash of parent, Merkle root, nonce and difficulty
is admitted; the search tries the nonces in order from zero.

A search can be called off. It looks for the call at every nonce that is a
multiple of `pollInterval`; a `Schedule` says at which nonces the call has been
made.
-/

namespace CoinLedger

@[ext]
structure Difficulty where
  bits : Nat
  pos : 0 < bits
  lt : bits < 256

instance : DecidableEq Difficulty := fun _ _ => decidable_of_iff _ Difficulty.ext_iff.symm

namespace Difficulty

def ofNat? (n : Nat) : Option Difficulty :=
  if h : 0 < n ∧ n < 256 then some ⟨n, h.1, h.2⟩ else none

/-- The least number that is no longer admitted. -/
def target (d : Difficulty) : Digest := Digest.ofNat (1 <<< (256 - d.bits))

def admits (d : Difficulty) (hash : Digest) : Bool := hash < d.target

/-- What a block's hash is the hash of. -/
def sealingInput (d : Difficulty) (parent merkleRoot : Digest) (nonce : UInt64) : Bytes :=
  parent.bytes ++ merkleRoot.bytes ++ Bytes.bigEndian 8 nonce.toNat ++ Bytes.bigEndian 8 d.bits

/-- The hash that a block has with a nonce. -/
def sealHash (d : Difficulty) (b : Block) (nonce : UInt64) : Digest :=
  sha256 (d.sealingInput b.parent b.merkleRoot nonce)

/-- Whether the block carries the hash that belongs to it and that is admitted. -/
def isSealed (d : Difficulty) (b : Block) : Bool :=
  let hash := d.sealHash b b.nonce
  hash = b.hash && d.admits hash

end Difficulty

/-! ## The nonce search -/

/-- Whether the search has been called off when it comes to a nonce. -/
abbrev Schedule := Nat → Bool

namespace Schedule

/-- The search is never called off. -/
def never : Schedule := fun _ => false

/-- The search has been called off before it starts. -/
def always : Schedule := fun _ => true

end Schedule

/-- What a search found. -/
structure Seal where
  nonce : UInt64
  hash : Digest
  /-- The number of hashes that were computed. -/
  attempts : UInt64
deriving DecidableEq

namespace Seal

def pollInterval : Nat := 1024

/-- Tries the nonces from one on, after some attempts; none if the search is called
off or no nonce is left. -/
def searchFrom (admits : Digest → Bool) (hashWith : UInt64 → Digest) (calledOff : Schedule)
    (nonce : Nat) (attempts : UInt64) : Option Seal :=
  if nonce < UInt64.size then
    if nonce % pollInterval = 0 && calledOff nonce then none
    else
      let hash := hashWith (UInt64.ofNat nonce)
      let attempts := attempts + 1
      if admits hash then some ⟨UInt64.ofNat nonce, hash, attempts⟩
      else searchFrom admits hashWith calledOff (nonce + 1) attempts
  else none
termination_by UInt64.size - nonce

/-- Hashes per second; a span of no length counts as the smallest one there is
between `1` and the next number. -/
def rate (attempts : UInt64) (seconds : Float) : Float :=
  let epsilon := Float.scaleB 1.0 (-52)
  attempts.toFloat / (if seconds < epsilon then epsilon else seconds)

end Seal

/-- Searches for a nonce that seals the block. -/
def Difficulty.search (d : Difficulty) (b : Block) (calledOff : Schedule) : Option Seal :=
  let root := b.merkleRoot
  Seal.searchFrom d.admits (fun nonce => sha256 (d.sealingInput b.parent root nonce)) calledOff 0 0

end CoinLedger
