import CoinLedger.Hashing.Hmac
import CoinLedger.Signature.Curve
import CoinLedger.Signature.Scheme

/-!
# ECDSA over secp256k1

A signature is a pair of numbers `r` and `s`, 32 bytes each. Signing is
deterministic: the one-time number comes from a generator that is built on HMAC
(`NonceState`) and is fed the secret key and the digest as it stands. Of the two
values of `s` that a signature admits, the smaller one is made and only the smaller
one is accepted.
-/

namespace CoinLedger.Secp256k1

structure Signature where
  r : Nat
  s : Nat
deriving DecidableEq

namespace Signature

def bytes (sig : Signature) : Bytes :=
  Bytes.bigEndian 32 sig.r ++ Bytes.bigEndian 32 sig.s

/-- Reads a pair of numbers, each of them below the group order. -/
def ofBytes? (bytes : Bytes) : Option Signature :=
  if bytes.length = 64 then
    let sig : Signature := ⟨Bytes.ofBigEndian (bytes.take 32), Bytes.ofBigEndian (bytes.drop 32)⟩
    if sig.r < groupOrder ∧ sig.s < groupOrder then some sig else none
  else none

/-- The value of `s` that is not above half the group order. -/
def lowS (s : Nat) : Nat := if s ≤ groupOrder / 2 then s else groupOrder - s

/-- The signature with the one-time number `k`, if that number gives one. -/
def withNonce? (secret : SecretKey) (z k : Nat) : Option Signature :=
  if k = 0 ∨ groupOrder ≤ k then none
  else
    match generatorTimes k with
    | none => none
    | some point =>
      let r := point.x % groupOrder
      let s := invMod groupOrder k * (z + r * secret.value) % groupOrder
      if r = 0 ∨ s = 0 then none else some ⟨r, lowS s⟩

/-- Whether the signature holds for the digest value `z` under a public point. -/
def holdsFor (sig : Signature) (point : Affine) (z : Nat) : Bool :=
  if sig.r = 0 ∨ groupOrder ≤ sig.r ∨ sig.s = 0 ∨ groupOrder / 2 < sig.s then false
  else
    let w := invMod groupOrder sig.s
    let sum := Jacobian.add
      (Jacobian.smul (z * w % groupOrder) (Jacobian.ofAffine generator))
      (Jacobian.smul (sig.r * w % groupOrder) (Jacobian.ofAffine point))
    match sum.toAffine? with
    | none => false
    | some found => found.x % groupOrder = sig.r

end Signature

/-! ## One-time numbers -/

/-- The state of the generator: a key and the value last given out. -/
structure NonceState where
  key : Bytes
  value : Bytes

namespace NonceState

/-- Mixes a byte and some data into the state. -/
def stir (st : NonceState) (tag : UInt8) (data : Bytes) : NonceState :=
  let key := (hmacSha256 st.key (st.value ++ tag :: data)).bytes
  ⟨key, (hmacSha256 key st.value).bytes⟩

def seed (secret : SecretKey) (digest : Digest) : NonceState :=
  let data := secret.bytes ++ digest.bytes
  ((NonceState.mk (List.replicate 32 0) (List.replicate 32 1)).stir 0 data).stir 1 data

/-- The next value of the generator. -/
def step (st : NonceState) : NonceState :=
  ⟨st.key, (hmacSha256 st.key st.value).bytes⟩

/-- The first of the next `tries` values that gives a signature. -/
def firstSignature (secret : SecretKey) (z : Nat) : Nat → NonceState → Option Signature
  | 0, _ => none
  | tries + 1, st =>
    let next := st.step
    match Signature.withNonce? secret z (Bytes.ofBigEndian next.value) with
    | some sig => some sig
    | none => firstSignature secret z tries (next.stir 0 [])

end NonceState

/-- A value of the generator is useless with a chance of less than one in
`2 ^ 127`, so the bound on the number of tries is never met. -/
def sign (secret : SecretKey) (digest : Digest) : Bytes :=
  match (NonceState.seed secret digest).firstSignature secret digest.toNat 64 with
  | some sig => sig.bytes
  | none => []

def publicPoint (secret : SecretKey) : Affine :=
  (generatorTimes secret.value).getD ⟨0, 0⟩

def verify (key : Bytes) (digest : Digest) (signature : Bytes) : Bool :=
  match Signature.ofBytes? signature, Affine.ofBytes? key with
  | some sig, some point => sig.holdsFor point digest.toNat
  | _, _ => false

/-- ECDSA as a signature scheme: keys are pairs of coordinates, signatures pairs
of numbers, both of 64 bytes. -/
def scheme : SignatureScheme where
  publicKey := fun secret => (publicPoint secret).bytes
  sign := sign
  verify := verify

end CoinLedger.Secp256k1
