import CoinLedger.Signature.Scheme
import CoinLedger.Transaction.Basic

/-!
# Signing transactions

Every input has a digest of its own to sign: the hash of the transaction without
its id, signatures and public keys, in which the public key of that one input is
replaced by the locking hash of the output it consumes. Signing goes through the
inputs in order and recomputes the id at the end; an input whose output cannot be
found stops it, and what was signed before stays signed.
-/

namespace CoinLedger

/-- The transactions that inputs refer to, found by their ids; of two with one id the
first counts. Nothing but the outputs is read of a transaction that is found, so one
that is filed under another name than its id counts as one whose id is that name. -/
abbrev References := List Transaction

namespace References

def find? (refs : References) (id : Digest) : Option Transaction :=
  List.find? (fun tx => tx.id = id) refs

/-- The output that an input consumes. -/
def output? (refs : References) (i : Input) : Option Output := do
  let place ← i.place?
  let tx ← find? refs i.source
  tx.outputs[place.toNat]?

end References

namespace Transaction

/-- What an input signs: the trimmed transaction with the locking hash of the
consumed output in place of that input's public key, and no id. -/
def signingPreimage (tx : Transaction) (position : Nat) (lock : Bytes) : Bytes :=
  let bare := tx.trimmed
  idPreimage { bare with inputs := bare.inputs.modify position ({ · with key := lock }) }

def signingDigest (tx : Transaction) (position : Nat) (lock : Bytes) : Digest :=
  sha256 (tx.signingPreimage position lock)

/-! ## Making signatures -/

/-- Signs the inputs from one position on, up to the first whose output is not
among the references; returns the inputs and that one. -/
def signInputs (S : SignatureScheme) (secret : SecretKey) (refs : References) (tx : Transaction) :
    Nat → List Input → List Input × Option Input
  | _, [] => ([], none)
  | position, i :: rest =>
    match refs.output? i with
    | none => (i :: rest, some i)
    | some o =>
      let signed := { i with signature := S.sign secret (tx.signingDigest position o.lock) }
      let (others, missing) := signInputs S secret refs tx (position + 1) rest
      (signed :: others, missing)

/-- The transaction as signing leaves it, and the input whose output was not
found, if one stopped the signing. A coinbase needs no signature. -/
def sign (S : SignatureScheme) (secret : SecretKey) (refs : References) (tx : Transaction) :
    Transaction × Option Input :=
  if tx.isCoinbase then (tx, none)
  else
    match signInputs S secret refs tx 0 tx.inputs with
    | (inputs, none) => (withContentId { tx with inputs := inputs }, none)
    | (inputs, some missing) => ({ tx with inputs := inputs }, some missing)

/-! ## Checking signatures -/

/-- Whether an input may consume the output it refers to: its key has the
output's locking hash and its signature holds for its digest. -/
def inputVerifies (S : SignatureScheme) (refs : References) (tx : Transaction)
    (position : Nat) (i : Input) : Bool :=
  match refs.output? i with
  | none => false
  | some o => i.usesKey o.lock && S.verify i.key (tx.signingDigest position o.lock) i.signature

/-- Whether all inputs verify; a coinbase always does. Amounts are not compared. -/
def verifies (S : SignatureScheme) (refs : References) (tx : Transaction) : Bool :=
  tx.isCoinbase || tx.inputs.zipIdx.all fun (i, position) => tx.inputVerifies S refs position i

end Transaction

end CoinLedger
