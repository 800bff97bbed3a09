import CoinLedger.Unspent.Index

/-!
# Payments

A payment consumes outputs of the sender, selected from the index in storage
order, pays the amount to the recipient and returns what is left over to the
sender. It is signed against the transactions it refers to.
-/

namespace CoinLedger

namespace SignatureScheme

/-- The locking hash of the public key that belongs to a secret key. -/
def lockOf (S : SignatureScheme) (secret : SecretKey) : Bytes :=
  lockingHash (S.publicKey secret)

def addressOf (S : SignatureScheme) (secret : SecretKey) : Address :=
  Address.ofLock (S.lockOf secret)

end SignatureScheme

/-- The transaction as signing leaves it, and whether it succeeded. -/
def Transaction.signOrFail (S : SignatureScheme) (secret : SecretKey) (refs : References)
    (tx : Transaction) : Transaction × Result Unit :=
  match tx.sign S secret refs with
  | (signed, none) => (signed, .ok ())
  | (partly, some i) => (partly, .error (.notFound (.output i.source i.index tx.id)))

namespace Payment

/-- The input that consumes a selected output, unsigned. -/
def inputOf (key : Bytes) (o : Outpoint) : Result Input :=
  if o.index ≤ Int32.maxValue.toUInt32 then .ok (Input.unsigned o.source o.index.toInt32 key)
  else .error (.corruptStore (.placeOutOfRange o.index))

/-- The outputs of a payment: the amount, and the change if there is any. -/
def outputs (recipient sender : Bytes) (amount available : UInt64) : List Output :=
  ⟨amount, recipient⟩ :: if amount < available then [⟨available - amount, sender⟩] else []

/-- The payment before it is signed. -/
def draft (S : SignatureScheme) (s : Store) (secret : SecretKey) (recipient : Bytes)
    (amount : UInt64) : Result Transaction := do
  let selection ← Unspent.spendable s (S.lockOf secret) amount
  if selection.total < amount then throw (.insufficientFunds selection.total amount)
  let inputs ← selection.outpoints.mapM (inputOf (S.publicKey secret))
  return Transaction.ofParts inputs (outputs recipient (S.lockOf secret) amount selection.total)

def build (S : SignatureScheme) (s : Store) (secret : SecretKey) (recipient : Bytes)
    (amount : UInt64) : Result Transaction := do
  let tx ← draft S s secret recipient amount
  let refs ← Chain.references s tx
  match tx.signOrFail S secret refs with
  | (signed, .ok ()) => return signed
  | (_, .error e) => throw e

end Payment

end CoinLedger
