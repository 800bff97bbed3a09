import CoinLedger.Codec.Record
import CoinLedger.Hashing

/-!
# Transactions

A transaction consumes outputs of earlier transactions through its inputs and
creates new outputs, each an amount locked to the hash of a public key. Its id is
the hash of its encoding with the id field cleared, so it commits to everything
else, signatures included.

A coinbase is a transaction with one input that refers to no transaction; the
public key field of that input carries a note.
-/

namespace CoinLedger

structure Input where
  /-- Id of the transaction whose output is consumed. -/
  source : Digest
  /-- Place of the output in that transaction, or `Input.coinbaseIndex`. -/
  index : Int32
  /-- The numbers `r` and `s` of the signature. -/
  signature : Bytes
  /-- The spender's public key, or the note of a coinbase. -/
  key : Bytes
deriving DecidableEq

structure Output where
  value : UInt64
  /-- The hash of the public key that may spend the output. -/
  lock : Bytes
deriving DecidableEq

structure Transaction where
  id : Digest
  inputs : List Input
  outputs : List Output
deriving DecidableEq

/-- The name of an output: a transaction id and a place among its outputs. -/
structure Outpoint where
  source : Digest
  index : UInt32
deriving DecidableEq

/-! ## Inputs and outputs -/

namespace Input

/-- The index of an input that consumes nothing. -/
def coinbaseIndex : Int32 := -1

def unsigned (source : Digest) (index : Int32) (key : Bytes) : Input :=
  ⟨source, index, [], key⟩

def coinbase (note : Bytes) : Input :=
  unsigned Digest.zero coinbaseIndex note

def isCoinbase (i : Input) : Bool :=
  i.source.isZero && i.index == coinbaseIndex

/-- The index as a place in a list of outputs; a negative one names no place. -/
def place? (i : Input) : Option UInt32 :=
  if 0 ≤ i.index then some i.index.toUInt32 else none

def outpoint? (i : Input) : Option Outpoint :=
  i.place?.map (Outpoint.mk i.source)

/-- Whether the input's public key has the given locking hash. -/
def usesKey (i : Input) (lock : Bytes) : Bool :=
  lockingHash i.key = lock

instance : Record Input where
  encode i :=
    i.source.bytes ++ Bytes.littleEndian 4 i.index.toUInt32.toNat ++
      Record.encodeBytes i.signature ++ Record.encodeBytes i.key
  read := do
    let source ← Reader.digest
    let index ← Reader.number 4
    let signature ← Record.readBytes
    let key ← Record.readBytes
    return ⟨source, (UInt32.ofNat index).toInt32, signature, key⟩

end Input

namespace Output

def isLockedWith (o : Output) (lock : Bytes) : Bool := o.lock = lock

instance : Record Output where
  encode o := Bytes.littleEndian 8 o.value.toNat ++ Record.encodeBytes o.lock
  read := do
    let value ← Reader.number 8
    let lock ← Record.readBytes
    return ⟨UInt64.ofNat value, lock⟩

end Output

/-- The sum of two amounts, none if it is too large to be an amount. -/
def addAmounts? (a b : UInt64) : Option UInt64 :=
  if a.toNat + b.toNat < UInt64.size then some (a + b) else none

/-- The sum of the outputs' values, none if it is too large to be an amount. -/
def totalValue? (outputs : List Output) : Option UInt64 :=
  outputs.foldlM (fun total o => addAmounts? total o.value) 0

/-! ## Transactions -/

namespace Transaction

instance : Record Transaction where
  encode tx := tx.id.bytes ++ Record.encodeList tx.inputs ++ Record.encodeList tx.outputs
  read := do
    let id ← Reader.digest
    let inputs ← Record.readList
    let outputs ← Record.readList
    return ⟨id, inputs, outputs⟩

/-- What the id is the hash of: the encoding with the id cleared. -/
def idPreimage (tx : Transaction) : Bytes :=
  Record.encode { tx with id := Digest.zero }

def contentHash (tx : Transaction) : Digest :=
  sha256 tx.idPreimage

/-- The transaction under the id that its content has. -/
def withContentId (tx : Transaction) : Transaction :=
  { tx with id := tx.contentHash }

def ofParts (inputs : List Input) (outputs : List Output) : Transaction :=
  withContentId ⟨Digest.zero, inputs, outputs⟩

/-- The transaction that pays a block's reward. -/
def coinbase (lock note : Bytes) (reward : UInt64) : Transaction :=
  ofParts [Input.coinbase note] [⟨reward, lock⟩]

def isCoinbase (tx : Transaction) : Bool :=
  match tx.inputs with
  | [i] => i.isCoinbase
  | _ => false

/-- The inputs that consume outputs: all of them, or none for a coinbase. -/
def spends (tx : Transaction) : List Input :=
  if tx.isCoinbase then [] else tx.inputs

/-- The outputs with their places. -/
def indexedOutputs (tx : Transaction) : List (UInt32 × Output) :=
  tx.outputs.zipIdx.map fun (o, i) => (UInt32.ofNat i, o)

/-- The transaction without signatures and public keys. -/
def trimmed (tx : Transaction) : Transaction :=
  { tx with inputs := tx.inputs.map fun i => Input.unsigned i.source i.index [] }

end Transaction

end CoinLedger
