import CoinLedger.Chain
import CoinLedger.Unspent.Entry

/-!
# The index of unspent outputs

The index answers what an address owns without a walk along the chain. It is a
cache: `rebuild` computes it from the active chain alone, and `update` keeps it up
to date when a block is put on the tip. Both leave the store as it was when they
fail.

Coins are selected in the order of the store, entry by entry, until their sum
reaches the amount that is asked for.
-/

namespace CoinLedger.Unspent

/-! ## Reading entries -/

def decodeEntry (data : Bytes) : Result Entry :=
  (Record.decode data).mapError .undecodable

/-- The entry of a transaction, none if no output of it is unspent. -/
def entry? (s : Store) (id : Digest) : Result (Option Entry) :=
  match s.get? (Store.entryKey id) with
  | none => .ok none
  | some data => return some (← decodeEntry data)

def recordId (key : Bytes) : Result Digest :=
  (Digest.ofBytes key).mapError fun e => .corruptStore (.badDigest e)

/-! ## Rebuilding -/

/-- What a walk from the tip towards genesis has met so far. -/
structure Harvest where
  /-- Outputs that some block nearer the tip consumes. -/
  spent : List Outpoint
  /-- The unspent outputs of the transactions met, by id. -/
  entries : List (Digest × Entry)

namespace Harvest

def empty : Harvest := ⟨[], []⟩

/-- Adds an output to the entry of a transaction, behind what is there. -/
def pushOutput (entries : List (Digest × Entry)) (id : Digest) (place : UInt32) (o : Output) :
    List (Digest × Entry) :=
  match entries with
  | [] => [(id, ⟨[(place, o)]⟩)]
  | (other, e) :: rest =>
    if other = id then (other, e.push place o) :: rest
    else (other, e) :: pushOutput rest id place o

/-- Gathers the outputs of a transaction that have not been consumed. -/
def addOutputs (h : Harvest) (tx : Transaction) : Harvest :=
  let unspent := tx.indexedOutputs.filter fun (place, _) => ⟨tx.id, place⟩ ∉ h.spent
  { h with entries := unspent.foldl (fun es (place, o) => pushOutput es tx.id place o) h.entries }

/-- The outputs that a block consumes. -/
def consumed (b : Block) : List Outpoint :=
  b.transactions.flatMap fun tx => tx.spends.filterMap Input.outpoint?

/-- Goes one block further: first what the block consumes, then what it creates,
for an output may be consumed in the block that creates it. -/
def addBlock (h : Harvest) (b : Block) : Harvest :=
  b.transactions.foldl addOutputs { h with spent := consumed b ++ h.spent }

/-- What a whole chain, given from the tip to genesis, leaves unspent. -/
def ofBlocks (blocks : List Block) : Harvest :=
  blocks.foldl addBlock empty

end Harvest

def putEntry (s : Store) (id : Digest) (e : Entry) : Store :=
  s.insert (Store.entryKey id) (Record.encode e)

/-- Replaces the whole index by the one that the active chain has. Returns the
number of entries. -/
def rebuild (s : Store) : Result (Nat × Store) := do
  let entries := (Harvest.ofBlocks (← Chain.blocks s)).entries
  return (entries.length, entries.foldl (fun s (id, e) => putEntry s id e) s.withoutEntries)

/-! ## Following the chain -/

/-- Takes the output that an input consumes out of the index. -/
def consume (s : Store) (i : Input) : Result Store := do
  let stale := LedgerError.corruptStore (.notUnspent i.source i.index)
  match s.get? (Store.entryKey i.source) with
  | none => throw stale
  | some data =>
    let e ← decodeEntry data
    match i.place? with
    | none => throw stale
    | some place =>
      if !e.holds place then throw stale
      let rest := e.erase place
      if rest.isEmpty then return s.erase (Store.entryKey i.source)
      else return putEntry s i.source rest

/-- Takes out what a transaction consumes and puts in what it creates. -/
def applyTransaction (s : Store) (tx : Transaction) : Result Store := do
  let consumed ← tx.spends.foldlM consume s
  return putEntry consumed tx.id (Entry.ofTransaction tx)

/-- Brings the index from the parent of a block to the block. -/
def update (s : Store) (b : Block) : Result Store :=
  b.transactions.foldlM applyTransaction s

/-! ## Selecting coins -/

/-- What has been selected so far. -/
structure Selection where
  total : UInt64
  outpoints : List Outpoint
deriving DecidableEq

/-- Selects from the outputs of one entry; the flag says that the amount has been
reached and nothing more is needed. -/
def selectOutputs (lock : Bytes) (amount : UInt64) (id : Digest) :
    List (UInt32 × Output) → Selection → Result (Bool × Selection)
  | [], sel => .ok (false, sel)
  | (place, o) :: rest, sel =>
    if amount ≤ sel.total then .ok (true, sel)
    else if o.isLockedWith lock then
      match addAmounts? sel.total o.value with
      | none => .error (.valueOverflow (.spendable lock))
      | some total =>
        selectOutputs lock amount id rest ⟨total, sel.outpoints ++ [⟨id, place⟩]⟩
    else selectOutputs lock amount id rest sel

/-- Selects from index records, the key of each read before its value. -/
def selectRecords (lock : Bytes) (amount : UInt64) :
    List (Bytes × Bytes) → Selection → Result Selection
  | [], sel => .ok sel
  | (key, value) :: rest, sel => do
    let id ← recordId key
    let e ← decodeEntry value
    match ← selectOutputs lock amount id e.outputs sel with
    | (true, sel) => return sel
    | (false, sel) => selectRecords lock amount rest sel

/-- Outputs with a locking hash, in storage order, until their sum reaches an
amount or there are no more. -/
def spendable (s : Store) (lock : Bytes) (amount : UInt64) : Result Selection :=
  selectRecords lock amount s.entryRecords ⟨0, []⟩

/-- All unspent outputs with a locking hash, in storage order. -/
def outputsOf (s : Store) (lock : Bytes) : Result (List Output) := do
  let entries ← s.entryRecords.mapM fun (_, value) => decodeEntry value
  return entries.flatMap fun e => (e.outputs.map Prod.snd).filter (·.isLockedWith lock)

/-- The sum of the unspent outputs with a locking hash. -/
def balance (s : Store) (lock : Bytes) : Result UInt64 := do
  match totalValue? (← outputsOf s lock) with
  | some total => return total
  | none => throw (.valueOverflow (.balance lock))

end CoinLedger.Unspent
