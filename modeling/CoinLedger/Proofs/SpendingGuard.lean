import CoinLedger.Proofs.CanonicalForm
import CoinLedger.Proofs.Drift
import CoinLedger.Proofs.Recovery

/-!
# The check of spending guards the update

A block is put on top of the tip only after its transactions have passed a check that
writes nothing. The update that follows rewrites entries one input at a time, and a
failure there would halt the ledger. `Ledger.update_of_checkSpendable` says that the check
suffices on every index whose records can be decoded, in whatever form they are written,
and for transactions under any ids, also repeated ones and ones that stood for others
before; and it says what each entry lists afterwards.
-/

namespace CoinLedger

namespace Unspent

variable {s : Store} {m : Index} {id : Digest}

/-- What the index lists under an id, each output with its place; nothing if there is no
entry. -/
def listed (s : Store) (id : Digest) : Result (List (Nat × Output)) := do
  let e ← entry? s id
  return (e.elim [] Entry.outputs).map fun p => (p.1.toNat, p.2)

/-- Every record that is kept for an id can be decoded. -/
def Decodable (s : Store) : Prop := ∀ id, ∃ e, entry? s id = .ok e

/-- An entry that is read, in whatever form it is stored, can be stored again. -/
theorem fits_of_entry? {e : Entry} (h : entry? s id = .ok (some e)) : e.Fits := by
  unfold entry? at h
  split at h
  · cases h
  · rename_i data _
    cases hdecode : Record.decode (α := Entry) data with
    | error cause =>
        rw [decodeEntry, hdecode] at h
        cases h
    | ok f =>
        rw [decodeEntry, hdecode] at h
        obtain rfl := Option.some.inj (Except.ok.inj h)
        exact (Record.covers_of_decode hdecode).1

theorem Decodable.reads (h : Decodable s) : Reads s (index s) := by
  have hentry : ∀ id, entry? s id = .ok (index s id) := by
    intro id
    obtain ⟨e, he⟩ := h id
    rw [index, he]
  refine ⟨hentry, fun id e he => ?_⟩
  have hread := hentry id
  rw [he] at hread
  exact fits_of_entry? hread

theorem Reads.listed_eq (h : Reads s m) (id : Digest) :
    listed s id = .ok ((m.outputs id).map fun p => (p.1.toNat, p.2)) := by
  rw [listed, h.entry]
  rfl

/-! ## Places in 32 bits -/

theorem map_toNat_filter_consumedBy (txs : List Transaction) (id : Digest)
    (outs : List (UInt32 × Output)) :
    (outs.filter fun p => ⟨id, p.1⟩ ∉ consumedBy txs).map (fun p => (p.1.toNat, p.2)) =
      (outs.map fun p => (p.1.toNat, p.2)).filter fun p => ¬ ClaimedBy txs id p.1 := by
  rw [List.filter_map]
  refine congrArg (List.map _) (List.filter_congr fun p _ => ?_)
  show _ = decide (¬ ClaimedBy txs id p.1.toNat)
  rw [decide_eq_decide, mem_consumedBy_iff_claimedBy]

theorem map_toNat_indexedOutputs {tx : Transaction} (h : tx.outputs.length < 2 ^ 32) :
    tx.indexedOutputs.map (fun p => (p.1.toNat, p.2)) = tx.outputs.zipIdx.map Prod.swap := by
  rw [Transaction.indexedOutputs, List.map_map]
  refine List.map_congr_left fun p hp => ?_
  have hlt : p.2 < 2 ^ 32 := Nat.lt_trans (List.mem_zipIdx' hp).1 h
  show ((UInt32.ofNat p.2).toNat, p.1) = (p.2, p.1)
  rw [UInt32.toNat_ofNat_of_lt' hlt]

/-! ## The index after a block -/

/-- The second store has the index that the transactions leave of the first one's. Under
the id of a transaction stand the outputs of the last one with that id that no later
payment of the list claims; under any other id stands what stood there and no payment of the
list claims. All other records are as they were. -/
structure Advances (s : Store) (txs : List Transaction) (t : Store) : Prop where
  created : ∀ before tx after, txs = before ++ tx :: after → (∀ u ∈ after, u.id ≠ tx.id) →
    listed t tx.id =
      .ok ((tx.outputs.zipIdx.map Prod.swap).filter fun p => ¬ ClaimedBy after tx.id p.1)
  kept : ∀ id, (∀ tx ∈ txs, tx.id ≠ id) →
    listed t id = (listed s id).map fun outs => outs.filter fun p => ¬ ClaimedBy txs id p.1
  other : ∀ key, (∀ id, key ≠ Store.entryKey id) → t.get? key = s.get? key

end Unspent

namespace Ledger

open Unspent

/-- Where the transactions of a block pass the check of what they spend, the update with
the block succeeds and advances the index by them. -/
theorem update_of_checkSpendable {s : Store} {b : Block} (hdecodable : Decodable s)
    (hplaces : ∀ tx ∈ b.transactions, tx.outputs.length < 2 ^ 32)
    (hfits : ∀ tx ∈ b.transactions, ∀ o ∈ tx.outputs, o.Fits)
    (hcheck : checkSpendable s b.transactions = .ok ()) :
    ∃ t, update s b = .ok t ∧ Advances s b.transactions t := by
  have hreads := hdecodable.reads
  obtain ⟨m, hm⟩ : ∃ m, (index s).follow b.events = some m := by
    rcases checkSpendable_follows hreads b.transactions with ⟨id, hrefused⟩ | ⟨_, hfollows⟩
    · rw [hcheck] at hrefused
      cases hrefused
    · exact hfollows
  have hentries : ∀ tx ∈ b.transactions, (Entry.ofTransaction tx).Fits := by
    intro tx htx
    refine ⟨?_, fun p hp => ?_⟩
    · rw [Entry.ofTransaction, Transaction.indexedOutputs, List.length_map, List.length_zipIdx]
      exact Nat.lt_trans (hplaces tx htx) (by decide)
    · obtain ⟨⟨o, place⟩, ho, rfl⟩ := List.mem_map.mp hp
      exact hfits tx htx o (List.fst_mem_of_mem_zipIdx ho)
  obtain ⟨t, ht, hrewrites⟩ := update_rewrites hreads hentries hm
  refine ⟨t, ht, fun before tx after hsplit hlast => ?_, fun id hid => ?_, hrewrites.other⟩
  · have htx : tx ∈ b.transactions := by simp [hsplit]
    rw [Block.events, hsplit] at hm
    rw [hrewrites.reads.listed_eq, Index.outputs_follow_last hm hlast,
      map_toNat_filter_consumedBy, map_toNat_indexedOutputs (hplaces tx htx)]
  · rw [hrewrites.reads.listed_eq, Index.outputs_follow_of_ne hm hid,
      map_toNat_filter_consumedBy, hreads.listed_eq]
    rfl

end Ledger

/-! ## A block with repeated ids -/

namespace Overwriting

def paid (value : UInt64) : Output := ⟨value, [7]⟩

/-- An index with an entry that is written longer than it needs to be and one with two
outputs. -/
def store : Store :=
  Unspent.putEntry (Store.empty.insert (Store.entryKey (Digest.ofNat 1)) Record.longEntry)
    (Digest.ofNat 2) ⟨[(0, paid 20), (1, paid 21)]⟩

def claim (id place : Nat) : Input := Input.unsigned (Digest.ofNat id) (Int32.ofNat place) []

/-- Three transactions of one id: the first claims the whole long entry and one output of
the other, the second claims an output of the first, and the last puts its own in their
place, of which a payment behind claims one. -/
def block : Block where
  timestamp := 0
  hash := Digest.ofNat 9
  transactions := [
    ⟨Digest.ofNat 3, [claim 1 3, claim 2 0], [paid 1, paid 2]⟩,
    ⟨Digest.ofNat 3, [claim 3 1], []⟩,
    ⟨Digest.ofNat 3, [], [paid 3, paid 4, paid 5]⟩,
    ⟨Digest.ofNat 4, [claim 3 0], [paid 6]⟩]
  parent := Digest.zero
  nonce := 0
  height := 1

theorem decodable_store : Unspent.Decodable store := by
  intro id
  unfold Unspent.entry?
  rw [store, Unspent.putEntry, Store.get?_insert, Store.get?_insert]
  split_ifs
  · exact ⟨some ⟨[(0, paid 20), (1, paid 21)]⟩, by decide +kernel⟩
  · exact ⟨some ⟨[(3, ⟨5, [7]⟩)]⟩, by decide +kernel⟩
  · exact ⟨none, rfl⟩

theorem update_block : Ledger.checkSpendable store block.transactions = .ok () ∧
    ∃ t, Unspent.update store block = .ok t ∧
      Unspent.listed t (Digest.ofNat 1) = .ok [] ∧
      Unspent.listed t (Digest.ofNat 2) = .ok [(1, paid 21)] ∧
      Unspent.listed t (Digest.ofNat 3) = .ok [(1, paid 4), (2, paid 5)] := by
  have hcheck : Ledger.checkSpendable store block.transactions = .ok () := by decide +kernel
  obtain ⟨t, ht, h⟩ := Ledger.update_of_checkSpendable decodable_store
    (by decide) (by decide) hcheck
  refine ⟨hcheck, t, ht, ?_, ?_, ?_⟩
  · rw [h.kept (Digest.ofNat 1) (by decide)]
    decide +kernel
  · rw [h.kept (Digest.ofNat 2) (by decide)]
    decide +kernel
  · rw [h.created [_, _] _ [_] rfl (by decide)]
    decide

end Overwriting

end CoinLedger
