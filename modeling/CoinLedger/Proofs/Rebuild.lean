import CoinLedger.Proofs.Ancestry
import CoinLedger.Proofs.IndexSteps
import Mathlib.Algebra.BigOperators.Group.List.Basic

/-!
# The index of a chain

`leftover` says by recursion on the chain what it leaves unspent: the outputs of
the block and what the chain below left over, without what the block consumes.
`Index.ofChain` is the index with these outputs.

The rebuild computes it by a walk in the other direction, with the consumed
outpoints handed on and the entries gathered in one list. The invariant that ties
the two together is `Harvest.Lists`: every id is listed once, with the outputs that
a function gives for it, and not at all where there are none. The main statement is
`Unspent.rebuild_eq`: on a store that holds linked contents the rebuild succeeds and
leaves the index of the active chain.
-/

namespace CoinLedger

/-- How many outputs the transactions have together. -/
def outputCount (txs : List Transaction) : Nat := (txs.map fun tx => tx.outputs.length).sum

/-- How many outputs the transactions of a chain have together. -/
def Block.chainOutputCount (bs : List Block) : Nat :=
  (bs.map fun b => outputCount b.transactions).sum

/-- The outputs of the transactions with an id, in the order of the transactions. -/
def outputsUnder (txs : List Transaction) (id : Digest) : List (UInt32 × Output) :=
  (txs.filter fun tx => tx.id = id).flatMap Transaction.indexedOutputs

theorem outputsUnder_cons_self (tx : Transaction) (txs : List Transaction) :
    outputsUnder (tx :: txs) tx.id = tx.indexedOutputs ++ outputsUnder txs tx.id := by
  simp [outputsUnder]

theorem outputsUnder_cons_of_ne {tx : Transaction} {id : Digest} (h : tx.id ≠ id)
    (txs : List Transaction) : outputsUnder (tx :: txs) id = outputsUnder txs id := by
  simp [outputsUnder, h]

theorem outputsUnder_append (before after : List Transaction) (id : Digest) :
    outputsUnder (before ++ after) id = outputsUnder before id ++ outputsUnder after id := by
  simp [outputsUnder]

theorem outputsUnder_eq_nil {txs : List Transaction} {id : Digest} (h : ∀ tx ∈ txs, tx.id ≠ id) :
    outputsUnder txs id = [] := by
  rw [outputsUnder, List.filter_eq_nil_iff.mpr fun tx htx => by simpa using h tx htx]
  rfl

namespace Unspent

open Harvest (consumed)

/-- What a chain, given from the tip, leaves unspent of the transactions with an id. -/
def leftover (id : Digest) : List Block → List (UInt32 × Output)
  | [] => []
  | b :: rest =>
    (outputsUnder b.transactions id ++ leftover id rest).filter fun p => ⟨id, p.1⟩ ∉ consumed b

end Unspent

/-- The index that a chain has. -/
def Index.ofChain (bs : List Block) : Index := fun id =>
  (Entry.mk (Unspent.leftover id bs)).nonempty?

theorem Index.outputs_ofChain (bs : List Block) (id : Digest) :
    Index.outputs (ofChain bs) id = Unspent.leftover id bs := by
  rw [outputs, ofChain, Entry.outputs_nonempty?]

namespace Unspent.Harvest

variable {entries : List (Digest × Entry)} {f : Digest → List (UInt32 × Output)} {id : Digest}

/-! ## Gathering outputs -/

/-- Every id is listed once, with the outputs that a function gives for it, and ids
without outputs are not listed. -/
structure Lists (entries : List (Digest × Entry)) (f : Digest → List (UInt32 × Output)) : Prop where
  nodup : (entries.map Prod.fst).Nodup
  lookup : ∀ id, entries.lookup id = (Entry.mk (f id)).nonempty?

theorem lists_empty : Lists [] fun _ => [] where
  nodup := List.nodup_nil
  lookup _ := rfl

theorem Lists.congr {g : Digest → List (UInt32 × Output)} (h : Lists entries f)
    (hfg : ∀ id, f id = g id) : Lists entries g := by
  obtain rfl : f = g := funext hfg
  exact h

theorem mem_pushOutput {other : Digest} {place : UInt32} {o : Output} :
    other ∈ (pushOutput entries id place o).map Prod.fst ↔
      other = id ∨ other ∈ entries.map Prod.fst := by
  induction entries with
  | nil => simp [pushOutput]
  | cons entry rest ih =>
      unfold pushOutput
      split
      · rename_i heq
        simp [heq]
      · simp only [List.map_cons, List.mem_cons, ih]
        exact or_left_comm

theorem nodup_pushOutput {place : UInt32} {o : Output} (h : (entries.map Prod.fst).Nodup) :
    ((pushOutput entries id place o).map Prod.fst).Nodup := by
  induction entries with
  | nil => simp [pushOutput]
  | cons entry rest ih =>
      obtain ⟨hnew, hrest⟩ := List.nodup_cons.mp h
      unfold pushOutput
      split
      · exact h
      · rename_i hne
        rw [List.map_cons, List.nodup_cons, mem_pushOutput]
        refine ⟨?_, ih hrest⟩
        rintro (heq | hmem)
        · exact hne heq
        · exact hnew hmem

theorem lookup_pushOutput (other : Digest) (place : UInt32) (o : Output) :
    (pushOutput entries id place o).lookup other =
      if other = id then some ((entries.lookup id).getD ⟨[]⟩ |>.push place o)
      else entries.lookup other := by
  induction entries with
  | nil =>
      by_cases h : other = id
      · simp [pushOutput, h, Entry.push]
      · have h' : (other == id) = false := by simpa using h
        simp [pushOutput, h, h', List.lookup_cons]
  | cons entry rest ih =>
      obtain ⟨key, e⟩ := entry
      unfold pushOutput
      split
      · rename_i hkey
        subst hkey
        by_cases h : other = key
        · simp [h]
        · have h' : (other == key) = false := by simpa using h
          simp [h, h', List.lookup_cons]
      · rename_i hkey
        have hkey' : (id == key) = false := by simpa using Ne.symm hkey
        by_cases h : other = key
        · subst h
          simp [hkey]
        · have h' : (other == key) = false := by simpa using h
          simp only [List.lookup_cons, h', hkey', ih]

theorem lookup_of_notMem (h : id ∉ entries.map Prod.fst) : entries.lookup id = none := by
  rw [List.lookup_eq_none_iff]
  intro entry hentry
  have hne : id ≠ entry.1 := fun heq => h (List.mem_map.mpr ⟨entry, hentry, heq.symm⟩)
  simpa using hne

/-- What is in a list that lists every id once is found there. -/
theorem lookup_of_mem {e : Entry} (h : (entries.map Prod.fst).Nodup) (he : (id, e) ∈ entries) :
    entries.lookup id = some e := by
  induction entries with
  | nil => cases he
  | cons entry rest ih =>
      obtain ⟨key, first⟩ := entry
      obtain ⟨hnew, hrest⟩ := List.nodup_cons.mp h
      rcases List.mem_cons.mp he with heq | hmem
      · cases heq
        simp
      · have hne : (id == key) = false := by
          rw [beq_eq_false_iff_ne]
          rintro rfl
          exact hnew (List.mem_map.mpr ⟨(id, e), hmem, rfl⟩)
        rw [List.lookup_cons, hne]
        exact ih hrest hmem

theorem Lists.push (h : Lists entries f) (id : Digest) (p : UInt32 × Output) :
    Lists (pushOutput entries id p.1 p.2) (Function.update f id (f id ++ [p])) where
  nodup := nodup_pushOutput h.nodup
  lookup other := by
    rw [lookup_pushOutput]
    by_cases hother : other = id
    · subst hother
      rw [if_pos rfl, Function.update_self, h.lookup]
      unfold Entry.nonempty?
      split
      -- ids without outputs are not listed, so the first output begins an entry
      · rename_i hempty
        have hnil : f other = [] := List.isEmpty_iff.mp hempty
        simp [hnil, Entry.push, Entry.isEmpty]
      · simp [Entry.push, Entry.isEmpty]
    · rw [if_neg hother, Function.update_of_ne hother, h.lookup]

theorem Lists.outputs (h : Lists entries f) (id : Digest) (outs : List (UInt32 × Output)) :
    Lists (outs.foldl (fun es (place, o) => pushOutput es id place o) entries)
      (Function.update f id (f id ++ outs)) := by
  induction outs generalizing entries f with
  | nil => simpa using h
  | cons p rest ih =>
      have hrest := ih (h.push id p)
      rw [Function.update_self, Function.update_idem, List.append_assoc] at hrest
      exact hrest

/-- What transactions add to the list under an id, given what is spent already. -/
theorem Lists.transactions {h : Harvest} (hl : Lists h.entries f) (txs : List Transaction) :
    (txs.foldl addOutputs h).spent = h.spent ∧
      Lists (txs.foldl addOutputs h).entries fun id =>
        f id ++ (outputsUnder txs id).filter fun p => ⟨id, p.1⟩ ∉ h.spent := by
  induction txs generalizing h f with
  | nil => exact ⟨rfl, hl.congr fun id => (List.append_nil _).symm⟩
  | cons tx rest ih =>
      have hfirst : Lists (h.addOutputs tx).entries (Function.update f tx.id
          (f tx.id ++ tx.indexedOutputs.filter fun p => ⟨tx.id, p.1⟩ ∉ h.spent)) :=
        hl.outputs tx.id _
      obtain ⟨hspent, hrest⟩ := ih hfirst
      refine ⟨hspent, hrest.congr fun id => ?_⟩
      by_cases hid : tx.id = id
      · subst hid
        rw [outputsUnder_cons_self, List.filter_append, Function.update_self, List.append_assoc]
        rfl
      · rw [outputsUnder_cons_of_ne hid, Function.update_of_ne (Ne.symm hid)]
        rfl

theorem Lists.block {h : Harvest} (hl : Lists h.entries f) (b : Block) :
    (h.addBlock b).spent = consumed b ++ h.spent ∧
      Lists (h.addBlock b).entries fun id =>
        f id ++ (outputsUnder b.transactions id).filter
          fun p => ⟨id, p.1⟩ ∉ consumed b ++ h.spent :=
  Lists.transactions (h := { h with spent := consumed b ++ h.spent }) hl b.transactions

theorem Lists.chain {h : Harvest} (hl : Lists h.entries f) (bs : List Block) :
    Lists (bs.foldl addBlock h).entries fun id =>
      f id ++ (leftover id bs).filter fun p => ⟨id, p.1⟩ ∉ h.spent := by
  induction bs generalizing h f with
  | nil => simpa [leftover] using hl
  | cons b rest ih =>
      obtain ⟨hspent, hfirst⟩ := hl.block b
      have hrest := ih hfirst
      refine hrest.congr fun id => ?_
      -- what is below goes through the filter of its own chain and then this block's
      rw [hspent, leftover, List.filter_filter, List.filter_append, List.append_assoc]
      congr 2 <;> refine List.filter_congr fun p _ => ?_ <;>
        simp [List.mem_append, not_or, and_comm]

/-- The entries that a rebuild writes are those of the chain's index. -/
theorem lists_ofBlocks (bs : List Block) :
    Lists (ofBlocks bs).entries fun id => leftover id bs := by
  have h := Lists.chain (h := Harvest.empty) lists_empty bs
  exact h.congr fun id => by simp [Harvest.empty]

end Unspent.Harvest

namespace Unspent

variable {s : Store} {c : Contents} {bs : List Block}

/-! ## What is left over fits -/

theorem length_outputsUnder_le (txs : List Transaction) (id : Digest) :
    (outputsUnder txs id).length ≤ outputCount txs := by
  rw [outputsUnder, outputCount]
  induction txs with
  | nil => exact Nat.le_refl 0
  | cons tx rest ih =>
      rw [List.filter_cons]
      split
      · simpa [Transaction.indexedOutputs] using ih
      · simp only [List.map_cons, List.sum_cons]
        omega

theorem length_leftover_le (id : Digest) (bs : List Block) :
    (leftover id bs).length ≤ Block.chainOutputCount bs := by
  rw [Block.chainOutputCount]
  induction bs with
  | nil => exact Nat.le_refl 0
  | cons b rest ih =>
      have hfilter := List.length_filter_le (fun p => decide (⟨id, p.1⟩ ∉ Harvest.consumed b))
        (outputsUnder b.transactions id ++ leftover id rest)
      have hblock := length_outputsUnder_le b.transactions id
      rw [List.length_append] at hfilter
      rw [leftover, List.map_cons, List.sum_cons]
      omega

/-- What is left over was created by a transaction of the chain. -/
theorem mem_leftover {id : Digest} {p : UInt32 × Output} (h : p ∈ leftover id bs) :
    ∃ b ∈ bs, ∃ tx ∈ b.transactions, tx.id = id ∧ p ∈ tx.indexedOutputs := by
  induction bs with
  | nil => cases h
  | cons b rest ih =>
      rcases List.mem_append.mp (List.mem_of_mem_filter h) with h | h
      · obtain ⟨tx, htx, hp⟩ := List.mem_flatMap.mp h
        obtain ⟨htx, hid⟩ := List.mem_filter.mp htx
        exact ⟨b, List.mem_cons_self, tx, htx, by simpa using hid, hp⟩
      · obtain ⟨b', hb', hrest⟩ := ih h
        exact ⟨b', List.mem_cons_of_mem _ hb', hrest⟩

theorem fits_leftover {id : Digest} (hfits : ∀ b ∈ bs, b.Fits)
    (hlength : (leftover id bs).length < 2 ^ 64) : (Entry.mk (leftover id bs)).Fits where
  outputs_length := hlength
  outputs p hp := by
    obtain ⟨b, hb, tx, htx, _, hmem⟩ := mem_leftover hp
    exact (Entry.fits_ofTransaction ((hfits b hb).transactions tx htx)).outputs p hmem

/-! ## Rebuilding the index -/

/-- Writing entries touches no key but theirs. -/
theorem get?_putEntries_of_ne {key : Bytes} (hne : ∀ id, Store.entryKey id ≠ key)
    (entries : List (Digest × Entry)) (s : Store) :
    (entries.foldl (fun s (id, e) => putEntry s id e) s).get? key = s.get? key := by
  induction entries generalizing s with
  | nil => rfl
  | cons entry rest ih =>
      rw [List.foldl_cons, ih]
      exact (Store.get?_insert s _ key _).trans (if_neg (hne entry.1))

/-- Of the entries that are written the key of an id has the one that is listed. -/
theorem get?_putEntries_entryKey {entries : List (Digest × Entry)}
    (hnodup : (entries.map Prod.fst).Nodup) (s : Store) (id : Digest) :
    (entries.foldl (fun s (id, e) => putEntry s id e) s).get? (Store.entryKey id) =
      ((entries.lookup id).map Record.encode).or (s.get? (Store.entryKey id)) := by
  induction entries generalizing s with
  | nil => rfl
  | cons entry rest ih =>
      obtain ⟨key, e⟩ := entry
      obtain ⟨hnew, hrest⟩ := List.nodup_cons.mp hnodup
      have hput : (putEntry s key e).get? (Store.entryKey id) =
          if key = id then some (Record.encode e) else s.get? (Store.entryKey id) := by
        rw [putEntry, Store.get?_insert]
        exact if_congr Store.entryKey_injective rfl rfl
      rw [List.foldl_cons, ih hrest, hput, List.lookup_cons]
      by_cases hid : id = key
      · subst hid
        rw [if_pos rfl, Harvest.lookup_of_notMem hnew, beq_self_eq_true]
        rfl
      · rw [if_neg (Ne.symm hid), beq_eq_false_iff_ne.mpr hid]

theorem putEntries_eq (h : s.Holds c) {entries : List (Digest × Entry)}
    (hnodup : (entries.map Prod.fst).Nodup) (hfits : ∀ entry ∈ entries, entry.2.Fits) :
    Store.Holds (entries.foldl (fun s (id, e) => putEntry s id e) s)
      (c.withIndex fun id => (entries.lookup id).or (c.index id)) := by
  induction entries generalizing s c with
  | nil => exact h
  | cons entry rest ih =>
      obtain ⟨hnew, hrest⟩ := List.nodup_cons.mp hnodup
      have hentry := (Reads.of_holds h).putEntry entry.1 (hfits entry List.mem_cons_self)
      have hall := ih (hentry.holds h) hrest fun e he => hfits e (List.mem_cons_of_mem _ he)
      have hindex : (fun id => ((entry :: rest).lookup id).or (c.index id)) =
          fun id => (rest.lookup id).or (Function.update c.index entry.1 (some entry.2) id) := by
        funext id
        obtain ⟨key, e⟩ := entry
        by_cases hid : id = key
        · subst hid
          rw [Harvest.lookup_of_notMem hnew]
          simp
        · have hne : (id == key) = false := by simpa using hid
          simp [List.lookup_cons, hne, Function.update_of_ne hid]
      rw [hindex]
      exact hall

/-- The rebuild succeeds, and leaves the index of the active chain. -/
theorem rebuild_eq (h : s.Holds c) (hl : c.Linked) (ha : c.Active bs)
    (hcount : Block.chainOutputCount bs < 2 ^ 64) :
    ∃ n t, rebuild s = .ok (n, t) ∧ t.Holds (c.withIndex (Index.ofChain bs)) := by
  have hlists := Harvest.lists_ofBlocks bs
  have hfits : ∀ b ∈ bs, b.Fits := fun b hb => by
    obtain ⟨name, hname⟩ := ha.stored b hb
    exact h.blocks_fit name b hname
  refine ⟨(Harvest.ofBlocks bs).entries.length,
    (Harvest.ofBlocks bs).entries.foldl (fun s (id, e) => putEntry s id e) s.withoutEntries, ?_, ?_⟩
  · rw [rebuild, Chain.blocks_eq h hl ha]
    rfl
  · have hindex : (fun id => ((Harvest.ofBlocks bs).entries.lookup id).or none) =
        Index.ofChain bs := funext fun id => by rw [hlists.lookup, Option.or_none, Index.ofChain]
    have hput := putEntries_eq h.withoutEntries hlists.nodup fun entry hentry => by
      have hlookup := Harvest.lookup_of_mem hlists.nodup hentry
      rw [hlists.lookup] at hlookup
      exact Entry.eq_of_nonempty? hlookup ▸
        fits_leftover hfits (Nat.lt_of_le_of_lt (length_leftover_le entry.1 bs) hcount)
    rw [← hindex]
    exact hput

end Unspent

end CoinLedger
