import CoinLedger.Proofs.Drift
import Mathlib.Algebra.BigOperators.Group.Finset.Basic
import Mathlib.Data.FinEnum
import Mathlib.Data.Finite.Vector
import Mathlib.Data.Set.List

/-!
# What the index is worth

The worth of outputs is the sum of their values as a natural number, which no total
exceeds. `Unspent.supply` reads it off the records of a store, entry by entry, and
`Index.total` says it of an index, as a sum over all transaction ids. `Unspent.supply_eq`
ties the two together.

An event moves the total by what it does to one entry. So the inputs of a transaction
take from it what the outputs are worth that they consume, and a transaction that
creates its outputs adds what they are worth, less what stood under its id before.
-/

namespace CoinLedger

/-- The sum of the values of outputs, however large. -/
def worth (outs : List (UInt32 × Output)) : Nat := (outs.map fun p => p.2.value.toNat).sum

theorem worth_eq_zero_iff {outs : List (UInt32 × Output)} :
    worth outs = 0 ↔ ∀ p ∈ outs, p.2.value.toNat = 0 := by
  rw [worth, List.sum_eq_zero_iff_forall_eq_nat, List.forall_mem_map]

theorem worth_perm {outs outs' : List (UInt32 × Output)} (h : outs.Perm outs') :
    worth outs = worth outs' :=
  (h.map _).sum_eq

theorem worth_filter_add (keep : UInt32 × Output → Prop) [DecidablePred keep]
    (outs : List (UInt32 × Output)) :
    worth (outs.filter fun p => keep p) + worth (outs.filter fun p => ¬ keep p) = worth outs :=
  List.sum_map_filter_add_sum_map_filter_not keep _ outs

/-- Outputs without a value do not count. -/
theorem worth_valued (outs : List (UInt32 × Output)) :
    worth (outs.filter fun p => 0 < p.2.value.toNat) = worth outs := by
  have hrest : worth (outs.filter fun p => ¬ 0 < p.2.value.toNat) = 0 := by
    rw [worth_eq_zero_iff]
    intro p hp
    have hnot : ¬ 0 < p.2.value.toNat := by simpa using (List.mem_filter.mp hp).2
    omega
  have hsplit := worth_filter_add (fun p => 0 < p.2.value.toNat) outs
  omega

/-! ## The records of the index -/

namespace Digest

instance : Finite Digest := by
  let spelled : Digest → List.Vector UInt8 32 := fun d => ⟨d.bytes, d.length_eq⟩
  refine Finite.of_injective spelled fun d d' h => ?_
  exact Digest.ext (Subtype.mk.inj h)

noncomputable instance : Fintype Digest := Fintype.ofFinite Digest

end Digest

/-- The sum of all values that an index lists. -/
noncomputable def Index.total (m : Index) : Nat := ∑ id, worth (m.outputs id)

namespace Store.IndexedAs

variable {s : Store} {m : Index}

/-- A record whose key begins with the tag of an entry is one. -/
theorem entry_of_tagged (h : s.IndexedAs m) {key value : Bytes} (hget : s.get? key = some value)
    (htag : entryTag.isPrefixOf key = true) :
    ∃ id e, key = entryKey id ∧ value = Record.encode e ∧ m id = some e := by
  have hkey : ∃ id, entryKey id = key := by
    by_contra hnot
    exact Option.some_ne_none _ (hget.symm.trans (h.stray key htag fun id heq => hnot ⟨id, heq⟩))
  obtain ⟨id, rfl⟩ := hkey
  rw [h.entry, Option.map_eq_some_iff] at hget
  obtain ⟨e, he, rfl⟩ := hget
  exact ⟨id, e, rfl, rfl, he⟩

/-- The index records are the entries, each under its id once, in the order of the keys. -/
theorem entryRecords_eq (h : s.IndexedAs m) : ∃ entries : List (Digest × Entry),
    s.entryRecords = entries.map (fun q => (q.1.bytes, Record.encode q.2)) ∧
      entries.Pairwise (fun p q => compare (entryKey p.1) (entryKey q.1) = .lt) ∧
      ∀ id e, (id, e) ∈ entries ↔ m id = some e := by
  let records := s.toList.filter fun record => entryTag.isPrefixOf record.1
  let asRecord : {q : Digest × Entry // m q.1 = some q.2} → Bytes × Bytes :=
    fun q => (entryKey q.1.1, Record.encode q.1.2)
  obtain ⟨entries, heq⟩ : records ∈ Set.range (List.map asRecord) := by
    rw [Set.range_list_map]
    rintro ⟨key, value⟩ hrecord
    obtain ⟨hget, htag⟩ := mem_tagged.mp hrecord
    obtain ⟨id, e, rfl, rfl, he⟩ := h.entry_of_tagged hget htag
    exact ⟨⟨(id, e), he⟩, rfl⟩
  refine ⟨entries.map Subtype.val, ?_, ?_, fun id e => ⟨fun hentry => ?_, fun he => ?_⟩⟩
  · show records.map _ = _
    rw [← heq, List.map_map, List.map_map]
    refine List.map_congr_left fun q _ => ?_
    simp [asRecord, entryKey]
  · have hsorted : records.Pairwise fun a b => compare a.1 b.1 = .lt :=
      List.Pairwise.filter _ Std.ExtTreeMap.ordered_keys_toList
    rw [← heq, List.pairwise_map] at hsorted
    exact List.pairwise_map.mpr hsorted
  · obtain ⟨q, _, hq⟩ := List.mem_map.mp hentry
    have hindex := q.2
    rwa [hq] at hindex
  · have hrecord : (entryKey id, Record.encode e) ∈ records := by
      refine mem_tagged.mpr ⟨?_, isPrefixOf_entryKey id⟩
      rw [h.entry, he]
      rfl
    rw [← heq] at hrecord
    obtain ⟨⟨⟨id', e'⟩, he'⟩, hin, hq⟩ := List.mem_map.mp hrecord
    obtain rfl : id' = id := entryKey_injective.mp (Prod.mk.inj hq).1
    obtain rfl : e' = e := Option.some.inj (he'.symm.trans he)
    exact List.mem_map.mpr ⟨⟨(id', e'), he'⟩, hin, rfl⟩

end Store.IndexedAs

/-- Entries in the order of their keys have different ids. -/
theorem Store.nodup_of_sorted {entries : List (Digest × Entry)}
    (h : entries.Pairwise fun p q => compare (entryKey p.1) (entryKey q.1) = .lt) :
    (entries.map Prod.fst).Nodup := by
  refine List.pairwise_map.mpr (h.imp fun {p q} hlt heq => ?_)
  have hself : compare (entryKey q.1) (entryKey q.1) = .eq := Std.ReflCmp.compare_self
  rw [heq, hself] at hlt
  cases hlt

/-- The total is a sum over the entries, in whatever order they are listed. -/
theorem Index.total_eq_sum {m : Index} {entries : List (Digest × Entry)}
    (hnodup : (entries.map Prod.fst).Nodup) (hmem : ∀ id e, (id, e) ∈ entries ↔ m id = some e) :
    m.total = (entries.map fun q => worth q.2.outputs).sum := by
  have hentry : ∀ q ∈ entries, worth (m.outputs q.1) = worth q.2.outputs := by
    intro q hq
    rw [outputs, (hmem q.1 q.2).mp hq]
    rfl
  have hnone : ∀ id, id ∉ (entries.map Prod.fst).toFinset → worth (m.outputs id) = 0 := by
    intro id hid
    have hnot : m id = none := by
      by_contra hsome
      obtain ⟨e, he⟩ := Option.ne_none_iff_exists'.mp hsome
      exact hid (List.mem_toFinset.mpr (List.mem_map.mpr ⟨(id, e), (hmem id e).mpr he, rfl⟩))
    rw [outputs, hnot]
    rfl
  calc m.total
      = ∑ id ∈ (entries.map Prod.fst).toFinset, worth (m.outputs id) :=
        (Finset.sum_subset (Finset.subset_univ _) fun id _ hid => hnone id hid).symm
    _ = ((entries.map Prod.fst).map fun id => worth (m.outputs id)).sum :=
        List.sum_toFinset _ hnodup
    _ = (entries.map fun q => worth q.2.outputs).sum := by
        rw [List.map_map]
        exact congrArg List.sum (List.map_congr_left hentry)

namespace Unspent

/-- The sum of all values in the index records. -/
def supply (s : Store) : Result Nat := do
  let entries ← s.entryRecords.mapM fun (_, value) => decodeEntry value
  return (entries.map fun e => worth e.outputs).sum

theorem mapM_decodeEntry {entries : List (Digest × Entry)} (hfits : ∀ q ∈ entries, q.2.Fits) :
    (entries.map fun q => (q.1.bytes, Record.encode q.2)).mapM
      (fun r : Bytes × Bytes => decodeEntry r.2) = .ok (entries.map Prod.snd) :=
  Except.mapM_map_eq_ok fun q hq => decodeEntry_encode (hfits q hq)

/-- The supply of a store is the total of its index. -/
theorem supply_eq {s : Store} {c : Contents} (h : s.Holds c) : supply s = .ok c.index.total := by
  obtain ⟨entries, hrecords, hsorted, hmem⟩ := h.indexedAs.entryRecords_eq
  have hnodup := Store.nodup_of_sorted hsorted
  have hfits : ∀ q ∈ entries, q.2.Fits :=
    fun q hq => h.entries_fit q.1 q.2 ((hmem q.1 q.2).mp hq)
  have hread := mapM_decodeEntry hfits
  rw [← hrecords] at hread
  rw [supply, hread, Index.total_eq_sum hnodup hmem]
  show Except.ok ((entries.map Prod.snd).map fun e => worth e.outputs).sum = _
  rw [List.map_map]
  rfl

end Unspent

/-! ## How events move the total -/

namespace Index

variable {m m' : Index} {i : Input} {o : Outpoint}

/-- An index that differs in one entry. -/
theorem total_of_agree {id : Digest}
    (h : ∀ other, other ≠ id → m'.outputs other = m.outputs other) :
    m'.total + worth (m.outputs id) = m.total + worth (m'.outputs id) := by
  have hrest : ∑ other ∈ Finset.univ.erase id, worth (m'.outputs other) =
      ∑ other ∈ Finset.univ.erase id, worth (m.outputs other) := by
    refine Finset.sum_congr rfl fun other hother => ?_
    rw [h other (Finset.ne_of_mem_erase hother)]
  rw [total, total, ← Finset.add_sum_erase _ _ (Finset.mem_univ id),
    ← Finset.add_sum_erase (a := id) _ (fun other => worth (m.outputs other)) (Finset.mem_univ id),
    hrest]
  omega

/-- What the index lists at an outpoint is worth. -/
def worthAt (m : Index) (o : Outpoint) : Nat :=
  worth ((m.outputs o.source).filter fun p => p.1 = o.index)

theorem holds_iff {m : Index} {o : Outpoint} :
    m.holds o = true ↔ ∃ p ∈ m.outputs o.source, p.1 = o.index := by
  rw [holds, outputs]
  cases m o.source with
  | none => simp
  | some e => simp [Entry.holds]

/-- An input that the index follows names an output that it holds. -/
theorem holds_of_consume_eq (h : m.consume i = some m') :
    ∃ o, i.outpoint? = some o ∧ m.holds o = true := by
  obtain ⟨place, e, hplace, he, hholds, _⟩ := consume_eq_some.mp h
  refine ⟨⟨i.source, place⟩, by rw [Input.outpoint?, hplace]; rfl, ?_⟩
  rw [holds, he]
  exact hholds

theorem mem_outputs_consume (h : m.consume i = some m') (ho : i.outpoint? = some o) {id : Digest}
    {p : UInt32 × Output} : p ∈ outputs m' id ↔ p ∈ m.outputs id ∧ (⟨id, p.1⟩ : Outpoint) ≠ o := by
  rw [outputs_consume h, List.mem_filter, ho]
  simp

theorem total_consume (h : m.consume i = some m') (ho : i.outpoint? = some o) :
    total m' + m.worthAt o = m.total := by
  have hother : ∀ id, id ≠ o.source → outputs m' id = m.outputs id := by
    intro id hid
    rw [outputs_consume h, ho, List.filter_eq_self]
    rintro p _
    simp only [Option.toList_some, List.mem_singleton, decide_eq_true_iff]
    rintro rfl
    exact hid rfl
  have hself : outputs m' o.source = (m.outputs o.source).filter fun p => ¬ p.1 = o.index := by
    rw [outputs_consume h, ho]
    refine List.filter_congr fun p _ => ?_
    rw [decide_eq_decide]
    cases o
    simp
  have htotal := total_of_agree hother
  have hsplit := worth_filter_add (fun p => p.1 = o.index) (m.outputs o.source)
  rw [hself] at htotal
  rw [worthAt]
  omega

theorem worthAt_consume_of_ne {o' : Outpoint} (h : m.consume i = some m')
    (ho : i.outpoint? = some o)
    (hne : o' ≠ o) : worthAt m' o' = m.worthAt o' := by
  rw [worthAt, outputs_consume h, ho, List.filter_filter]
  refine congrArg worth (List.filter_congr fun p _ => ?_)
  rw [Bool.and_eq_left_iff_imp, decide_eq_true_iff]
  rintro hplace
  simp only [Option.toList_some, List.mem_singleton, decide_eq_true_iff]
  rintro rfl
  exact hne (by rw [hplace])

/-- Inputs take from the total what the outputs that they name are worth. -/
theorem total_follow_inputs {inputs : List Input} {coins : List (Outpoint × Output)}
    (h : m.follow (inputs.map .consume) = some m')
    (hnames : inputs.map Input.outpoint? = coins.map fun q => some q.1)
    (hworth : ∀ q ∈ coins, m.holds q.1 = true → m.worthAt q.1 = q.2.value.toNat) :
    total m' + (coins.map fun q => q.2.value.toNat).sum = m.total ∧
      ∀ q ∈ coins, m.holds q.1 = true := by
  induction inputs generalizing m coins with
  | nil =>
      obtain rfl := Option.some.inj h
      obtain rfl : coins = [] := by simpa using hnames
      exact ⟨rfl, fun q hq => absurd hq List.not_mem_nil⟩
  | cons i rest ih =>
      obtain ⟨n, hfirst, hrest⟩ := follow_cons.mp h
      obtain _ | ⟨q, coins⟩ := coins
      · cases hnames
      obtain ⟨ho, hnames⟩ := List.cons.inj hnames
      obtain ⟨o, hi, hholds⟩ := holds_of_consume_eq hfirst
      obtain rfl : o = q.1 := Option.some.inj (hi.symm.trans ho)
      have hkept : ∀ o : Outpoint, holds n o = true → m.holds o = true ∧ o ≠ q.1 := by
        intro o hheld
        obtain ⟨p, hp, hplace⟩ := holds_iff.mp hheld
        rw [mem_outputs_consume hfirst ho, hplace] at hp
        exact ⟨holds_iff.mpr ⟨p, hp.1, hplace⟩, hp.2⟩
      obtain ⟨htotal, hall⟩ := ih hrest hnames fun q' hq' hheld => by
        obtain ⟨hbefore, hne⟩ := hkept q'.1 hheld
        rw [worthAt_consume_of_ne hfirst ho hne]
        exact hworth q' (List.mem_cons_of_mem _ hq') hbefore
      have hstep := total_consume hfirst ho
      have hq := hworth q List.mem_cons_self hholds
      refine ⟨?_, fun q' hq' => ?_⟩
      · rw [List.map_cons, List.sum_cons]
        omega
      · rcases List.mem_cons.mp hq' with rfl | hq'
        · exact hholds
        · exact (hkept q'.1 (hall q' hq')).1

/-- A transaction adds what its outputs are worth, less what stood under its id. -/
theorem total_create (m : Index) (tx : Transaction) :
    total (m.create tx) + worth (m.outputs tx.id) = m.total + worth tx.indexedOutputs := by
  have hothers : ∀ other, other ≠ tx.id → outputs (m.create tx) other = m.outputs other :=
    fun other hother => outputs_create_of_ne hother m
  have htotal := total_of_agree hothers
  rwa [outputs_create_self] at htotal

end Index

end CoinLedger
