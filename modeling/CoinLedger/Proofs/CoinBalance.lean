import CoinLedger.Proofs.CoinSelection

/-!
# Selection and balance

Two scans go over the outputs that the index lists for a lock. The balance adds all of them up
and fails if the sum is too large to be an amount. The selection adds up only as many as it
needs, so that it can succeed where there is no balance; where there is one, it makes up the
amount if the balance does, and is all of the balance otherwise.

Both are told by the list `Unspent.coins`, which every index has whose keys and entries can be
decoded (`Unspent.Readable`). The main statement is `Unspent.spendable_shortest`.
-/

namespace CoinLedger

/-! ## Sums of amounts -/

theorem addAmounts?_eq_some_iff {a b sum : UInt64} :
    addAmounts? a b = some sum ↔ sum.toNat = a.toNat + b.toNat := by
  constructor
  · exact toNat_addAmounts?
  · intro h
    have hlt : a.toNat + b.toNat < UInt64.size := h ▸ sum.toNat_lt
    rw [addAmounts?, if_pos hlt, Option.some_inj, ← UInt64.toNat_inj, h, UInt64.toNat_add]
    exact Nat.mod_eq_of_lt hlt

/-- Outputs have a total exactly if the sum of their values is an amount. -/
theorem totalValue?_eq_some_iff {outputs : List Output} {total : UInt64} :
    totalValue? outputs = some total ↔ total.toNat = (outputs.map fun o => o.value.toNat).sum := by
  refine ⟨toNat_totalValue?, fun h => ?_⟩
  have hfrom : ∀ (outputs : List Output) (start : UInt64),
      total.toNat = start.toNat + (outputs.map fun o => o.value.toNat).sum →
        outputs.foldlM (fun total o => addAmounts? total o.value) start = some total := by
    intro outputs
    induction outputs with
    | nil =>
        intro start hstart
        obtain rfl : total = start := UInt64.toNat_inj.mp (by simpa using hstart)
        rfl
    | cons o rest ih =>
        intro start hstart
        rw [List.map_cons, List.sum_cons] at hstart
        have hlt := total.toNat_lt
        have hnext : (start + o.value).toNat = start.toNat + o.value.toNat := by
          rw [UInt64.toNat_add]
          exact Nat.mod_eq_of_lt (by omega)
        rw [List.foldlM_cons, addAmounts?_eq_some_iff.mpr hnext]
        apply ih
        rw [hnext]
        omega
  exact hfrom outputs 0 (by simpa using h)

/-- What two keys begin with in common does not decide their order. -/
theorem Bytes.compare_append_left (tag a b : Bytes) :
    compare (tag ++ a) (tag ++ b) = compare a b := by
  induction tag with
  | nil => rfl
  | cons first rest ih =>
      show List.compareLex compare (first :: (rest ++ a)) (first :: (rest ++ b)) = _
      rw [List.compareLex_cons_cons, Std.compare_self]
      exact ih

namespace Unspent

open Coin (worthOf Reaches front)

variable {s : Store} {lock : Bytes} {amount : UInt64} {cs : List Coin}

/-! ## The records of an index -/

/-- The keys of the index are ids, and the values entries. -/
def Readable (s : Store) : Prop := ∀ record ∈ s.entryRecords, (readEntry record).isOk = true

instance (s : Store) : Decidable (Readable s) :=
  inferInstanceAs (Decidable (∀ record ∈ s.entryRecords, _))

/-- The records of the index come in the order of their keys, byte by byte. -/
theorem entryRecords_sorted (s : Store) :
    s.entryRecords.Pairwise fun p q => compare p.1 q.1 = .lt := by
  have hsorted : (s.toList.filter fun record => Store.entryTag.isPrefixOf record.1).Pairwise
      fun p q => compare p.1 q.1 = .lt :=
    List.Pairwise.filter _ Std.ExtTreeMap.ordered_keys_toList
  refine List.pairwise_map.mpr (hsorted.imp_of_mem fun {p q} hp hq hlt => ?_)
  have hkey : ∀ record ∈ s.toList.filter fun record => Store.entryTag.isPrefixOf record.1,
      record.1 = Store.entryTag ++ record.1.drop Store.entryTag.length := by
    intro record hrecord
    exact List.prefix_append_drop (List.isPrefixOf_iff_prefix.mp (List.mem_filter.mp hrecord).2)
  rwa [hkey p hp, hkey q hq, Bytes.compare_append_left] at hlt

theorem exists_mapM_readEntry {records : List (Bytes × Bytes)}
    (h : ∀ record ∈ records, (readEntry record).isOk = true) :
    ∃ entries, records.mapM readEntry = .ok entries := by
  induction records with
  | nil => exact ⟨[], rfl⟩
  | cons record rest ih =>
      rw [List.forall_mem_cons] at h
      obtain ⟨others, hothers⟩ := ih h.2
      cases hfirst : readEntry record with
      | error e =>
          rw [hfirst] at h
          cases h.1
      | ok q =>
          refine ⟨q :: others, ?_⟩
          rw [List.mapM_cons, hfirst, hothers]
          rfl

theorem Readable.exists_coins (h : Readable s) (lock : Bytes) : ∃ cs, coins s lock = .ok cs := by
  obtain ⟨entries, hentries⟩ := exists_mapM_readEntry h
  exact ⟨_, Except.bind_eq_ok.mpr ⟨entries, hentries, rfl⟩⟩

/-! ## The balance -/

/-- The scan for the balance does not look at the keys. -/
theorem mapM_decodeEntry_of_readEntry {records : List (Bytes × Bytes)}
    {entries : List (Digest × Entry)} (h : records.mapM readEntry = .ok entries) :
    records.mapM (fun record : Bytes × Bytes => decodeEntry record.2) =
      .ok (entries.map Prod.snd) := by
  rw [Except.mapM_eq_ok_iff] at h ⊢
  rw [List.forall₂_map_right_iff]
  refine h.imp fun record q hq => ?_
  obtain ⟨id, _, hq⟩ := Except.bind_eq_ok.mp hq
  obtain ⟨e, he, hq⟩ := Except.bind_eq_ok.mp hq
  obtain rfl := Except.ok.inj hq
  exact he

theorem outputsOf_eq (h : coins s lock = .ok cs) : outputsOf s lock = .ok (cs.map Prod.snd) := by
  obtain ⟨entries, hentries, h⟩ := Except.bind_eq_ok.mp h
  obtain rfl := Except.ok.inj h
  refine Except.bind_eq_ok.mpr ⟨_, mapM_decodeEntry_of_readEntry hentries, congrArg Except.ok ?_⟩
  rw [List.flatMap_map, List.map_flatMap]
  refine List.flatMap_congr fun q _ => ?_
  simp [coinsIn, List.filter_map, Function.comp_def]

/-- There is a balance exactly if the sum of all outputs with the lock is an amount. -/
theorem balance_eq_ok_iff (h : coins s lock = .ok cs) {b : UInt64} :
    balance s lock = .ok b ↔ b.toNat = worthOf cs := by
  have hsum : worthOf cs = ((cs.map Prod.snd).map fun o => o.value.toNat).sum := by
    rw [worthOf, List.map_map]
    rfl
  rw [hsum, ← totalValue?_eq_some_iff, balance, outputsOf_eq h]
  simp only [bind, Except.bind]
  cases totalValue? (cs.map Prod.snd) with
  | none => simp [throw, throwThe, MonadExceptOf.throw]
  | some total =>
      show Except.ok total = _ ↔ _
      rw [Except.ok.injEq, Option.some.injEq]

/-! ## The selection -/

theorem isFront_front (amount : Nat) (cs : List Coin) : front amount cs <+: cs := by
  by_cases hlt : worthOf cs < amount
  · rw [Coin.front_eq_self hlt]
  · exact (Coin.reaches_front (Nat.le_of_not_lt hlt)).isFront

theorem spendable_eq_ok_iff (h : coins s lock = .ok cs) {sel : Selection} :
    spendable s lock amount = .ok sel ↔ sel.total.toNat = worthOf (front amount.toNat cs) ∧
      sel.outpoints = (front amount.toNat cs).map Prod.fst := by
  obtain ⟨total, outpoints⟩ := sel
  rw [spendable_eq h]
  dsimp only
  split
  · rename_i hsmall
    rw [Except.ok.injEq, Selection.mk.injEq, ← UInt64.toNat_inj, UInt64.toNat_ofNat_of_lt' hsmall,
      eq_comm, @eq_comm _ outpoints]
  · rename_i hlarge
    refine iff_of_false (fun hok => nomatch hok) fun hsel => hlarge ?_
    exact hsel.1 ▸ total.toNat_lt

theorem spendable_eq_error_iff (h : coins s lock = .ok cs) {e : LedgerError} :
    spendable s lock amount = .error e ↔
      e = .valueOverflow (.spendable lock) ∧ 2 ^ 64 ≤ worthOf (front amount.toNat cs) := by
  rw [spendable_eq h]
  dsimp only
  split
  · rename_i hsmall
    exact iff_of_false (fun herror => nomatch herror) fun he => Nat.not_le.mpr hsmall he.2
  · rename_i hlarge
    rw [Except.error.injEq, eq_comm]
    exact ⟨fun he => ⟨he, Nat.not_lt.mp hlarge⟩, And.left⟩

/-- Where there is a balance, the selection does not fail, and makes up the amount if the
balance does. -/
theorem spendable_of_balance (h : coins s lock = .ok cs) {b : UInt64}
    (hbalance : balance s lock = .ok b) : ∃ sel, spendable s lock amount = .ok sel ∧
      (b < amount → sel.total = b) ∧ (amount ≤ b → amount ≤ sel.total) := by
  rw [balance_eq_ok_iff h] at hbalance
  have hle := Coin.worthOf_le_of_isFront (isFront_front amount.toNat cs)
  obtain ⟨total, htotal⟩ : ∃ total : UInt64, total.toNat = worthOf (front amount.toNat cs) :=
    ⟨UInt64.ofNat _, UInt64.toNat_ofNat_of_lt' (Nat.lt_of_le_of_lt (hbalance ▸ hle) b.toNat_lt)⟩
  refine ⟨⟨total, _⟩, (spendable_eq_ok_iff h).mpr ⟨htotal, rfl⟩, fun hlt => ?_, fun henough => ?_⟩
  · rw [UInt64.lt_iff_toNat_lt, hbalance] at hlt
    rw [← UInt64.toNat_inj, htotal, Coin.front_eq_self hlt, hbalance]
  · rw [UInt64.le_iff_toNat_le, hbalance] at henough
    rw [UInt64.le_iff_toNat_le, htotal]
    exact (Coin.reaches_front henough).reached

/-- On an index whose keys and entries can all be decoded, what is selected is, of the outputs
with the lock in storage order, the shortest front that is worth the amount, or all of them if
none is. The total is what these are worth, and the only failure is that this is too much to be
an amount. So the selection goes with the balance, where there is one. -/
theorem spendable_shortest (s : Store) (lock : Bytes) (amount : UInt64) (hreadable : Readable s) :
    (s.entryRecords.Pairwise fun p q => compare p.1 q.1 = .lt) ∧
    ∃ cs picked, coins s lock = .ok cs ∧
      (amount.toNat ≤ worthOf cs → Reaches amount.toNat cs picked) ∧
      (worthOf cs < amount.toNat → picked = cs) ∧
      (∀ sel, spendable s lock amount = .ok sel ↔
        sel.total.toNat = worthOf picked ∧ sel.outpoints = picked.map Prod.fst) ∧
      (∀ e, spendable s lock amount = .error e ↔
        e = .valueOverflow (.spendable lock) ∧ 2 ^ 64 ≤ worthOf picked) ∧
      ∀ b, balance s lock = .ok b → b.toNat = worthOf cs ∧
        ∃ sel, spendable s lock amount = .ok sel ∧
          (b < amount → sel.total = b) ∧ (amount ≤ b → amount ≤ sel.total) := by
  obtain ⟨cs, hcs⟩ := hreadable.exists_coins lock
  exact ⟨entryRecords_sorted s, cs, front amount.toNat cs, hcs, Coin.reaches_front,
    Coin.front_eq_self, fun sel => spendable_eq_ok_iff hcs, fun e => spendable_eq_error_iff hcs,
    fun b hb => ⟨(balance_eq_ok_iff hcs).mp hb, spendable_of_balance hcs hb⟩⟩

end Unspent

/-! ## With a balance and without -/

namespace Hoard

/-- Two entries with outputs for two locks. Those for the lock `7`, of which one is without
value, are worth more than an amount can be; those for the lock `8` are not. -/
def store : Store :=
  Unspent.putEntry
    (Unspent.putEntry Store.empty (Digest.ofNat 2)
      ⟨[(0, ⟨4, [8]⟩), (1, ⟨UInt64.ofNat (2 ^ 64 - 1), [7]⟩)]⟩)
    (Digest.ofNat 1) ⟨[(0, ⟨3, [7]⟩), (1, ⟨9, [8]⟩), (4, ⟨0, [7]⟩), (5, ⟨2, [7]⟩)]⟩

/-- The outputs for the lock `7` in storage order. -/
def hoard : List Coin := [
  (⟨Digest.ofNat 1, 0⟩, ⟨3, [7]⟩),
  (⟨Digest.ofNat 1, 4⟩, ⟨0, [7]⟩),
  (⟨Digest.ofNat 1, 5⟩, ⟨2, [7]⟩),
  (⟨Digest.ofNat 2, 1⟩, ⟨UInt64.ofNat (2 ^ 64 - 1), [7]⟩)]

/-- The outputs for the lock `8` in storage order. -/
def purse : List Coin := [
  (⟨Digest.ofNat 1, 1⟩, ⟨9, [8]⟩),
  (⟨Digest.ofNat 2, 0⟩, ⟨4, [8]⟩)]

theorem coins_store :
    Unspent.coins store [7] = .ok hoard ∧ Unspent.coins store [8] = .ok purse := by
  decide +kernel

theorem balance_purse : Unspent.balance store [8] = .ok 13 := by decide +kernel

theorem front_hoard : Coin.front 5 hoard = hoard.take 3 ∧ Coin.front 6 hoard = hoard := by
  decide +kernel

theorem front_purse : Coin.front 6 purse = purse.take 1 := by decide +kernel

theorem worthOf_hoard : Coin.worthOf (hoard.take 3) = 5 ∧ Coin.worthOf hoard = 2 ^ 64 + 4 := by
  decide +kernel

theorem worthOf_purse : Coin.worthOf (purse.take 1) = 9 ∧ Coin.worthOf purse = 13 := by
  decide +kernel

/-- For the lock `7` there is no balance. Five can be selected all the same, six cannot. For
the lock `8` there is one, of thirteen. For six the first output is selected, which is worth
more than that, and for twenty the whole balance. -/
theorem spendable_shortest_hoard : Unspent.Readable store ∧
    (∀ b, Unspent.balance store [7] ≠ .ok b) ∧
    Unspent.spendable store [7] 5 = .ok ⟨5, (hoard.take 3).map Prod.fst⟩ ∧
    Unspent.spendable store [7] 6 = .error (.valueOverflow (.spendable [7])) ∧
    Unspent.balance store [8] = .ok 13 ∧
    Unspent.spendable store [8] 6 = .ok ⟨9, (purse.take 1).map Prod.fst⟩ ∧
    ∃ sel, Unspent.spendable store [8] 20 = .ok sel ∧ sel.total = 13 := by
  have hreadable : Unspent.Readable store := by decide +kernel
  obtain ⟨hhoard, hpurse⟩ := coins_store
  obtain ⟨hworth, hall⟩ := worthOf_hoard
  obtain ⟨hfirst, hboth⟩ := worthOf_purse
  refine ⟨hreadable, fun b hb => ?_, ?_, ?_, balance_purse, ?_, ?_⟩
  · obtain ⟨_, cs, _, hcs, _, _, _, _, hbalance⟩ :=
      Unspent.spendable_shortest store [7] 0 hreadable
    obtain rfl := Except.ok.inj (hhoard.symm.trans hcs)
    have hlt := b.toNat_lt
    rw [(hbalance b hb).1, hall] at hlt
    omega
  · obtain ⟨_, cs, picked, hcs, hreaches, _, hsel, _, _⟩ :=
      Unspent.spendable_shortest store [7] 5 hreadable
    obtain rfl := Except.ok.inj (hhoard.symm.trans hcs)
    have hpicked : picked = hoard.take 3 := by
      rw [← front_hoard.1]
      exact (hreaches (by rw [hall]; decide)).eq_front
    rw [hsel, hpicked, hworth]
    exact ⟨rfl, rfl⟩
  · obtain ⟨_, cs, picked, hcs, hreaches, _, _, herror, _⟩ :=
      Unspent.spendable_shortest store [7] 6 hreadable
    obtain rfl := Except.ok.inj (hhoard.symm.trans hcs)
    have hpicked : picked = hoard := by
      rw [← front_hoard.2]
      exact (hreaches (by rw [hall]; decide)).eq_front
    rw [herror, hpicked, hall]
    exact ⟨rfl, Nat.le_add_right _ _⟩
  · obtain ⟨_, cs, picked, hcs, hreaches, _, hsel, _, _⟩ :=
      Unspent.spendable_shortest store [8] 6 hreadable
    obtain rfl := Except.ok.inj (hpurse.symm.trans hcs)
    have hpicked : picked = purse.take 1 := by
      rw [← front_purse]
      exact (hreaches (by rw [hboth]; decide)).eq_front
    rw [hsel, hpicked, hfirst]
    exact ⟨rfl, rfl⟩
  · obtain ⟨_, _, _, _, _, _, _, _, hbalance⟩ :=
      Unspent.spendable_shortest store [8] 20 hreadable
    obtain ⟨_, sel, hsel, hless, _⟩ := hbalance 13 balance_purse
    exact ⟨sel, hsel, hless (by decide)⟩

end Hoard

end CoinLedger
