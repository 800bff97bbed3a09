import CoinLedger.Proofs.ChainStructure
import CoinLedger.Proofs.Worth

/-!
# Selecting coins

The selection goes through the records of the index, and through the outputs of each, and
stops when it has enough. On an index whose keys and entries can all be decoded this is a
walk along one list: `Unspent.coins`, the outputs with a lock in storage order.
`Unspent.spendable_eq` says what the walk selects: the shortest front of the list that is
worth the amount, all of it if none is, or no selection if the front is worth more than an
amount can be.

`Coin.Reaches` says what the shortest front is, and `Coin.front` computes it.
-/

namespace CoinLedger

/-- An output with the name by which inputs refer to it. -/
abbrev Coin := Outpoint × Output

namespace Coin

variable {amount : Nat} {coins picked : List Coin}

def worthOf (coins : List Coin) : Nat := (coins.map fun q => q.2.value.toNat).sum

theorem worthOf_cons (q : Coin) (coins : List Coin) :
    worthOf (q :: coins) = q.2.value.toNat + worthOf coins := by
  simp [worthOf]

theorem worthOf_append (front back : List Coin) :
    worthOf (front ++ back) = worthOf front + worthOf back := by
  simp [worthOf]

/-- The list is worth no less than a front of it. -/
theorem worthOf_le_of_isFront (h : picked <+: coins) : worthOf picked ≤ worthOf coins := by
  obtain ⟨back, rfl⟩ := h
  rw [worthOf_append]
  exact Nat.le_add_right _ _

/-! ## The shortest front -/

/-- The coins are the shortest front of a list that is worth the amount. -/
structure Reaches (amount : Nat) (coins picked : List Coin) : Prop where
  isFront : picked <+: coins
  reached : amount ≤ worthOf picked
  shortest : ∀ shorter, shorter <+: picked → shorter ≠ picked → worthOf shorter < amount

/-- The shortest front that is worth an amount, the whole list if none is. -/
def front (amount : Nat) : List Coin → List Coin
  | [] => []
  | q :: rest => if amount = 0 then [] else q :: front (amount - q.2.value.toNat) rest

theorem front_zero (coins : List Coin) : front 0 coins = [] := by
  cases coins <;> rfl

theorem front_cons (h : amount ≠ 0) (q : Coin) (rest : List Coin) :
    front amount (q :: rest) = q :: front (amount - q.2.value.toNat) rest := by
  rw [front, if_neg h]

theorem Reaches.le_worthOf (h : Reaches amount coins picked) : amount ≤ worthOf coins :=
  Nat.le_trans h.reached (worthOf_le_of_isFront h.isFront)

/-- Of two fronts one is a front of the other, so the shortest is only one. -/
theorem Reaches.unique {picked' : List Coin} (h : Reaches amount coins picked)
    (h' : Reaches amount coins picked') : picked = picked' := by
  by_contra hne
  rcases List.prefix_or_prefix_of_prefix h.isFront h'.isFront with hfront | hfront
  · exact Nat.lt_irrefl _ (Nat.lt_of_le_of_lt h.reached (h'.shortest _ hfront hne))
  · exact Nat.lt_irrefl _ (Nat.lt_of_le_of_lt h'.reached (h.shortest _ hfront (Ne.symm hne)))

theorem reaches_front (h : amount ≤ worthOf coins) : Reaches amount coins (front amount coins) := by
  induction coins generalizing amount with
  | nil =>
      exact ⟨List.prefix_rfl, h, fun shorter hfront hne =>
        absurd (List.prefix_nil.mp hfront) hne⟩
  | cons q rest ih =>
      rw [worthOf_cons] at h
      by_cases hzero : amount = 0
      · rw [hzero, front_zero]
        exact ⟨List.nil_prefix, Nat.zero_le _, fun shorter hfront hne =>
          absurd (List.prefix_nil.mp hfront) hne⟩
      · have hrest : Reaches (amount - q.2.value.toNat) rest _ := ih (by omega)
        have hreached := hrest.reached
        rw [front_cons hzero]
        refine ⟨(List.prefix_cons_inj q).mpr hrest.isFront, ?_, fun shorter hfront hne => ?_⟩
        · rw [worthOf_cons]
          omega
        · cases shorter with
          | nil => exact Nat.pos_of_ne_zero hzero
          | cons p tail =>
              obtain ⟨rfl, htail⟩ := List.cons_prefix_cons.mp hfront
              have hlt := hrest.shortest tail htail fun heq => hne (heq ▸ rfl)
              rw [worthOf_cons]
              omega

/-- A list that is worth less is picked as a whole. -/
theorem front_eq_self (h : worthOf coins < amount) : front amount coins = coins := by
  induction coins generalizing amount with
  | nil => rfl
  | cons q rest ih =>
      rw [worthOf_cons] at h
      rw [front_cons (by omega), ih (by omega)]

theorem Reaches.eq_front (h : Reaches amount coins picked) : picked = front amount coins :=
  h.unique (reaches_front h.le_worthOf)

end Coin

/-! ## The outputs with a lock -/

/-- The record of the first outpoint comes before that of the second, or they are places of
one transaction in this order. -/
def Outpoint.StoredBefore (a b : Outpoint) : Prop :=
  compare (Store.entryKey a.source) (Store.entryKey b.source) = .lt ∨
    a.source = b.source ∧ a.index < b.index

theorem Outpoint.StoredBefore.ne {a b : Outpoint} (h : a.StoredBefore b) : a ≠ b := by
  rintro rfl
  rcases h with hlt | ⟨_, hlt⟩
  · have hself : compare (Store.entryKey a.source) (Store.entryKey a.source) = .eq :=
      Std.ReflCmp.compare_self
    rw [hself] at hlt
    cases hlt
  · exact absurd hlt (UInt32.lt_irrefl _)

namespace Unspent

open Coin (worthOf front)

variable {s : Store} {m : Index} {lock : Bytes} {amount : UInt64} {sel : Selection}
  {cs : List Coin}

/-- The outputs with a lock among those of one entry. -/
def coinsIn (lock : Bytes) (id : Digest) (outs : List (UInt32 × Output)) : List Coin :=
  (outs.filter fun p => p.2.isLockedWith lock).map fun p => (⟨id, p.1⟩, p.2)

/-- Reads an index record, the key before the value. -/
def readEntry (record : Bytes × Bytes) : Result (Digest × Entry) := do
  return (← recordId record.1, ← decodeEntry record.2)

/-- The outputs with a lock that the index lists, in storage order. -/
def coins (s : Store) (lock : Bytes) : Result (List Coin) := do
  return (← s.entryRecords.mapM readEntry).flatMap fun q => coinsIn lock q.1 q.2.outputs

theorem mem_coinsIn {q : Coin} {id : Digest} {outs : List (UInt32 × Output)} :
    q ∈ coinsIn lock id outs ↔
      q.1.source = id ∧ (q.1.index, q.2) ∈ outs ∧ q.2.isLockedWith lock = true := by
  obtain ⟨⟨source, place⟩, o⟩ := q
  simp only [coinsIn, List.mem_map, List.mem_filter, Prod.mk.injEq, Outpoint.mk.injEq]
  constructor
  · rintro ⟨p, ⟨hp, hlock⟩, ⟨rfl, rfl⟩, rfl⟩
    exact ⟨rfl, hp, hlock⟩
  · rintro ⟨rfl, hp, hlock⟩
    exact ⟨(place, o), ⟨hp, hlock⟩, ⟨rfl, rfl⟩, rfl⟩

/-- On an index that is stored as it is encoded, with the outputs of each entry in the
order of their places, the coins are what it lists, in storage order. -/
theorem exists_coins (h : s.IndexedAs m) (hfits : ∀ id e, m id = some e → e.Fits)
    (hplaces : ∀ id, (m.outputs id).Pairwise fun p q => p.1 < q.1) (lock : Bytes) :
    ∃ cs, coins s lock = .ok cs ∧ cs.Pairwise (fun p q => p.1.StoredBefore q.1) ∧
      ∀ q, q ∈ cs ↔ (q.1.index, q.2) ∈ m.outputs q.1.source ∧ q.2.isLockedWith lock = true := by
  obtain ⟨entries, hrecords, hsorted, hmem⟩ := h.entryRecords_eq
  have hread : s.entryRecords.mapM readEntry = .ok entries := by
    have hone : ∀ q ∈ entries, readEntry (q.1.bytes, Record.encode q.2) = .ok (id q) := by
      intro q hq
      rw [readEntry, recordId, Digest.ofBytes_bytes,
        decodeEntry_encode (hfits q.1 q.2 ((hmem q.1 q.2).mp hq))]
      rfl
    rw [hrecords, Except.mapM_map_eq_ok hone, List.map_id]
  have houtputs : ∀ q ∈ entries, m.outputs q.1 = q.2.outputs := by
    intro q hq
    rw [Index.outputs, (hmem q.1 q.2).mp hq]
    rfl
  refine ⟨entries.flatMap fun q => coinsIn lock q.1 q.2.outputs, ?_, ?_, fun q => ?_⟩
  · rw [coins, hread]
    rfl
  · refine List.pairwise_flatMap.mpr ⟨fun q hq => ?_, hsorted.imp fun {p q} hlt a ha b hb => ?_⟩
    · have hentry := hplaces q.1
      rw [houtputs q hq] at hentry
      exact List.pairwise_map.mpr ((hentry.filter _).imp fun hlt => Or.inr ⟨rfl, hlt⟩)
    · left
      rw [(mem_coinsIn.mp ha).1, (mem_coinsIn.mp hb).1]
      exact hlt
  · rw [List.mem_flatMap]
    constructor
    · rintro ⟨p, hp, hq⟩
      obtain ⟨hsource, hlisted, hlock⟩ := mem_coinsIn.mp hq
      rw [hsource, houtputs p hp]
      exact ⟨hlisted, hlock⟩
    · rintro ⟨hlisted, hlock⟩
      cases he : m q.1.source with
      | none =>
          rw [Index.outputs, he] at hlisted
          cases hlisted
      | some e =>
          rw [Index.outputs, he] at hlisted
          exact ⟨(q.1.source, e), (hmem _ _).mpr he, mem_coinsIn.mpr ⟨rfl, hlisted, hlock⟩⟩

/-! ## The selection -/

/-- The selection from outputs in a row, all with the lock. -/
def pick (lock : Bytes) (amount : UInt64) : List Coin → Selection → Result Selection
  | [], sel => .ok sel
  | q :: rest, sel =>
    if amount ≤ sel.total then .ok sel
    else
      match addAmounts? sel.total q.2.value with
      | none => .error (.valueOverflow (.spendable lock))
      | some total => pick lock amount rest ⟨total, sel.outpoints ++ [q.1]⟩

theorem pick_of_reached (h : amount ≤ sel.total) (cs : List Coin) :
    pick lock amount cs sel = .ok sel := by
  cases cs with
  | nil => rfl
  | cons q rest => rw [pick, if_pos h]

/-- An entry is gone through as if its outputs and those behind it were one list. -/
theorem selectOutputs_bind (id : Digest) (outs : List (UInt32 × Output)) (sel : Selection) :
    (do
      match ← selectOutputs lock amount id outs sel with
      | (true, sel) => return sel
      | (false, sel) => pick lock amount cs sel) =
    pick lock amount (coinsIn lock id outs ++ cs) sel := by
  induction outs generalizing sel with
  | nil => rfl
  | cons p rest ih =>
      by_cases hreached : amount ≤ sel.total
      · rw [selectOutputs, if_pos hreached, pick_of_reached hreached]
        rfl
      by_cases hlock : p.2.isLockedWith lock = true
      · have hcoins : coinsIn lock id (p :: rest) = (⟨id, p.1⟩, p.2) :: coinsIn lock id rest := by
          simp [coinsIn, hlock]
        rw [selectOutputs, if_neg hreached, if_pos hlock, hcoins, List.cons_append, pick,
          if_neg hreached]
        cases addAmounts? sel.total p.2.value with
        | none => rfl
        | some total => exact ih ⟨total, sel.outpoints ++ [⟨id, p.1⟩]⟩
      · have hcoins : coinsIn lock id (p :: rest) = coinsIn lock id rest := by
          simp [coinsIn, hlock]
        rw [selectOutputs, if_neg hreached, if_neg hlock, hcoins]
        exact ih sel

theorem selectRecords_eq {records : List (Bytes × Bytes)} {entries : List (Digest × Entry)}
    (h : records.mapM readEntry = .ok entries) (sel : Selection) :
    selectRecords lock amount records sel =
      pick lock amount (entries.flatMap fun q => coinsIn lock q.1 q.2.outputs) sel := by
  induction records generalizing entries sel with
  | nil =>
      obtain rfl := Except.ok.inj h
      rfl
  | cons r rest ih =>
      rw [List.mapM_cons] at h
      obtain ⟨q, hq, h⟩ := Except.bind_eq_ok.mp h
      obtain ⟨others, hothers, h⟩ := Except.bind_eq_ok.mp h
      obtain rfl := Except.ok.inj h
      obtain ⟨id, hid, hq⟩ := Except.bind_eq_ok.mp hq
      obtain ⟨e, he, hq⟩ := Except.bind_eq_ok.mp hq
      obtain rfl := Except.ok.inj hq
      rw [List.flatMap_cons, ← selectOutputs_bind, selectRecords, hid, he]
      simp only [ih hothers]
      rfl

/-- The walk stops at the shortest front that makes up what is missing, or fails if the sum
of this front is no amount. -/
theorem pick_eq (cs : List Coin) (sel : Selection) :
    pick lock amount cs sel =
      let picked := front (amount.toNat - sel.total.toNat) cs
      if sel.total.toNat + worthOf picked < 2 ^ 64 then
        .ok ⟨UInt64.ofNat (sel.total.toNat + worthOf picked), sel.outpoints ++ picked.map Prod.fst⟩
      else .error (.valueOverflow (.spendable lock)) := by
  induction cs generalizing sel with
  | nil =>
      have hlt := sel.total.toNat_lt
      simp [pick, front, worthOf, hlt]
  | cons q rest ih =>
      by_cases hreached : amount ≤ sel.total
      · have hlt := sel.total.toNat_lt
        have hzero : amount.toNat - sel.total.toNat = 0 :=
          Nat.sub_eq_zero_of_le (UInt64.le_iff_toNat_le.mp hreached)
        rw [pick_of_reached hreached, hzero, Coin.front_zero]
        simp [worthOf, hlt]
      · have hmissing : amount.toNat - sel.total.toNat ≠ 0 := by
          rw [UInt64.le_iff_toNat_le] at hreached
          omega
        rw [pick, if_neg hreached, Coin.front_cons hmissing]
        cases hsum : addAmounts? sel.total q.2.value with
        | none =>
            have hlarge : ¬ sel.total.toNat + q.2.value.toNat < UInt64.size := by
              intro hlt
              rw [addAmounts?, if_pos hlt] at hsum
              cases hsum
            rw [if_neg]
            rw [Coin.worthOf_cons]
            exact fun hlt => hlarge (Nat.lt_of_le_of_lt (by omega) hlt)
        | some total =>
            have htotal := toNat_addAmounts? hsum
            have hstep : amount.toNat - sel.total.toNat - q.2.value.toNat =
                amount.toNat - total.toNat := by omega
            simp only [ih, Coin.worthOf_cons, hstep, htotal, Nat.add_assoc, List.append_assoc,
              List.singleton_append, List.map_cons]

/-- Where all keys and entries can be decoded, the shortest front of the outputs with the
lock that is worth the amount is selected, or all of them; the only failure is a sum that is
too large to be an amount. -/
theorem spendable_eq (h : coins s lock = .ok cs) (amount : UInt64) :
    spendable s lock amount =
      let picked := front amount.toNat cs
      if worthOf picked < 2 ^ 64 then
        .ok ⟨UInt64.ofNat (worthOf picked), picked.map Prod.fst⟩
      else .error (.valueOverflow (.spendable lock)) := by
  obtain ⟨entries, hentries, h⟩ := Except.bind_eq_ok.mp h
  obtain rfl := Except.ok.inj h
  rw [spendable, selectRecords_eq hentries, pick_eq]
  simp

end Unspent

end CoinLedger
