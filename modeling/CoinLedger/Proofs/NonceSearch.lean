import CoinLedger.Proofs.Runs
import Mathlib.Data.Nat.Find

/-!
# The nonce search

The search tries the nonces in order, and looks at every multiple of the poll interval
whether it has been called off. So two things decide how it ends: the least nonce that gives
the block an admitted hash (`Difficulty.SealsFirst`), and whether a poll up to this nonce sees
a call (`Schedule.SeenBy`). A schedule may say anything at each nonce; that a call once made
stays made is not asked for. The attempts are counted on the way: `Seal.searchFrom_skip` says
that there is one for each nonce that is passed.

`Difficulty.search_eq` says so of the search, and `Difficulty.sealBlock_eq` of the block that
is sealed with what it finds. The main statement is `Difficulty.search_least`.
-/

namespace CoinLedger

/-- Some poll up to a nonce, one at the nonce itself included, sees that the search has been
called off. -/
def Schedule.SeenBy (calledOff : Schedule) (last : Nat) : Prop :=
  ∃ nonce ≤ last, nonce % Seal.pollInterval = 0 ∧ calledOff nonce = true

instance (calledOff : Schedule) (last : Nat) : Decidable (calledOff.SeenBy last) :=
  inferInstanceAs (Decidable (∃ nonce ≤ last, _))

namespace Seal

variable {admits : Digest → Bool} {hashWith : UInt64 → Digest} {calledOff : Schedule}
  {nonce : Nat} {attempts : UInt64}

/-! ## One step of the search -/

theorem searchFrom_calledOff (hpoll : nonce % pollInterval = 0) (hcall : calledOff nonce = true) :
    searchFrom admits hashWith calledOff nonce attempts = none := by
  rw [searchFrom]
  simp [hpoll, hcall]

/-- Nobody has called the search off when it comes to the nonce, or nobody looks. -/
def QuietAt (calledOff : Schedule) (nonce : Nat) : Prop :=
  nonce % pollInterval = 0 → calledOff nonce = false

theorem QuietAt.poll_eq_false (h : QuietAt calledOff nonce) :
    (nonce % pollInterval = 0 && calledOff nonce) = false := by
  by_cases hpoll : nonce % pollInterval = 0
  · simp [hpoll, h hpoll]
  · simp [hpoll]

theorem searchFrom_found (hlt : nonce < UInt64.size) (hquiet : QuietAt calledOff nonce)
    (hadmits : admits (hashWith (UInt64.ofNat nonce)) = true) :
    searchFrom admits hashWith calledOff nonce attempts =
      some ⟨UInt64.ofNat nonce, hashWith (UInt64.ofNat nonce), attempts + 1⟩ := by
  rw [searchFrom]
  simp [hlt, hquiet.poll_eq_false, hadmits]

theorem searchFrom_next (hlt : nonce < UInt64.size) (hquiet : QuietAt calledOff nonce)
    (hrefused : admits (hashWith (UInt64.ofNat nonce)) = false) :
    searchFrom admits hashWith calledOff nonce attempts =
      searchFrom admits hashWith calledOff (nonce + 1) (attempts + 1) := by
  rw [searchFrom]
  simp [hlt, hquiet.poll_eq_false, hrefused]

/-! ## The whole search -/

/-- The search comes to every nonce that is not behind the first admitted hash, as long as no
poll on the way sees a call, and makes one attempt at each nonce on the way. -/
theorem searchFrom_skip {last : Nat} (hle : nonce ≤ last) (hlt : last ≤ UInt64.size)
    (hquiet : ∀ n, nonce ≤ n → n < last → QuietAt calledOff n)
    (hrefused : ∀ n, nonce ≤ n → n < last → admits (hashWith (UInt64.ofNat n)) = false) :
    searchFrom admits hashWith calledOff nonce attempts =
      searchFrom admits hashWith calledOff last (attempts + UInt64.ofNat (last - nonce)) := by
  induction last, hle using Nat.le_induction with
  | base => simp
  | succ last hle ih =>
      have hcount : attempts + UInt64.ofNat (last + 1 - nonce) =
          attempts + UInt64.ofNat (last - nonce) + 1 := by
        rw [Nat.succ_sub hle, Nat.succ_eq_add_one, UInt64.ofNat_add, UInt64.add_assoc]
        rfl
      rw [hcount, ih (by omega) (fun n hn hn' => hquiet n hn (by omega))
        (fun n hn hn' => hrefused n hn (by omega))]
      exact searchFrom_next hlt (hquiet last hle (by omega)) (hrefused last hle (by omega))

end Seal

namespace Difficulty

variable {d : Difficulty} {b : Block} {m : UInt64} {calledOff : Schedule}

/-- The nonce is the least that gives the block an admitted hash. -/
structure SealsFirst (d : Difficulty) (b : Block) (m : UInt64) : Prop where
  admitted : d.admits (d.sealHash b m) = true
  least : ∀ n < m, d.admits (d.sealHash b n) = false

theorem SealsFirst.refused (h : d.SealsFirst b m) {n : Nat} (hn : n < m.toNat) :
    d.admits (d.sealHash b (UInt64.ofNat n)) = false := by
  apply h.least
  rw [UInt64.lt_iff_toNat_lt, UInt64.toNat_ofNat_of_lt' (Nat.lt_trans hn m.toNat_lt)]
  exact hn

/-- The search ends at the least nonce with an admitted hash, unless a poll up to there sees
a call. -/
theorem search_eq (h : d.SealsFirst b m) (calledOff : Schedule) :
    d.search b calledOff =
      if calledOff.SeenBy m.toNat then none else some ⟨m, d.sealHash b m, m + 1⟩ := by
  show Seal.searchFrom d.admits (d.sealHash b) calledOff 0 0 = _
  split
  · -- the first poll that sees a call
    rename_i hseen
    obtain ⟨hle, hpoll, hcall⟩ := Nat.find_spec hseen
    have hbefore := fun n => Nat.find_min hseen (m := n)
    generalize Nat.find hseen = first at *
    rw [Seal.searchFrom_skip (Nat.zero_le first) (Nat.le_of_lt (Nat.lt_of_le_of_lt hle m.toNat_lt))
      (fun n _ hn => ?_) (fun n _ hn => h.refused (Nat.lt_of_lt_of_le hn hle))]
    · exact Seal.searchFrom_calledOff hpoll hcall
    · intro hpoll'
      by_contra hcall'
      exact hbefore n hn ⟨by omega, hpoll', by simpa using hcall'⟩
  · rename_i hunseen
    have hquiet : ∀ n ≤ m.toNat, Seal.QuietAt calledOff n := by
      intro n hn hpoll
      by_contra hcall
      exact hunseen ⟨n, hn, hpoll, by simpa using hcall⟩
    rw [Seal.searchFrom_skip (Nat.zero_le m.toNat) (Nat.le_of_lt m.toNat_lt)
      (fun n _ hn => hquiet n (Nat.le_of_lt hn)) (fun n _ hn => h.refused hn),
      Seal.searchFrom_found m.toNat_lt (hquiet _ (Nat.le_refl _))
        (by rw [UInt64.ofNat_toNat]; exact h.admitted),
      Nat.sub_zero, UInt64.zero_add, UInt64.ofNat_toNat]

/-- A seal covers neither the time nor the hash and nonce that a block has so far, so that
blocks are sealed with what the search finds for them. -/
theorem sealBlock_of_search (htxs : b.transactions ≠ []) (timestamp : Int64)
    (calledOff : Schedule) :
    d.sealBlock timestamp b.transactions b.parent b.height calledOff =
      match d.search b calledOff with
      | none => .error .cancelled
      | some found =>
        .ok { b with timestamp := timestamp, nonce := found.nonce, hash := found.hash } := by
  have hdraft : d.search ⟨timestamp, Digest.zero, b.transactions, b.parent, 0, b.height⟩ calledOff =
      d.search b calledOff := rfl
  cases hsearch : d.search b calledOff with
  | none => simp [sealBlock, htxs, hdraft, hsearch]
  | some found => simp [sealBlock, htxs, hdraft, hsearch]

theorem sealBlock_eq (h : d.SealsFirst b m) (htxs : b.transactions ≠ []) (timestamp : Int64)
    (calledOff : Schedule) :
    d.sealBlock timestamp b.transactions b.parent b.height calledOff =
      if calledOff.SeenBy m.toNat then .error .cancelled
      else .ok { b with timestamp := timestamp, nonce := m, hash := d.sealHash b m } := by
  rw [sealBlock_of_search htxs, search_eq h]
  by_cases hseen : calledOff.SeenBy m.toNat
  · rw [if_pos hseen, if_pos hseen]
  · rw [if_neg hseen, if_neg hseen]

/-- Sealing transactions ends in a block of them, or has been called off. -/
theorem sealBlock_cases (d : Difficulty) (timestamp : Int64) {txs : List Transaction}
    (parent : Digest) (height : UInt64) (calledOff : Schedule) (htxs : txs ≠ []) :
    d.sealBlock timestamp txs parent height calledOff = .error .cancelled ∨
    ∃ b, d.sealBlock timestamp txs parent height calledOff = .ok b ∧ b.transactions = txs ∧
      b.parent = parent ∧ b.height = height ∧ d.isSealed b = true := by
  have hends := (d.sealBlock_ends timestamp txs parent height calledOff).1
  have hsearch := sealBlock_of_search (d := d)
    (b := ⟨timestamp, Digest.zero, txs, parent, 0, height⟩) htxs timestamp calledOff
  split at hsearch
  · exact .inl hsearch
  · exact .inr ⟨_, hsearch, hends _ hsearch⟩

/-- The search finds the least nonce that gives the block an admitted hash, with this hash and
after as many attempts as there are nonces up to it, unless a poll up to there sees that it
has been called off; and so ends the sealing of the block, if there are transactions in it.
Whatever becomes of the search, sealing ends in a block of these parts that passes the check
of its seal, or has been cancelled. -/
theorem search_least (d : Difficulty) (calledOff : Schedule) :
    (∀ (b : Block) (m : UInt64), d.SealsFirst b m → m.toNat + 1 < UInt64.size →
      (m + 1).toNat = m.toNat + 1 ∧
      d.search b calledOff =
        (if calledOff.SeenBy m.toNat then none else some ⟨m, d.sealHash b m, m + 1⟩) ∧
      ∀ timestamp, b.transactions ≠ [] →
        d.sealBlock timestamp b.transactions b.parent b.height calledOff =
          if calledOff.SeenBy m.toNat then .error .cancelled
          else .ok { b with timestamp := timestamp, nonce := m, hash := d.sealHash b m }) ∧
    ∀ timestamp txs parent height, txs ≠ [] →
      d.sealBlock timestamp txs parent height calledOff = .error .cancelled ∨
      ∃ b, d.sealBlock timestamp txs parent height calledOff = .ok b ∧ b.transactions = txs ∧
        b.parent = parent ∧ b.height = height ∧ d.isSealed b = true := by
  refine ⟨fun b m hfirst hm => ⟨?_, search_eq hfirst calledOff, fun timestamp htxs =>
    sealBlock_eq hfirst htxs timestamp calledOff⟩, fun timestamp txs parent height htxs =>
    d.sealBlock_cases timestamp parent height calledOff htxs⟩
  rw [UInt64.toNat_add]
  exact Nat.mod_eq_of_lt hm

end Difficulty

namespace Fork

/-- Three nonces are tried in vain for the block of the shorter branch. -/
theorem sealsFirst_shorter : rules.difficulty.SealsFirst shorter 3 where
  admitted := by decide +kernel
  least n hn := by
    have hlt : n.toNat < 3 := UInt64.lt_iff_toNat_lt.mp hn
    have hcases : n = 0 ∨ n = 1 ∨ n = 2 := by
      rw [← UInt64.toNat_inj, ← UInt64.toNat_inj, ← UInt64.toNat_inj]
      exact (by omega : n.toNat = 0 ∨ n.toNat = 1 ∨ n.toNat = 2)
    rcases hcases with rfl | rfl | rfl <;> decide +kernel

/-- The search for it ends at the fourth nonce, if it is called off behind the first one, where
nobody looks, and before it has begun, if it is called off at once. -/
theorem search_least_shorter :
    rules.difficulty.search shorter (fun nonce => 1 ≤ nonce) = some ⟨3, shorter.hash, 4⟩ ∧
      rules.difficulty.search shorter .always = none := by
  obtain ⟨_, hunseen, _⟩ := (Difficulty.search_least rules.difficulty fun nonce => 1 ≤ nonce).1
    shorter 3 sealsFirst_shorter (by decide)
  obtain ⟨_, hatOnce, _⟩ := (Difficulty.search_least rules.difficulty .always).1
    shorter 3 sealsFirst_shorter (by decide)
  have hhash : rules.difficulty.sealHash shorter 3 = shorter.hash := by
    decide +kernel
  constructor
  · rw [hunseen, if_neg (by decide), hhash]
    rfl
  · rw [hatOnce, if_pos (by decide)]

end Fork

end CoinLedger
