import CoinLedger.Proofs.Runs

/-!
# A ledger never halts by itself

Whatever blocks arrive from elsewhere and in whatever order candidates are sealed,
a ledger that began on an empty store never meets corruption: the invariants of
`Session.Sound` leave no operation anything to stumble over. So the marker of a halt
is never written and the rebuild of the index always succeeds.
-/

namespace CoinLedger.Session

/-- After any run the ledger can write, can rebuild its index, and answers whatever it
is asked next without meeting corruption; if the answer is an error, nothing has been
written, unless a mined block was superseded. -/
theorem never_halts (rules : Rules) (requests : List Request) (h : RunFits requests) :
    ((start rules).run requests).ledger.isHalted = false ∧
    ((start rules).run requests).ledger.store.get? Store.haltKey = none ∧
    (∃ n, ((start rules).run requests).ledger.reindex.1 = .ok n) ∧
    ∀ r e, RunFits (requests ++ [r]) → ¬ r.IsPayment →
      (((start rules).run requests).perform r).1 = .error e →
        (∀ cause, e ≠ .corruptStore cause) ∧
        ((∀ hash, e ≠ .superseded hash) →
          (((start rules).run requests).perform r).2.ledger.store =
            ((start rules).run requests).ledger.store) := by
  obtain ⟨c, hsound⟩ := run_sound rules h
  refine ⟨?_, hsound.holds.get?_haltKey, ?_, ?_⟩
  · rw [Ledger.isHalted, hsound.running, hsound.holds.haltReason?]
    rfl
  · obtain ⟨bs, ha⟩ := hsound.contents.exists_active
    obtain ⟨n, t, hok, _⟩ := Ledger.reindex_eq hsound.holds hsound.contents h.count ha
    exact ⟨n, congrArg Prod.fst hok⟩
  · intro r e hfits hwrites herror
    have hroom : Request.totalOutputCount requests + r.outputCount < 2 ^ 64 := by
      simpa [Request.totalOutputCount] using hfits.count
    obtain ⟨c', hperforms⟩ := hsound.perform (hfits.each r (by simp)) hroom
    refine ⟨?_, hperforms.unchanged e herror⟩
    rintro cause rfl
    have := hperforms.harmless hwrites _ herror
    cases this

/-- A chain that has been begun is not begun again, and nothing changes. -/
theorem never_halts_fork_root :
    RunFits [.accept Fork.root] ∧
    ((start Fork.rules).run [.accept Fork.root]).ledger.isHalted = false ∧
    (((start Fork.rules).run [.accept Fork.root]).perform (.genesis 0 Fork.bob)).1 =
      .error (.config .chainExists) ∧
    (((start Fork.rules).run [.accept Fork.root]).perform (.genesis 0 Fork.bob)).2.ledger.store =
      ((start Fork.rules).run [.accept Fork.root]).ledger.store := by
  have hfits : RunFits [.accept Fork.root] := by decide
  have herror : (((start Fork.rules).run [.accept Fork.root]).perform (.genesis 0 Fork.bob)).1 =
      .error (.config .chainExists) := by decide +kernel
  obtain ⟨hrunning, _, _, hnext⟩ := never_halts Fork.rules [.accept Fork.root] hfits
  obtain ⟨_, hunchanged⟩ := hnext (.genesis 0 Fork.bob) _ (by decide) id herror
  exact ⟨hfits, hrunning, herror, hunchanged fun _ heq => nomatch heq⟩

end CoinLedger.Session
