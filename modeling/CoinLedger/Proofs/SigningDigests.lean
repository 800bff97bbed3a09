import CoinLedger.Proofs.Signing

/-!
# What a signature is for

An input is signed for the hash of a record: the transaction without its id, its signatures
and its public keys, but with the lock of the consumed output in the key field of this one
input (`Transaction.signingForm`). A record can be read back from its bytes, and a lock that
is not empty shows which of the cleared key fields it stands in. So what is hashed tells what
the inputs refer to, the outputs, the position and the lock, and nothing else. In particular
no signature can be taken to another input, to other outputs, or to an output with another
lock, unless two different strings have one hash.

The main statement is `Transaction.signingPreimage_eq_iff`.
-/

namespace CoinLedger

theorem sha256_eq_iff {x y : Bytes} : sha256 x = sha256 y ↔ x = y ∨ IsCollision x y := by
  by_cases hsame : x = y
  · exact iff_of_true (congrArg sha256 hsame) (.inl hsame)
  · exact ⟨fun h => .inr ⟨hsame, h⟩, fun h => h.elim (fun h => absurd h hsame) And.right⟩

/-- What an input refers to, whether there can be such an output or not. -/
def Input.reference (i : Input) : Digest × Int32 := (i.source, i.index)

namespace Transaction

variable {tx tx' : Transaction} {position position' : Nat} {lock lock' : Bytes}

/-- The record that an input is signed for. -/
def signingForm (tx : Transaction) (position : Nat) (lock : Bytes) : Transaction where
  id := Digest.zero
  inputs := (tx.inputs.map Input.reference).mapIdx fun n r =>
    Input.unsigned r.1 r.2 (if n = position then lock else [])
  outputs := tx.outputs

theorem signingPreimage_eq (tx : Transaction) (position : Nat) (lock : Bytes) :
    tx.signingPreimage position lock = (tx.signingForm position lock).idPreimage := by
  have hinputs : tx.trimmed.inputs.modify position ({ · with key := lock }) =
      (tx.signingForm position lock).inputs := by
    ext1 n
    simp only [trimmed, signingForm, List.getElem?_modify, List.getElem?_mapIdx, List.getElem?_map]
    cases tx.inputs[n]? with
    | none => rfl
    | some i =>
        by_cases hn : position = n
        · simp [hn, Input.unsigned, Input.reference]
        · simp [hn, Ne.symm hn, Input.unsigned, Input.reference]
  exact congrArg (fun inputs => idPreimage ⟨Digest.zero, inputs, tx.outputs⟩) hinputs

/-- What is signed fits if the transaction and the lock do. -/
theorem fits_signingForm (h : tx.Fits) (hlock : lock.length < 2 ^ 64) :
    (tx.signingForm position lock).Fits where
  inputs_length := by simpa [signingForm] using h.inputs_length
  inputs := by
    intro i hi
    obtain ⟨n, hn, rfl⟩ := List.mem_mapIdx.mp hi
    refine ⟨Nat.two_pow_pos 64, ?_⟩
    show (if n = position then lock else []).length < 2 ^ 64
    split
    · exact hlock
    · exact Nat.two_pow_pos 64
  outputs_length := h.outputs_length
  outputs := h.outputs

theorem map_reference_signingForm (tx : Transaction) (position : Nat) (lock : Bytes) :
    (tx.signingForm position lock).inputs.map Input.reference = tx.inputs.map Input.reference := by
  ext1 n
  simp only [signingForm, List.getElem?_map, List.getElem?_mapIdx, Option.map_map]
  rfl

/-- The key field of an input holds the lock at its position, and nothing elsewhere. -/
theorem getElem?_key_signingForm (tx : Transaction) (position : Nat) (lock : Bytes) (n : Nat) :
    (tx.signingForm position lock).inputs[n]?.map Input.key =
      tx.inputs[n]?.map fun _ => if n = position then lock else [] := by
  simp [signingForm, Function.comp_def, Input.unsigned]

/-- The strings that two inputs are signed for are equal exactly if their transactions refer to
the same and pay the same, in the same order, and the inputs are at one position and consume
outputs with one lock. The digests agree in no other case, but for collisions. Only the first
position has to be one of an input, and only the first lock must not be empty. -/
theorem signingPreimage_eq_iff (tx tx' : Transaction) (position position' : Nat)
    (lock lock' : Bytes) (hfits : tx.Fits) (hfits' : tx'.Fits) (hlength : lock.length < 2 ^ 64)
    (hlength' : lock'.length < 2 ^ 64) (hposition : position < tx.inputs.length)
    (hlock : lock ≠ []) :
    (tx.signingPreimage position lock = tx'.signingPreimage position' lock' ↔
      tx.inputs.map Input.reference = tx'.inputs.map Input.reference ∧ tx.outputs = tx'.outputs ∧
        position = position' ∧ lock = lock') ∧
    (tx.signingDigest position lock = tx'.signingDigest position' lock' ↔
      tx.signingPreimage position lock = tx'.signingPreimage position' lock' ∨
        IsCollision (tx.signingPreimage position lock) (tx'.signingPreimage position' lock')) := by
  refine ⟨⟨fun h => ?_, ?_⟩, sha256_eq_iff⟩
  · rw [signingPreimage_eq, signingPreimage_eq] at h
    obtain ⟨hinputs, houtputs⟩ :=
      parts_of_idPreimage (fits_signingForm hfits hlength) (fits_signingForm hfits' hlength') h
    have hreferences := congrArg (List.map Input.reference) hinputs
    rw [map_reference_signingForm, map_reference_signingForm] at hreferences
    -- the key fields at the first position: the lock on one side
    have hkeys := congrArg (fun inputs : List Input => inputs[position]?.map Input.key) hinputs
    simp only [getElem?_key_signingForm, if_true] at hkeys
    rw [List.getElem?_eq_getElem hposition, Option.map_some, eq_comm,
      Option.map_eq_some_iff] at hkeys
    obtain ⟨_, _, hkey⟩ := hkeys
    split at hkey
    · rename_i hsame
      exact ⟨hreferences, houtputs, hsame, hkey.symm⟩
    · exact absurd hkey.symm hlock
  · rintro ⟨hreferences, houtputs, rfl, rfl⟩
    rw [signingPreimage_eq, signingPreimage_eq, signingForm, signingForm, hreferences, houtputs]

end Transaction

namespace Fork

/-- The double claim without its keys and signatures, and under another id. -/
def bareClaim : Transaction := { doubleClaim.trimmed with id := reward.id }

/-- The two claims refer to one output, and are signed for different strings. Keys, signatures
and the id make no difference. -/
theorem signingPreimage_doubleClaim :
    doubleClaim.signingPreimage 0 alice ≠ doubleClaim.signingPreimage 1 alice ∧
      doubleClaim.signingPreimage 1 alice = bareClaim.signingPreimage 1 alice := by
  have hfits : doubleClaim.Fits ∧ bareClaim.Fits := by decide
  constructor
  · rw [Ne, (Transaction.signingPreimage_eq_iff doubleClaim doubleClaim 0 1 alice alice hfits.1
      hfits.1 (by decide) (by decide) (by decide) (by decide)).1]
    exact fun h => absurd h.2.2.1 (by decide)
  · rw [(Transaction.signingPreimage_eq_iff doubleClaim bareClaim 1 1 alice alice hfits.1 hfits.2
      (by decide) (by decide) (by decide) (by decide)).1]
    exact ⟨rfl, rfl, rfl, rfl⟩

end Fork

end CoinLedger
