import CoinLedger.Proofs.Mining
import CoinLedger.Proofs.SigningDigests

/-!
# Signing that fails

Signing puts its signatures into the transaction one after the other, and recomputes the id
when all are made. An input whose output is not found stops it. The inputs behind that one are
as they were, and the ones ahead of it are signed, under the old id: so a transaction that was
under the hash of its content is so no longer, unless the signatures that were written are the
ones that stood there.

`Transaction.partlySigned` is what a failed signing leaves. The main statement,
`Transaction.failed_sign_intact_iff`, says when this is the transaction as it was.
-/

namespace CoinLedger

namespace References

variable {refs : References} {inputs : List Input} {i : Input}

/-- The inputs ahead of the first one whose output is not found. -/
def ahead (refs : References) (inputs : List Input) : List Input :=
  inputs.takeWhile fun i => (refs.output? i).isSome

/-- The first input whose output is not found, and the inputs after it. -/
def behind (refs : References) (inputs : List Input) : List Input :=
  inputs.dropWhile fun i => (refs.output? i).isSome

theorem ahead_append_behind (refs : References) (inputs : List Input) :
    refs.ahead inputs ++ refs.behind inputs = inputs :=
  List.takeWhile_append_dropWhile

theorem ahead_cons_of_none (h : refs.output? i = none) : refs.ahead (i :: inputs) = [] := by
  simp [ahead, h]

theorem behind_cons_of_none (h : refs.output? i = none) :
    refs.behind (i :: inputs) = i :: inputs := by
  simp [behind, h]

theorem ahead_cons_of_some {o : Output} (h : refs.output? i = some o) :
    refs.ahead (i :: inputs) = i :: refs.ahead inputs := by
  simp [ahead, h]

theorem behind_cons_of_some {o : Output} (h : refs.output? i = some o) :
    refs.behind (i :: inputs) = refs.behind inputs := by
  simp [behind, h]

end References

namespace Transaction

variable {S : SignatureScheme} {secret : SecretKey} {refs : References} {tx left : Transaction}
  {e : LedgerError}

/-- An input with the signature that the key makes for it at its position. It is left alone if
there is no output to sign it for. -/
def signedInput (S : SignatureScheme) (secret : SecretKey) (refs : References) (tx : Transaction)
    (position : Nat) (i : Input) : Input :=
  match refs.output? i with
  | none => i
  | some o => { i with signature := S.sign secret (tx.signingDigest position o.lock) }

/-- The transaction with signatures ahead of the first input whose output is not found. -/
def partlySigned (S : SignatureScheme) (secret : SecretKey) (refs : References)
    (tx : Transaction) : Transaction :=
  { tx with
    inputs := (refs.ahead tx.inputs).mapIdx (tx.signedInput S secret refs) ++
      refs.behind tx.inputs }

/-- All inputs ahead of the first one whose output is not found carry the very signatures that
the key makes for them. -/
def SignedAhead (S : SignatureScheme) (secret : SecretKey) (refs : References)
    (tx : Transaction) : Prop :=
  ∀ (position : Nat) (i : Input) (o : Output), (refs.ahead tx.inputs)[position]? = some i →
    refs.output? i = some o → i.signature = S.sign secret (tx.signingDigest position o.lock)

/-- A transaction is left with its id, and but for signatures as it was. It is left intact
exactly under the condition; in any other case, if it was under the hash of its content, it is
so no longer, but for a collision. -/
structure IntactIff (condition : Prop) (tx left : Transaction) : Prop where
  intact : left = tx ↔ condition
  id : left.id = tx.id
  withoutSignatures : left.withoutSignatures = tx.withoutSignatures
  contentHash : tx.id = tx.contentHash →
    (left.id = left.contentHash ↔ condition ∨ IsCollision tx.idPreimage left.idPreimage)

/-- What is not touched is intact. -/
theorem intactIff_self {condition : Prop} (h : condition) : IntactIff condition tx tx :=
  ⟨iff_of_true rfl h, rfl, rfl, fun hid => iff_of_true hid (.inl h)⟩

/-! ## Where signing stops -/

theorem signedInput_eq_iff {position : Nat} {i : Input} :
    tx.signedInput S secret refs position i = i ↔
      ∀ o, refs.output? i = some o →
        i.signature = S.sign secret (tx.signingDigest position o.lock) := by
  unfold signedInput
  split
  · rename_i hnone
    simp [hnone]
  · rename_i o hsome
    obtain ⟨source, index, signature, key⟩ := i
    simp [hsome, eq_comm]

theorem unsigned_signedInput (position : Nat) (i : Input) :
    Input.unsigned (tx.signedInput S secret refs position i).source
        (tx.signedInput S secret refs position i).index
        (tx.signedInput S secret refs position i).key =
      Input.unsigned i.source i.index i.key := by
  unfold signedInput
  split <;> rfl

theorem fits_signedInput {position : Nat} {i : Input} (h : i.Fits)
    (hlength : ∀ digest, (S.sign secret digest).length < 2 ^ 64) :
    (tx.signedInput S secret refs position i).Fits := by
  unfold signedInput
  split
  · exact h
  · exact ⟨hlength _, h.2⟩

/-- One pass signs what is ahead of the first input without an output, and stops there. -/
theorem signInputs_eq_append (S : SignatureScheme) (secret : SecretKey) (refs : References)
    (tx : Transaction) (position : Nat) (inputs : List Input) :
    signInputs S secret refs tx position inputs =
      ((refs.ahead inputs).mapIdx (fun n i => tx.signedInput S secret refs (position + n) i) ++
        refs.behind inputs, (refs.behind inputs).head?) := by
  induction inputs generalizing position with
  | nil => rfl
  | cons i rest ih =>
      cases ho : refs.output? i with
      | none =>
          rw [References.ahead_cons_of_none ho, References.behind_cons_of_none ho]
          simp [signInputs, ho]
      | some o =>
          rw [References.ahead_cons_of_some ho, References.behind_cons_of_some ho]
          simp only [signInputs, ho, ih, List.mapIdx_cons, List.cons_append]
          simp [signedInput, ho, Nat.add_assoc, Nat.add_comm 1]

/-- Signing fails at the first input without an output, and names it. -/
theorem signOrFail_eq_error_iff :
    tx.signOrFail S secret refs = (left, .error e) ↔
      tx.isCoinbase = false ∧ ∃ missing, (refs.behind tx.inputs).head? = some missing ∧
        e = .notFound (.output missing.source missing.index tx.id) ∧
        left = tx.partlySigned S secret refs := by
  have hinputs := signInputs_eq_append S secret refs tx 0 tx.inputs
  simp only [Nat.zero_add] at hinputs
  rw [signOrFail, sign, hinputs]
  cases tx.isCoinbase with
  | true => simp
  | false =>
      cases hmissing : (refs.behind tx.inputs).head? with
      | none => simp
      | some missing =>
          simp only [Bool.false_eq_true, if_false, Prod.mk.injEq, Except.error.injEq, true_and,
            Option.some.injEq, exists_eq_left']
          exact ⟨fun h => ⟨h.2.symm, h.1.symm⟩, fun h => ⟨h.2.symm, h.1.symm⟩⟩

/-! ## What it leaves -/

theorem partlySigned_eq_iff :
    tx.partlySigned S secret refs = tx ↔ tx.SignedAhead S secret refs := by
  have hinputs : tx.partlySigned S secret refs = tx ↔
      (refs.ahead tx.inputs).mapIdx (tx.signedInput S secret refs) = refs.ahead tx.inputs := by
    constructor
    · intro h
      apply (List.append_left_inj (refs.behind tx.inputs)).mp
      rw [References.ahead_append_behind]
      exact congrArg Transaction.inputs h
    · intro h
      rw [partlySigned, h, References.ahead_append_behind]
  rw [hinputs, List.ext_getElem?_iff]
  constructor
  · intro h position i o hi ho
    have hsigned := h position
    rw [List.getElem?_mapIdx, hi, Option.map_some, Option.some.injEq, signedInput_eq_iff] at hsigned
    exact hsigned o ho
  · intro h position
    rw [List.getElem?_mapIdx]
    cases hi : (refs.ahead tx.inputs)[position]? with
    | none => rfl
    | some i => exact congrArg some (signedInput_eq_iff.mpr fun o ho => h position i o hi ho)

/-- Input by input: what is ahead of the first one without an output is signed. -/
theorem getElem?_partlySigned (S : SignatureScheme) (secret : SecretKey) (refs : References)
    (tx : Transaction) (n : Nat) :
    (tx.partlySigned S secret refs).inputs[n]? = tx.inputs[n]?.map fun i =>
      if n < (refs.ahead tx.inputs).length then tx.signedInput S secret refs n i else i := by
  have hsplit : tx.inputs[n]? = (refs.ahead tx.inputs ++ refs.behind tx.inputs)[n]? := by
    rw [References.ahead_append_behind]
  rw [hsplit, partlySigned, List.getElem?_append, List.getElem?_append, List.length_mapIdx]
  split
  · rw [List.getElem?_mapIdx]
  · exact (Option.map_id' ..).symm

theorem withoutSignatures_partlySigned (S : SignatureScheme) (secret : SecretKey)
    (refs : References) (tx : Transaction) :
    (tx.partlySigned S secret refs).withoutSignatures = tx.withoutSignatures := by
  have hinputs : (tx.partlySigned S secret refs).withoutSignatures.inputs =
      tx.withoutSignatures.inputs := by
    ext1 n
    rw [withoutSignatures, withoutSignatures, List.getElem?_map, List.getElem?_map,
      getElem?_partlySigned, Option.map_map]
    congr 1
    funext i
    show Input.unsigned _ _ _ = _
    split
    · exact unsigned_signedInput n i
    · rfl
  exact congrArg (Transaction.mk Digest.zero · tx.outputs) hinputs

theorem fits_partlySigned (h : tx.Fits)
    (hlength : ∀ digest, (S.sign secret digest).length < 2 ^ 64) :
    (tx.partlySigned S secret refs).Fits := by
  refine ⟨?_, fun signed hsigned => ?_, h.outputs_length, h.outputs⟩
  · have hcount := congrArg (List.length ∘ Transaction.inputs)
      (withoutSignatures_partlySigned S secret refs tx)
    simp only [withoutSignatures, Function.comp_apply, List.length_map] at hcount
    exact hcount ▸ h.inputs_length
  · obtain ⟨n, hn⟩ := List.mem_iff_getElem?.mp hsigned
    rw [getElem?_partlySigned, Option.map_eq_some_iff] at hn
    obtain ⟨i, hi, rfl⟩ := hn
    have hinput := h.inputs i (List.mem_of_getElem? hi)
    split
    · exact fits_signedInput hinput hlength
    · exact hinput

/-- The id that is left commits to what is left only if nothing was written. -/
theorem intactIff_partlySigned (h : tx.Fits)
    (hlength : ∀ digest, (S.sign secret digest).length < 2 ^ 64) :
    IntactIff (tx.SignedAhead S secret refs) tx (tx.partlySigned S secret refs) := by
  refine ⟨partlySigned_eq_iff, rfl, withoutSignatures_partlySigned S secret refs tx, fun hid => ?_⟩
  have hpreimage : tx.idPreimage = (tx.partlySigned S secret refs).idPreimage ↔
      tx.SignedAhead S secret refs := by
    rw [← partlySigned_eq_iff]
    constructor
    · intro heq
      have hinputs := (parts_of_idPreimage h (fits_partlySigned h hlength) heq).1
      exact congrArg (Transaction.mk tx.id · tx.outputs) hinputs.symm
    · intro heq
      rw [heq]
  rw [← hpreimage, ← sha256_eq_iff]
  show tx.id = _ ↔ _
  rw [hid]
  rfl

/-- Signing that fails leaves the transaction intact exactly if the inputs ahead of the first
one whose output is not found carried the signatures that the key makes for them. On a ledger
it also does if the transactions that are referred to cannot all be read. -/
theorem failed_sign_intact_iff (S : SignatureScheme) (secret : SecretKey) (tx : Transaction)
    (hfits : tx.Fits) (hlength : ∀ digest, (S.sign secret digest).length < 2 ^ 64) :
    (∀ refs left e, tx.signOrFail S secret refs = (left, .error e) →
      IntactIff (tx.SignedAhead S secret refs) tx left) ∧
    ∀ l : Ledger, l.rules.scheme = S → ∀ left e, l.signTransaction tx secret = (left, .error e) →
      IntactIff (∀ refs, Chain.references l.store tx = .ok refs → tx.SignedAhead S secret refs)
        tx left := by
  have hsign : ∀ refs left e, tx.signOrFail S secret refs = (left, .error e) →
      IntactIff (tx.SignedAhead S secret refs) tx left := by
    intro refs left e h
    obtain ⟨_, _, _, _, rfl⟩ := signOrFail_eq_error_iff.mp h
    exact intactIff_partlySigned hfits hlength
  refine ⟨hsign, ?_⟩
  rintro l rfl left e h
  unfold Ledger.signTransaction at h
  split at h
  · rename_i hrefs
    obtain ⟨rfl, _⟩ := Prod.mk.inj h
    exact intactIff_self fun refs hok => absurd (hrefs.symm.trans hok) (by simp)
  · rename_i refs hrefs
    have hcondition : (∀ refs', Chain.references l.store tx = .ok refs' →
        tx.SignedAhead l.rules.scheme secret refs') ↔
      tx.SignedAhead l.rules.scheme secret refs := by
      simp [hrefs]
    rw [hcondition]
    exact hsign refs left e h

end Transaction

namespace Secp256k1

-- of the function and not of its values: to compare those, the generator would be run
theorem sign_eq : scheme.sign = fun secret digest =>
    match (NonceState.seed secret digest).firstSignature secret digest.toNat 64 with
    | some sig => sig.bytes
    | none => [] := rfl

/-- A signature has 64 bytes; there is none if all tries of the generator are in vain. -/
theorem length_sign_le (secret : SecretKey) (digest : Digest) :
    (scheme.sign secret digest).length ≤ 64 := by
  rw [sign_eq]
  dsimp only
  cases (NonceState.seed secret digest).firstSignature secret digest.toNat 64 with
  | none => exact Nat.zero_le 64
  | some sig => simp [Signature.bytes]

end Secp256k1

namespace Fork

/-- A peer on the store of the ledger that has accepted the root. -/
def rootedPeer : Ledger := Ledger.onStore rules rooted.store

/-- Alice's claim to her reward and to an output that it does not have, under the hash of its
content and not signed yet. -/
def halfClaim : Transaction :=
  Transaction.ofParts [Input.unsigned reward.id 0 spend.key, Input.unsigned reward.id 7 spend.key]
    [⟨100, bob⟩]

/-- The claim with a signature at the first input, under the same id. -/
def halfSigned : Transaction where
  id := halfClaim.id
  inputs := [{
    source := reward.id
    index := 0
    signature :=
      Bytes.bigEndian 32 0xec4533835ebf32ae1a8db71dd5c6634fc650157a3c77122127055cbfe30bd2c9 ++
        Bytes.bigEndian 32 0x3adbcbadeb26f8dbb4f8eac22300b0017eb22d2b8245f23bb5cbd1fb251487e8
    key := spend.key },
    Input.unsigned reward.id 7 spend.key]
  outputs := [⟨100, bob⟩]

theorem signTransaction_halfClaim : rootedPeer.signTransaction halfClaim aliceKey =
    (halfSigned, .error (.notFound (.output reward.id 7 halfClaim.id))) := by
  decide +kernel

theorem halfSigned_ne_halfClaim : halfSigned ≠ halfClaim := by
  decide +kernel

/-- The claim can be signed at its first input only, and is left half signed under its old id,
which is then not the hash of its content. -/
theorem halfClaim_not_intact :
    rootedPeer.signTransaction halfClaim aliceKey =
        (halfSigned, .error (.notFound (.output reward.id 7 halfClaim.id))) ∧
      halfSigned ≠ halfClaim ∧ halfClaim.id = halfClaim.contentHash ∧
        halfSigned.id ≠ halfSigned.contentHash := by
  refine ⟨signTransaction_halfClaim, halfSigned_ne_halfClaim, ?_⟩
  decide +kernel

/-- The claim did not carry the signature that its first input was given. -/
theorem failed_sign_halfClaim :
    halfClaim.Fits ∧ (∀ digest, (Secp256k1.scheme.sign aliceKey digest).length < 2 ^ 64) ∧
      rootedPeer.signTransaction halfClaim aliceKey =
        (halfSigned, .error (.notFound (.output reward.id 7 halfClaim.id))) ∧
      ¬ ∀ refs, Chain.references rootedPeer.store halfClaim = .ok refs →
        halfClaim.SignedAhead Secp256k1.scheme aliceKey refs := by
  have hfits : halfClaim.Fits := by decide
  have hlength : ∀ digest, (Secp256k1.scheme.sign aliceKey digest).length < 2 ^ 64 :=
    fun digest => Nat.lt_of_le_of_lt (Secp256k1.length_sign_le aliceKey digest) (by decide)
  have hleft := (Transaction.failed_sign_intact_iff Secp256k1.scheme aliceKey halfClaim hfits
    hlength).2 rootedPeer rfl _ _ signTransaction_halfClaim
  refine ⟨hfits, hlength, signTransaction_halfClaim, fun hsigned => ?_⟩
  exact halfSigned_ne_halfClaim (hleft.intact.mpr hsigned)

end Fork

end CoinLedger
