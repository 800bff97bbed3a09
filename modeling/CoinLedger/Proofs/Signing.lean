import CoinLedger.Proofs.Supply

/-!
# Signing and verifying

A signature is made for a digest of the transaction without its id and its signatures, so
what stood there before does not matter, and what signing changes does not matter either:
each input is signed for the digest that the verifier computes afterwards.

`Transaction.withoutSignatures` is what the digests depend on, and `Transaction.signedFor`
what signing makes of a transaction whose inputs all consume outputs of the signer. The
main statement is `Transaction.sign_verifies`. Of the scheme it asks for one law, at the
digests in question: a signature that is made with a key is accepted under its public key.
-/

namespace CoinLedger

/-- A signature of the digest with the key is accepted under the key's public key. -/
def SignatureScheme.Honours (S : SignatureScheme) (secret : SecretKey) (digest : Digest) : Prop :=
  S.verify (S.publicKey secret) digest (S.sign secret digest) = true

namespace Transaction

variable {S : SignatureScheme} {secret : SecretKey} {refs : References} {tx tx' : Transaction}
  {lock : Bytes}

/-- The transaction with its id and all signatures cleared: outpoints, public keys and
outputs are left. -/
def withoutSignatures (tx : Transaction) : Transaction where
  id := Digest.zero
  inputs := tx.inputs.map fun i => Input.unsigned i.source i.index i.key
  outputs := tx.outputs

/-- The transaction with a signature at every input, made for an output with the lock, and
under the id that its content has then. -/
def signedFor (S : SignatureScheme) (secret : SecretKey) (lock : Bytes) (tx : Transaction) :
    Transaction :=
  withContentId { tx with
    inputs := tx.inputs.mapIdx fun position i =>
      { i with signature := S.sign secret (tx.signingDigest position lock) } }

/-- The transaction is no coinbase, and each of its inputs carries the public key of the
secret one and names an output that is locked to it. -/
structure OwnedBy (S : SignatureScheme) (secret : SecretKey) (refs : References)
    (tx : Transaction) : Prop where
  spends : tx.isCoinbase = false
  key : ∀ i ∈ tx.inputs, i.key = S.publicKey secret
  output : ∀ i ∈ tx.inputs, ∃ (prev : Transaction) (place : Nat) (o : Output),
    refs.find? i.source = some prev ∧ i.index.toInt = place ∧ prev.outputs[place]? = some o ∧
      o.lock = S.lockOf secret

/-! ## What the digests depend on -/

theorem signingDigest_withoutSignatures (tx : Transaction) (position : Nat) (lock : Bytes) :
    tx.withoutSignatures.signingDigest position lock = tx.signingDigest position lock := by
  have htrimmed : tx.withoutSignatures.trimmed = { tx.trimmed with id := Digest.zero } := by
    simp [withoutSignatures, trimmed, Input.unsigned]
  rw [signingDigest, signingDigest, signingPreimage, signingPreimage, htrimmed]
  rfl

theorem signingDigest_congr (h : tx.withoutSignatures = tx'.withoutSignatures) :
    tx.signingDigest = tx'.signingDigest := by
  funext position lock
  rw [← signingDigest_withoutSignatures, h, signingDigest_withoutSignatures]

theorem isCoinbase_withoutSignatures (tx : Transaction) :
    tx.withoutSignatures.isCoinbase = tx.isCoinbase := by
  obtain ⟨id, inputs, outputs⟩ := tx
  match inputs with
  | [] => rfl
  | [_] => rfl
  | _ :: _ :: _ => rfl

/-- Whether a transaction is owned does not depend on its id and signatures. -/
theorem OwnedBy.congr (ht : tx.OwnedBy S secret refs)
    (h : tx'.withoutSignatures = tx.withoutSignatures) : tx'.OwnedBy S secret refs := by
  have hinputs : ∀ i ∈ tx'.inputs, ∃ i' ∈ tx.inputs,
      i'.source = i.source ∧ i'.index = i.index ∧ i'.key = i.key := by
    intro i hi
    have hmem : Input.unsigned i.source i.index i.key ∈ tx.withoutSignatures.inputs := by
      rw [← h]
      exact List.mem_map.mpr ⟨i, hi, rfl⟩
    obtain ⟨i', hi', heq⟩ := List.mem_map.mp hmem
    obtain ⟨hsource, hindex, _, hkey⟩ := Input.mk.inj heq
    exact ⟨i', hi', hsource, hindex, hkey⟩
  refine ⟨?_, fun i hi => ?_, fun i hi => ?_⟩
  · rw [← isCoinbase_withoutSignatures, h, isCoinbase_withoutSignatures]
    exact ht.spends
  · obtain ⟨i', hi', _, _, hkey⟩ := hinputs i hi
    exact hkey ▸ ht.key i' hi'
  · obtain ⟨i', hi', hsource, hindex, _⟩ := hinputs i hi
    exact hsource ▸ hindex ▸ ht.output i' hi'

/-- The output that an input of an owned transaction consumes. -/
theorem OwnedBy.output? (h : tx.OwnedBy S secret refs) {i : Input} (hi : i ∈ tx.inputs) :
    ∃ o, refs.output? i = some o ∧ o.lock = S.lockOf secret := by
  obtain ⟨prev, place, o, hprev, hindex, ho, hlock⟩ := h.output i hi
  have hlt : place < 2 ^ 32 := by
    have := i.index.toInt_lt
    omega
  refine ⟨o, References.output?_eq_some.mpr ⟨UInt32.ofNat place, prev, ?_, hprev, ?_⟩, hlock⟩
  · rw [Input.place?_eq_some_iff, UInt32.toNat_ofNat_of_lt' hlt, hindex]
  · rwa [UInt32.toNat_ofNat_of_lt' hlt]

/-! ## What signing makes of a transaction -/

/-- Inputs that all consume outputs with one lock are all signed. -/
theorem signInputs_eq (S : SignatureScheme) (secret : SecretKey) (tx : Transaction)
    {inputs : List Input} (h : ∀ i ∈ inputs, ∃ o, refs.output? i = some o ∧ o.lock = lock)
    (position : Nat) :
    signInputs S secret refs tx position inputs =
      (inputs.mapIdx fun n i =>
        { i with signature := S.sign secret (tx.signingDigest (position + n) lock) }, none) := by
  induction inputs generalizing position with
  | nil => rfl
  | cons i rest ih =>
      obtain ⟨o, ho, rfl⟩ := h i List.mem_cons_self
      have hrest := ih (fun j hj => h j (List.mem_cons_of_mem _ hj)) (position + 1)
      simp only [signInputs, ho, hrest, List.mapIdx_cons, Nat.add_zero, Nat.add_right_comm _ 1,
        Nat.add_assoc]

theorem OwnedBy.signOrFail_eq (h : tx.OwnedBy S secret refs) :
    tx.signOrFail S secret refs = (tx.signedFor S secret (S.lockOf secret), .ok ()) := by
  have hinputs := signInputs_eq S secret tx (fun i hi => h.output? hi) 0
  simp only [Nat.zero_add] at hinputs
  rw [signOrFail, sign, h.spends, hinputs]
  rfl

/-- Outpoints, public keys and outputs stay what they were. -/
theorem withoutSignatures_signedFor (S : SignatureScheme) (secret : SecretKey) (lock : Bytes)
    (tx : Transaction) : (tx.signedFor S secret lock).withoutSignatures = tx.withoutSignatures := by
  have hinputs : (tx.signedFor S secret lock).withoutSignatures.inputs =
      tx.withoutSignatures.inputs := by
    refine List.ext_getElem? fun n => ?_
    simp only [withoutSignatures, signedFor, withContentId, List.getElem?_map,
      List.getElem?_mapIdx, Option.map_map]
    rfl
  exact congrArg (Transaction.mk Digest.zero · tx.outputs) hinputs

/-- What signing makes of a transaction does not depend on its id and signatures. -/
theorem signedFor_withoutSignatures (S : SignatureScheme) (secret : SecretKey) (lock : Bytes)
    (tx : Transaction) :
    tx.withoutSignatures.signedFor S secret lock = tx.signedFor S secret lock := by
  have hinputs : (tx.withoutSignatures.signedFor S secret lock).inputs =
      (tx.signedFor S secret lock).inputs := by
    refine List.ext_getElem? fun n => ?_
    simp only [signedFor, withContentId, signingDigest_withoutSignatures]
    simp only [withoutSignatures, List.getElem?_map, List.getElem?_mapIdx, Option.map_map]
    rfl
  -- both are under the id that these inputs and outputs have
  exact congrArg (fun inputs => withContentId ⟨Digest.zero, inputs, tx.outputs⟩) hinputs

/-- An input verifies if its key opens the output that it consumes and its signature is
accepted for the digest at its position. -/
theorem inputVerifies_of_output? {position : Nat} {i : Input} {o : Output}
    (ho : refs.output? i = some o) (hkey : i.usesKey o.lock = true)
    (hverify : S.verify i.key (tx.signingDigest position o.lock) i.signature = true) :
    tx.inputVerifies S refs position i = true := by
  rw [inputVerifies, ho]
  exact Bool.and_eq_true_iff.mpr ⟨hkey, hverify⟩

/-- Each input was signed for the digest that the verifier computes, since signing does not
change what the digests depend on. -/
theorem OwnedBy.verifies_signedFor (h : tx.OwnedBy S secret refs)
    (hlaw : ∀ position < tx.inputs.length,
      S.Honours secret (tx.signingDigest position (S.lockOf secret))) :
    (tx.signedFor S secret (S.lockOf secret)).verifies S refs = true := by
  rw [verifies, Bool.or_eq_true, List.all_eq_true]
  right
  rintro ⟨signed, position⟩ hmem
  have hsigned : (tx.inputs.mapIdx _)[position]? = some signed :=
    List.mem_zipIdx_iff_getElem?.mp hmem
  rw [List.getElem?_mapIdx, Option.map_eq_some_iff] at hsigned
  obtain ⟨i, hi, rfl⟩ := hsigned
  have hinput := List.mem_of_getElem? hi
  obtain ⟨o, ho, hlock⟩ := h.output? hinput
  have hkey : i.usesKey o.lock = true := by
    rw [Input.usesKey, h.key i hinput, hlock]
    exact decide_eq_true rfl
  refine inputVerifies_of_output? ho hkey ?_
  rw [signingDigest_congr (withoutSignatures_signedFor S secret _ tx), h.key i hinput, hlock]
  exact hlaw position (List.getElem?_eq_some_iff.mp hi).1

/-- Signing an owned transaction succeeds, and what it leaves verifies. It is under the
hash of its content, consumes and pays what it did before, and is the same whatever id and
signatures there were before. -/
theorem sign_verifies (S : SignatureScheme) (secret : SecretKey) (refs : References)
    (tx : Transaction) (howned : tx.OwnedBy S secret refs)
    (hlaw : ∀ position < tx.inputs.length,
      S.Honours secret (tx.signingDigest position (S.lockOf secret))) :
    ∃ signed, tx.signOrFail S secret refs = (signed, .ok ()) ∧ signed.verifies S refs = true ∧
      signed.id = signed.contentHash ∧ signed.withoutSignatures = tx.withoutSignatures ∧
      ∀ tx' : Transaction, tx'.withoutSignatures = tx.withoutSignatures →
        tx'.signOrFail S secret refs = (signed, .ok ()) := by
  refine ⟨tx.signedFor S secret (S.lockOf secret), howned.signOrFail_eq,
    howned.verifies_signedFor hlaw, rfl, withoutSignatures_signedFor S secret _ tx,
    fun tx' hsame => ?_⟩
  rw [(howned.congr hsame).signOrFail_eq, ← signedFor_withoutSignatures, hsame,
    signedFor_withoutSignatures]

end Transaction

namespace Fork

/-- Alice's claim to her reward, made twice, under no id and with a signature that is none. -/
def doubleClaim : Transaction where
  id := Digest.zero
  inputs := [{ spend with signature := [1] }, { spend with signature := [] }]
  outputs := [⟨100, bob⟩]

theorem doubleClaim_owned : doubleClaim.OwnedBy Secp256k1.scheme aliceKey [reward] := by
  have hkey : Secp256k1.scheme.publicKey aliceKey = spend.key := by decide +kernel
  have hlock : Secp256k1.scheme.lockOf aliceKey = alice := by decide +kernel
  have hspend :
      ∀ i ∈ doubleClaim.inputs, i.source = reward.id ∧ i.index = 0 ∧ i.key = spend.key := by
    decide
  refine ⟨rfl, fun i hi => ?_, fun i hi => ?_⟩
  · rw [hkey]
    exact (hspend i hi).2.2
  · obtain ⟨hsource, hindex, _⟩ := hspend i hi
    rw [hsource, hindex, hlock]
    exact ⟨reward, 0, ⟨100, alice⟩, by decide, rfl, rfl, rfl⟩

/-- Both claims are signed, and the transaction verifies. -/
theorem sign_verifies_doubleClaim :
    doubleClaim.OwnedBy Secp256k1.scheme aliceKey [reward] ∧
      (∀ position < doubleClaim.inputs.length, Secp256k1.scheme.Honours aliceKey
        (doubleClaim.signingDigest position (Secp256k1.scheme.lockOf aliceKey))) ∧
      ∃ signed, doubleClaim.signOrFail Secp256k1.scheme aliceKey [reward] = (signed, .ok ()) ∧
        signed.verifies Secp256k1.scheme [reward] = true ∧ signed.outputs = [⟨100, bob⟩] := by
  have hlaw : ∀ position < doubleClaim.inputs.length, Secp256k1.scheme.Honours aliceKey
      (doubleClaim.signingDigest position (Secp256k1.scheme.lockOf aliceKey)) := by
    unfold SignatureScheme.Honours
    decide +kernel
  obtain ⟨signed, hsign, hverifies, _, hsame, _⟩ :=
    Transaction.sign_verifies Secp256k1.scheme aliceKey [reward] doubleClaim doubleClaim_owned hlaw
  exact ⟨doubleClaim_owned, hlaw, signed, hsign, hverifies, congrArg Transaction.outputs hsame⟩

end Fork

end CoinLedger
