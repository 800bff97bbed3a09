import CoinLedger.Proofs.CoinSelection
import CoinLedger.Proofs.Increment
import CoinLedger.Proofs.Signing

/-!
# What it takes to build a payment

On a chain on which no id comes twice, with the index that a rebuild leaves, what a sender
can spend is a list: the unspent outputs of the chain with the sender's lock, in storage
order. `Payment.build_affordable` says what becomes of a payment by this list alone. It is
refused for want of funds exactly when the whole list is worth less than the amount, and
for an overflow exactly when the shortest sufficient front of the list is worth more than an
amount can be. Otherwise it is built, from the outputs of this front, and it is as good as a
payment can be (`Payment.Settles`): nothing is lost or gained, every ledger on the store
verifies it, and it can be mined.

Of the signature scheme one law is asked for, at the digests of the payment's inputs: a
signature made with the sender's key is accepted under its public key.
-/

namespace CoinLedger

open Coin (worthOf front Reaches)

/-! ## What a chain leaves over, in order -/

namespace Transaction

theorem indexedOutputs_sorted {tx : Transaction} (h : tx.outputs.length ≤ 2 ^ 31) :
    tx.indexedOutputs.Pairwise fun p q => p.1 < q.1 := by
  rw [indexedOutputs, List.pairwise_map, List.pairwise_iff_getElem]
  intro i j hi hj hlt
  rw [List.length_zipIdx] at hi hj
  rw [UInt32.lt_iff_toNat_lt]
  simp only [List.getElem_zipIdx, Nat.zero_add]
  rw [UInt32.toNat_ofNat_of_lt' (Nat.lt_of_lt_of_le hi (Nat.le_trans h (by decide))),
    UInt32.toNat_ofNat_of_lt' (Nat.lt_of_lt_of_le hj (Nat.le_trans h (by decide)))]
  exact hlt

end Transaction

theorem outputsUnder_of_mem {txs : List Transaction} (hids : (txs.map Transaction.id).Nodup)
    {tx : Transaction} (htx : tx ∈ txs) : outputsUnder txs tx.id = tx.indexedOutputs := by
  obtain ⟨before, after, rfl⟩ := List.append_of_mem htx
  rw [List.map_append, List.map_cons, List.nodup_middle, List.nodup_cons] at hids
  have hother : ∀ t ∈ before ++ after, t.id ≠ tx.id := by
    intro t ht heq
    refine hids.1 ?_
    rw [← List.map_append]
    exact List.mem_map.mpr ⟨t, ht, heq⟩
  rw [outputsUnder_append, outputsUnder_cons_self,
    outputsUnder_eq_nil fun t ht => hother t (List.mem_append_left _ ht),
    outputsUnder_eq_nil fun t ht => hother t (List.mem_append_right _ ht), List.nil_append,
    List.append_nil]

namespace Unspent

variable {s : Store} {bs : List Block} {id : Digest}

theorem leftover_sublist (id : Digest) (bs : List Block) :
    (leftover id bs).Sublist (outputsUnder (Block.chainTransactions bs) id) := by
  induction bs with
  | nil => exact List.nil_sublist _
  | cons b rest ih =>
      rw [leftover, Block.chainTransactions, List.flatMap_cons, outputsUnder_append]
      exact List.filter_sublist.trans ((List.Sublist.refl _).append ih)

/-- Where no id comes twice, the entry of an id lists outputs of one transaction, in order. -/
theorem leftover_cases (hids : ((Block.chainTransactions bs).map Transaction.id).Nodup)
    (id : Digest) : leftover id bs = [] ∨
      ∃ tx ∈ Block.chainTransactions bs, (leftover id bs).Sublist tx.indexedOutputs := by
  have hsublist := leftover_sublist id bs
  by_cases hid : ∃ tx ∈ Block.chainTransactions bs, tx.id = id
  · obtain ⟨tx, htx, rfl⟩ := hid
    rw [outputsUnder_of_mem hids htx] at hsublist
    exact .inr ⟨tx, htx, hsublist⟩
  · rw [outputsUnder_eq_nil fun tx htx heq => hid ⟨tx, htx, heq⟩] at hsublist
    exact .inl (List.sublist_nil.mp hsublist)

theorem leftover_sorted (hids : ((Block.chainTransactions bs).map Transaction.id).Nodup)
    (hplaces : ∀ tx ∈ Block.chainTransactions bs, tx.outputs.length ≤ 2 ^ 31) (id : Digest) :
    (leftover id bs).Pairwise fun p q => p.1 < q.1 := by
  rcases leftover_cases hids id with hnil | ⟨tx, htx, hsublist⟩
  · rw [hnil]
    exact List.Pairwise.nil
  · exact (Transaction.indexedOutputs_sorted (hplaces tx htx)).sublist hsublist

theorem length_leftover_lt (hids : ((Block.chainTransactions bs).map Transaction.id).Nodup)
    (hplaces : ∀ tx ∈ Block.chainTransactions bs, tx.outputs.length ≤ 2 ^ 31) (id : Digest) :
    (leftover id bs).length < 2 ^ 64 := by
  rcases leftover_cases hids id with hnil | ⟨tx, htx, hsublist⟩
  · rw [hnil, List.length_nil]
    exact Nat.two_pow_pos 64
  · calc (leftover id bs).length
        ≤ tx.indexedOutputs.length := hsublist.length_le
      _ = tx.outputs.length := by
        rw [Transaction.indexedOutputs, List.length_map, List.length_zipIdx]
      _ ≤ 2 ^ 31 := hplaces tx htx
      _ < 2 ^ 64 := Nat.pow_lt_pow_right (by decide) (by decide)

theorem placesFit_of_le (h : ∀ tx ∈ Block.chainTransactions bs, tx.outputs.length ≤ 2 ^ 31) :
    PlacesFit bs id := fun b hb tx htx _ =>
  Nat.lt_of_le_of_lt (h tx (List.mem_flatMap.mpr ⟨b, hb, htx⟩)) (by decide)

theorem mem_leftover_iff (hfit : PlacesFit bs id) {place : UInt32} {o : Output} :
    (place, o) ∈ leftover id bs ↔ (place.toNat, o) ∈ unspentOn bs id := by
  rw [leftover_eq hfit, List.mem_map]
  constructor
  · rintro ⟨p, hp, heq⟩
    obtain ⟨rfl, rfl⟩ := Prod.mk.inj heq
    rwa [UInt32.toNat_ofNat_of_lt' (place_lt_of_mem_unspentOn hfit hp)]
  · intro hp
    exact ⟨_, hp, by simp⟩

/-- What is unspent was created by a transaction of the chain at its place. -/
theorem exists_source_of_mem_unspentOn {p : Nat × Output} (h : p ∈ unspentOn bs id) :
    ∃ tx ∈ Block.chainTransactions bs, tx.id = id ∧ tx.outputs[p.1]? = some p.2 := by
  obtain ⟨⟨b, depth⟩, hb, hp⟩ := List.mem_flatMap.mp h
  obtain ⟨tx, htx, hp⟩ := List.mem_flatMap.mp (List.mem_of_mem_filter hp)
  obtain ⟨htx, hid⟩ := List.mem_filter.mp htx
  obtain ⟨⟨o, place⟩, hmem, rfl⟩ := List.mem_map.mp hp
  exact ⟨tx, List.mem_flatMap.mpr ⟨b, List.fst_mem_of_mem_zipIdx hb, htx⟩, by simpa using hid,
    List.mem_zipIdx_iff_getElem?.mp hmem⟩

/-! ## What a sender can spend -/

/-- The coins are the unspent outputs of the chain with the lock, in storage order. -/
structure OwnedOn (bs : List Block) (lock : Bytes) (cs : List Coin) : Prop where
  sorted : cs.Pairwise fun p q => p.1.StoredBefore q.1
  mem_iff : ∀ q, q ∈ cs ↔ (q.1.index.toNat, q.2) ∈ unspentOn bs q.1.source ∧ q.2.lock = lock

theorem OwnedOn.nodup {lock : Bytes} {cs : List Coin} (h : OwnedOn bs lock cs) :
    (cs.map Prod.fst).Nodup :=
  List.pairwise_map.mpr (h.sorted.imp Outpoint.StoredBefore.ne)

/-- The index that a rebuild leaves lists what the chain leaves unspent. -/
theorem exists_ownedOn (hindexed : s.IndexedAs (Index.ofChain bs)) (hfits : ∀ b ∈ bs, b.Fits)
    (hids : ((Block.chainTransactions bs).map Transaction.id).Nodup)
    (hplaces : ∀ tx ∈ Block.chainTransactions bs, tx.outputs.length ≤ 2 ^ 31) (lock : Bytes) :
    ∃ cs, coins s lock = .ok cs ∧ OwnedOn bs lock cs := by
  have hsorted : ∀ id, ((Index.ofChain bs).outputs id).Pairwise fun p q => p.1 < q.1 := by
    intro id
    rw [Index.outputs_ofChain]
    exact leftover_sorted hids hplaces id
  obtain ⟨cs, hcs, horder, hmem⟩ :=
    exists_coins hindexed (reads_ofChain hindexed hfits (length_leftover_lt hids hplaces)).fits
      hsorted lock
  refine ⟨cs, hcs, horder, fun q => ?_⟩
  rw [hmem, Index.outputs_ofChain, mem_leftover_iff (placesFit_of_le hplaces),
    Output.isLockedWith, decide_eq_true_iff]

end Unspent

/-! ## Signed transactions -/

namespace Transaction

variable {S : SignatureScheme} {secret : SecretKey} {lock : Bytes}

/-- Signing changes nothing of the inputs but the signatures. -/
theorem map_inputs_signedFor {β : Type} {f : Input → β}
    (hf : ∀ i, f (Input.unsigned i.source i.index i.key) = f i) (tx : Transaction) :
    (tx.signedFor S secret lock).inputs.map f = tx.inputs.map f := by
  have hbare : ∀ t : Transaction, t.inputs.map f = t.withoutSignatures.inputs.map f := by
    intro t
    rw [withoutSignatures, List.map_map]
    exact List.map_congr_left fun i _ => (hf i).symm
  rw [hbare, withoutSignatures_signedFor, ← hbare]

theorem isCoinbase_signedFor (tx : Transaction) :
    (tx.signedFor S secret lock).isCoinbase = tx.isCoinbase := by
  rw [← isCoinbase_withoutSignatures, withoutSignatures_signedFor, isCoinbase_withoutSignatures]

end Transaction

/-! ## Looking up what a payment refers to -/

/-- Which transactions are referred to depends on the sources of the inputs alone. -/
theorem Chain.references_congr (s : Store) {tx tx' : Transaction}
    (h : tx.spends.map Input.source = tx'.spends.map Input.source) :
    references s tx = references s tx' := by
  have hsources : ∀ t : Transaction, references s t = (t.spends.map Input.source).foldlM
      (fun refs id => addReference s refs (Input.unsigned id 0 [])) [] := by
    intro t
    rw [references, List.foldlM_map]
    rfl
  rw [hsources, h, ← hsources]

/-- A transaction that was signed with its references verifies on every ledger that finds
them. -/
theorem Ledger.verifyTransaction_signedFor {l : Ledger} {secret : SecretKey} {refs : References}
    {tx : Transaction} (hrefs : Chain.references l.store tx = .ok refs)
    (howned : tx.OwnedBy l.rules.scheme secret refs)
    (hlaw : ∀ position < tx.inputs.length, l.rules.scheme.Honours secret
      (tx.signingDigest position (l.rules.scheme.lockOf secret))) :
    l.verifyTransaction (tx.signedFor l.rules.scheme secret (l.rules.scheme.lockOf secret)) =
      .ok true := by
  have hsources : (tx.signedFor l.rules.scheme secret (l.rules.scheme.lockOf secret)).spends.map
      Input.source = tx.spends.map Input.source := by
    rw [Transaction.spends, Transaction.spends, Transaction.isCoinbase_signedFor, howned.spends]
    exact Transaction.map_inputs_signedFor (fun _ => rfl) tx
  rw [verifyTransaction, Chain.references_congr l.store hsources, hrefs]
  exact congrArg Except.ok (howned.verifies_signedFor hlaw)

/-- A transaction that names different outputs of the index passes the check of spending on
its own. -/
theorem Ledger.checkSpendable_singleton {s : Store} {base : Index} (h : Unspent.Reads s base)
    {tx : Transaction} {outpoints : List Outpoint}
    (hnames : tx.inputs.map Input.outpoint? = outpoints.map some) (hnodup : outpoints.Nodup)
    (hheld : ∀ o ∈ outpoints, base.holds o = true) : checkSpendable s [tx] = .ok () := by
  have hspends : tx.spends = tx.inputs := by
    rw [Transaction.spends, Transaction.isCoinbase_of_names hnames]
    rfl
  have hconsumed : consumedBy [tx] = outpoints := by
    have hflat : consumedBy [tx] = (tx.inputs.map Input.outpoint?).filterMap id := by
      simp [consumedBy, hspends, List.filterMap_map]
    rw [hflat, hnames, List.filterMap_map]
    exact List.filterMap_some
  rw [checkSpendable_eq_ok_iff h, forall_split_cons, hconsumed]
  refine ⟨⟨fun i hi => ?_, fun before t rest heq => by simp at heq⟩, hnodup⟩
  have hmem : i.outpoint? ∈ outpoints.map some := by
    rw [← hnames]
    exact List.mem_map_of_mem (hspends ▸ hi)
  obtain ⟨o, ho, hi⟩ := List.mem_map.mp hmem
  exact ⟨o, hi.symm, hheld o ho⟩

namespace Payment

variable {S : SignatureScheme} {s : Store} {bs : List Block} {secret : SecretKey}
  {recipient : Bytes} {amount : UInt64} {cs picked : List Coin}

/-! ## What a payment is like -/

/-- The payment spends the coins, which are unspent outputs of the sender, pays the amount to
the recipient and the rest, if there is any, back to the sender. It is under the hash of its
content, every ledger on the store verifies it, and what it spends can be spent. -/
structure Settles (S : SignatureScheme) (s : Store) (bs : List Block) (secret : SecretKey)
    (recipient : Bytes) (amount : UInt64) (picked : List Coin) (tx : Transaction) : Prop where
  names : tx.inputs.map Input.outpoint? = picked.map fun q => some q.1
  distinct : (picked.map Prod.fst).Nodup
  unspent : ∀ q ∈ picked, (q.1.index.toNat, q.2) ∈ unspentOn bs q.1.source
  owned : ∀ q ∈ picked, q.2.lock = S.lockOf secret
  pays : ∃ change : UInt64, amount.toNat + change.toNat = worthOf picked ∧
    tx.outputs = ⟨amount, recipient⟩ :: if 0 < change then [⟨change, S.lockOf secret⟩] else []
  balances : (tx.outputs.map fun o => o.value.toNat).sum = worthOf picked
  id_eq : tx.id = tx.contentHash
  verifies : ∀ l : Ledger, l.store = s → l.rules.scheme = S → l.verifyTransaction tx = .ok true
  spendable : Ledger.checkSpendable s [tx] = .ok ()

/-- The input that spends a coin, unsigned. -/
def claimOf (key : Bytes) (q : Coin) : Input := Input.unsigned q.1.source q.1.index.toInt32 key

theorem mapM_inputOf {key : Bytes} (h : ∀ q ∈ picked, q.1.index.toNat < 2 ^ 31) :
    (picked.map Prod.fst).mapM (inputOf key) = .ok (picked.map (claimOf key)) := by
  refine Except.mapM_map_eq_ok fun q hq => ?_
  have hle : q.1.index ≤ Int32.maxValue.toUInt32 := by
    have hmax : Int32.maxValue.toUInt32.toNat = 2 ^ 31 - 1 := by decide
    have hlt := h q hq
    rw [UInt32.le_iff_toNat_le, hmax]
    omega
  rw [inputOf, if_pos hle]
  rfl

/-- The payment that spends the coins, before it is signed. -/
def unsigned (S : SignatureScheme) (secret : SecretKey) (recipient : Bytes) (amount : UInt64)
    (picked : List Coin) : Transaction :=
  Transaction.ofParts (picked.map (claimOf (S.publicKey secret)))
    (outputs recipient (S.lockOf secret) amount (UInt64.ofNat (worthOf picked)))

/-! ## The three ends of building -/

theorem build_of_lt (hcs : Unspent.coins s (S.lockOf secret) = .ok cs)
    (hlt : worthOf cs < amount.toNat) : build S s secret recipient amount =
      .error (.insufficientFunds (UInt64.ofNat (worthOf cs)) amount) := by
  have hsmall : worthOf cs < 2 ^ 64 := Nat.lt_trans hlt amount.toNat_lt
  have htotal : (UInt64.ofNat (worthOf cs)).toNat = worthOf cs := UInt64.toNat_ofNat_of_lt' hsmall
  have hspendable := Unspent.spendable_eq hcs amount
  rw [Coin.front_eq_self hlt] at hspendable
  simp only [hsmall, if_true] at hspendable
  have hshort : UInt64.ofNat (worthOf cs) < amount := by
    rwa [UInt64.lt_iff_toNat_lt, htotal]
  rw [build, draft, hspendable]
  simp only [bind, Except.bind, hshort, if_true]
  rfl

theorem build_of_overflow (hcs : Unspent.coins s (S.lockOf secret) = .ok cs)
    (hlarge : 2 ^ 64 ≤ worthOf (front amount.toNat cs)) :
    build S s secret recipient amount = .error (.valueOverflow (.spendable (S.lockOf secret))) := by
  have hspendable := Unspent.spendable_eq hcs amount
  simp only [Nat.not_lt.mpr hlarge, if_false] at hspendable
  rw [build, draft, hspendable]
  rfl

theorem draft_of_reaches (hcs : Unspent.coins s (S.lockOf secret) = .ok cs)
    (hreaches : Reaches amount.toNat cs picked) (hsmall : worthOf picked < 2 ^ 64)
    (hplaces : ∀ q ∈ picked, q.1.index.toNat < 2 ^ 31) :
    draft S s secret recipient amount = .ok (unsigned S secret recipient amount picked) := by
  have hspendable := Unspent.spendable_eq hcs amount
  rw [← hreaches.eq_front] at hspendable
  simp only [hsmall, if_true] at hspendable
  have henough : ¬ UInt64.ofNat (worthOf picked) < amount := by
    rw [UInt64.lt_iff_toNat_lt, UInt64.toNat_ofNat_of_lt' hsmall]
    exact Nat.not_lt.mpr hreaches.reached
  rw [draft, hspendable]
  simp only [bind, Except.bind, henough, if_false, mapM_inputOf hplaces]
  rfl

/-! ## The payment that is built -/

theorem names_unsigned (hplaces : ∀ q ∈ picked, q.1.index.toNat < 2 ^ 31) :
    (unsigned S secret recipient amount picked).inputs.map Input.outpoint? =
      (picked.map Prod.fst).map some :=
  names_of_inputs (mapM_inputOf hplaces)

/-- What the coins were taken from is found on the chain, so the payment can be signed. -/
theorem exists_references_unsigned (hblocks : Chain.blocks s = .ok bs)
    (hids : ((Block.chainTransactions bs).map Transaction.id).Nodup)
    (hplaces : ∀ q ∈ picked, q.1.index.toNat < 2 ^ 31)
    (hunspent : ∀ q ∈ picked, (q.1.index.toNat, q.2) ∈ unspentOn bs q.1.source)
    (howned : ∀ q ∈ picked, q.2.lock = S.lockOf secret) :
    ∃ refs, Chain.references s (unsigned S secret recipient amount picked) = .ok refs ∧
      (unsigned S secret recipient amount picked).OwnedBy S secret refs := by
  have hnames : (unsigned S secret recipient amount picked).inputs.map Input.outpoint? =
      (picked.map Prod.fst).map some := names_unsigned hplaces
  have hcoinbase := Transaction.isCoinbase_of_names hnames
  have hwalk := Chain.walk_of_blocks hblocks
  have hsource : ∀ q ∈ picked, ∃ prev, Chain.lookup bs q.1.source = some prev ∧
      prev.outputs[q.1.index.toNat]? = some q.2 := by
    intro q hq
    obtain ⟨prev, hprev, hid, hout⟩ := Unspent.exists_source_of_mem_unspentOn (hunspent q hq)
    obtain ⟨found, hfound⟩ := Chain.exists_lookup hprev
    obtain ⟨hmem, hsame⟩ := Chain.mem_of_lookup hfound
    obtain rfl := List.inj_on_of_nodup_map hids hmem hprev hsame
    exact ⟨found, hid ▸ hfound, hout⟩
  have hspends : (unsigned S secret recipient amount picked).spends =
      picked.map (claimOf (S.publicKey secret)) := by
    rw [Transaction.spends, hcoinbase]
    rfl
  have hthere : ∀ i ∈ (unsigned S secret recipient amount picked).spends,
      ∃ prev, Chain.lookup bs i.source = some prev := by
    intro i hi
    rw [hspends] at hi
    obtain ⟨q, hq, rfl⟩ := List.mem_map.mp hi
    obtain ⟨prev, hprev, _⟩ := hsource q hq
    exact ⟨prev, hprev⟩
  obtain ⟨refs, hrefs, hfind⟩ := Chain.exists_references hwalk hthere
  refine ⟨refs, hrefs, hcoinbase, fun i hi => ?_, fun i hi => ?_⟩
  · obtain ⟨q, _, rfl⟩ := List.mem_map.mp hi
    rfl
  · have hkept := hfind i (hspends ▸ hi)
    obtain ⟨q, hq, rfl⟩ := List.mem_map.mp hi
    obtain ⟨prev, hprev, hout⟩ := hsource q hq
    obtain ⟨found, hfound⟩ := Option.isSome_iff_exists.mp hkept
    -- what the references have under an id is what the chain has
    obtain rfl : prev = found := Option.some.inj
      (hprev.symm.trans ((Chain.references_ends hwalk _).1 refs hrefs _ _ hfound))
    exact ⟨prev, q.1.index.toNat, q.2, hfound, toInt_toInt32 (hplaces q hq), hout, howned q hq⟩

/-- The amount and the change make up what the coins are worth. -/
theorem outputs_eq {sender : Bytes} (hreached : amount.toNat ≤ worthOf picked)
    (hsmall : worthOf picked < 2 ^ 64) :
    ∃ change : UInt64, amount.toNat + change.toNat = worthOf picked ∧
      outputs recipient sender amount (UInt64.ofNat (worthOf picked)) =
        ⟨amount, recipient⟩ :: if 0 < change then [⟨change, sender⟩] else [] := by
  have htotal : (UInt64.ofNat (worthOf picked)).toNat = worthOf picked :=
    UInt64.toNat_ofNat_of_lt' hsmall
  have hle : amount ≤ UInt64.ofNat (worthOf picked) := by
    rwa [UInt64.le_iff_toNat_le, htotal]
  have hchange := UInt64.toNat_sub_of_le _ _ hle
  refine ⟨UInt64.ofNat (worthOf picked) - amount, by omega, ?_⟩
  have hpositive : 0 < UInt64.ofNat (worthOf picked) - amount ↔
      amount < UInt64.ofNat (worthOf picked) := by
    rw [UInt64.lt_iff_toNat_lt, UInt64.lt_iff_toNat_lt, hchange, UInt64.toNat_zero]
    omega
  rw [outputs, if_congr hpositive rfl rfl]

/-- Where the shortest sufficient front is worth an amount, the payment out of it is built. -/
theorem build_of_reaches (hblocks : Chain.blocks s = .ok bs)
    (hreads : Unspent.Reads s (Index.ofChain bs))
    (hids : ((Block.chainTransactions bs).map Transaction.id).Nodup)
    (hplaces : ∀ tx ∈ Block.chainTransactions bs, tx.outputs.length ≤ 2 ^ 31)
    (hcs : Unspent.coins s (S.lockOf secret) = .ok cs)
    (howned : Unspent.OwnedOn bs (S.lockOf secret) cs)
    (hlaw : ∀ tx, draft S s secret recipient amount = .ok tx → ∀ position < tx.inputs.length,
      S.Honours secret (tx.signingDigest position (S.lockOf secret)))
    (hreaches : Reaches amount.toNat cs picked) (hsmall : worthOf picked < 2 ^ 64) :
    ∃ tx, build S s secret recipient amount = .ok tx ∧
      Settles S s bs secret recipient amount picked tx := by
  have hpicked : ∀ q ∈ picked, (q.1.index.toNat, q.2) ∈ unspentOn bs q.1.source ∧
      q.2.lock = S.lockOf secret := fun q hq =>
    (howned.mem_iff q).mp (hreaches.isFront.subset hq)
  have hfit : ∀ id, PlacesFit bs id := fun _ => Unspent.placesFit_of_le hplaces
  have hindex : ∀ q ∈ picked, q.1.index.toNat < 2 ^ 31 := by
    intro q hq
    obtain ⟨prev, hprev, _, hout⟩ := Unspent.exists_source_of_mem_unspentOn (hpicked q hq).1
    exact Nat.lt_of_lt_of_le (List.getElem?_eq_some_iff.mp hout).1 (hplaces prev hprev)
  have hdraft : draft S s secret recipient amount =
      .ok (unsigned S secret recipient amount picked) :=
    draft_of_reaches hcs hreaches hsmall hindex
  obtain ⟨refs, hrefs, hsignable⟩ :
      ∃ refs, Chain.references s (unsigned S secret recipient amount picked) = .ok refs ∧
        (unsigned S secret recipient amount picked).OwnedBy S secret refs :=
    exists_references_unsigned hblocks hids hindex (fun q hq => (hpicked q hq).1)
      fun q hq => (hpicked q hq).2
  have hlaw' := hlaw _ hdraft
  generalize htx : unsigned S secret recipient amount picked = tx at *
  have hnames : (tx.signedFor S secret (S.lockOf secret)).inputs.map Input.outpoint? =
      (picked.map Prod.fst).map some := by
    rw [Transaction.map_inputs_signedFor (fun _ => rfl), ← htx, names_unsigned hindex]
  have houtputs : (tx.signedFor S secret (S.lockOf secret)).outputs =
      outputs recipient (S.lockOf secret) amount (UInt64.ofNat (worthOf picked)) := by
    rw [← htx]
    rfl
  have hnodup : (picked.map Prod.fst).Nodup :=
    howned.nodup.sublist (hreaches.isFront.sublist.map Prod.fst)
  have hheld : ∀ o ∈ picked.map Prod.fst, (Index.ofChain bs).holds o = true := by
    intro o ho
    obtain ⟨q, hq, rfl⟩ := List.mem_map.mp ho
    rw [Index.holds_iff, Index.outputs_ofChain]
    exact ⟨_, (Unspent.mem_leftover_iff (hfit _)).mpr (hpicked q hq).1, rfl⟩
  refine ⟨tx.signedFor S secret (S.lockOf secret), ?_, ?_, hnodup, fun q hq => (hpicked q hq).1,
    fun q hq => (hpicked q hq).2, ?_, ?_, rfl, ?_, ?_⟩
  · rw [build, hdraft]
    simp only [bind, Except.bind, hrefs, hsignable.signOrFail_eq]
    rfl
  · rw [hnames, List.map_map]
    rfl
  · rw [houtputs]
    exact outputs_eq hreaches.reached hsmall
  · have htotal : (UInt64.ofNat (worthOf picked)).toNat = worthOf picked :=
      UInt64.toNat_ofNat_of_lt' hsmall
    rw [houtputs, sum_outputs, htotal]
    rw [UInt64.le_iff_toNat_le, htotal]
    exact hreaches.reached
  · rintro l rfl rfl
    exact Ledger.verifyTransaction_signedFor hrefs hsignable hlaw'
  · exact Ledger.checkSpendable_singleton hreads hnames hnodup hheld

/-- Over the outputs that the sender can spend, in storage order: a payment fails for want of
funds exactly if they are worth less than the amount, with what they are worth; it overflows
exactly if the shortest front that is worth the amount is worth more than an amount can be;
and otherwise it is built out of this front, and settles. -/
theorem build_affordable {n : Nat} (hblocks : Chain.blocks s = .ok bs)
    (hindex : Unspent.rebuild s = .ok (n, s))
    (hids : ((Block.chainTransactions bs).map Transaction.id).Nodup)
    (hplaces : ∀ tx ∈ Block.chainTransactions bs, tx.outputs.length ≤ 2 ^ 31)
    (hlaw : ∀ tx, draft S s secret recipient amount = .ok tx → ∀ position < tx.inputs.length,
      S.Honours secret (tx.signingDigest position (S.lockOf secret))) :
    ∃ cs, Unspent.coins s (S.lockOf secret) = .ok cs ∧ Unspent.OwnedOn bs (S.lockOf secret) cs ∧
      (∀ available required,
        build S s secret recipient amount = .error (.insufficientFunds available required) ↔
          worthOf cs < amount.toNat ∧ available.toNat = worthOf cs ∧ required = amount) ∧
      (∀ sum, build S s secret recipient amount = .error (.valueOverflow sum) ↔
        sum = .spendable (S.lockOf secret) ∧
          ∃ picked, Reaches amount.toNat cs picked ∧ 2 ^ 64 ≤ worthOf picked) ∧
      (amount.toNat ≤ worthOf cs →
        (∀ picked, Reaches amount.toNat cs picked → worthOf picked < 2 ^ 64) →
        ∃ picked tx, Reaches amount.toNat cs picked ∧
          build S s secret recipient amount = .ok tx ∧
          Settles S s bs secret recipient amount picked tx) := by
  have hindexed := ((Unspent.rebuild_eq_ok_iff hblocks).mp ⟨n, hindex⟩).1
  have hfits := Chain.fits_of_blocks hblocks
  obtain ⟨cs, hcs, howned⟩ := Unspent.exists_ownedOn hindexed hfits hids hplaces
    (S.lockOf secret)
  have hreads := Unspent.reads_ofChain hindexed hfits (Unspent.length_leftover_lt hids hplaces)
  have hbuilt : ∀ picked, Reaches amount.toNat cs picked → worthOf picked < 2 ^ 64 →
      ∃ tx, build S s secret recipient amount = .ok tx ∧
        Settles S s bs secret recipient amount picked tx := fun _ =>
    build_of_reaches hblocks hreads hids hplaces hcs howned hlaw
  refine ⟨cs, hcs, howned, fun available required => ?_, fun sum => ?_, fun henough hsmall => ?_⟩
  -- one case for each end of building, and no two of them for the same coins
  · by_cases hlt : worthOf cs < amount.toNat
    · have hsmall : worthOf cs < 2 ^ 64 := Nat.lt_trans hlt amount.toNat_lt
      rw [build_of_lt hcs hlt, Except.error.injEq, LedgerError.insufficientFunds.injEq,
        ← UInt64.toNat_inj, UInt64.toNat_ofNat_of_lt' hsmall]
      exact ⟨fun h => ⟨hlt, h.1.symm, h.2.symm⟩, fun h => ⟨h.2.1.symm, h.2.2.symm⟩⟩
    · refine iff_of_false (fun h => ?_) fun h => hlt h.1
      have hreaches := Coin.reaches_front (Nat.not_lt.mp hlt)
      by_cases hsmall : worthOf (front amount.toNat cs) < 2 ^ 64
      · obtain ⟨tx, htx, _⟩ := hbuilt _ hreaches hsmall
        cases h.symm.trans htx
      · cases h.symm.trans (build_of_overflow hcs (Nat.not_lt.mp hsmall))
  · by_cases hlarge : 2 ^ 64 ≤ worthOf (front amount.toNat cs)
    · have henough : amount.toNat ≤ worthOf cs := by
        by_contra hlt
        rw [Coin.front_eq_self (Nat.not_le.mp hlt)] at hlarge
        exact hlt (Nat.le_trans (Nat.le_of_lt amount.toNat_lt) hlarge)
      rw [build_of_overflow hcs hlarge, Except.error.injEq, LedgerError.valueOverflow.injEq]
      exact ⟨fun h => ⟨h.symm, _, Coin.reaches_front henough, hlarge⟩, fun h => h.1.symm⟩
    · refine iff_of_false (fun h => ?_) fun h => ?_
      · by_cases hlt : worthOf cs < amount.toNat
        · cases h.symm.trans (build_of_lt hcs hlt)
        · obtain ⟨tx, htx, _⟩ :=
            hbuilt _ (Coin.reaches_front (Nat.not_lt.mp hlt)) (Nat.not_le.mp hlarge)
          cases h.symm.trans htx
      · obtain ⟨_, picked, hreaches, hworth⟩ := h
        exact hlarge (hreaches.eq_front ▸ hworth)
  · have hreaches := Coin.reaches_front henough
    obtain ⟨tx, htx, hsettles⟩ := hbuilt _ hreaches (hsmall _ hreaches)
    exact ⟨_, tx, hreaches, htx, hsettles⟩

end Payment

namespace Fork

/-- The reward of the root, as Alice can spend it. -/
def rewardCoin : Coin := (⟨reward.id, 0⟩, ⟨100, alice⟩)

theorem draft_reward :
    Secp256k1.scheme.lockOf aliceKey = alice ∧
      Unspent.coins indexed alice = .ok [rewardCoin] ∧
      Payment.draft Secp256k1.scheme indexed aliceKey bob 40 =
        .ok (Payment.unsigned Secp256k1.scheme aliceKey bob 40 [rewardCoin]) ∧
      ∀ position < (Payment.unsigned Secp256k1.scheme aliceKey bob 40 [rewardCoin]).inputs.length,
        Secp256k1.scheme.Honours aliceKey
          ((Payment.unsigned Secp256k1.scheme aliceKey bob 40 [rewardCoin]).signingDigest position
            (Secp256k1.scheme.lockOf aliceKey)) := by
  unfold SignatureScheme.Honours
  decide +kernel

/-- Alice can pay 40 out of the reward of the root, and 60 come back. -/
theorem build_affordable_reward :
    ∃ tx, Payment.build Secp256k1.scheme indexed aliceKey bob 40 = .ok tx ∧
      Payment.Settles Secp256k1.scheme indexed [root] aliceKey bob 40 [rewardCoin] tx := by
  obtain ⟨hblocks, n, hrebuild⟩ := indexed_blocks
  obtain ⟨hlock, hcoins, hdraft, hhonours⟩ := draft_reward
  obtain ⟨cs, hcs, _, _, _, hsettles⟩ :=
    @Payment.build_affordable Secp256k1.scheme indexed [root] aliceKey bob 40 n
      hblocks hrebuild (by decide +kernel) (by decide +kernel)
      fun tx htx => by
        obtain rfl := Except.ok.inj (hdraft.symm.trans htx)
        exact hhonours
  rw [hlock, hcoins] at hcs
  obtain rfl := Except.ok.inj hcs
  have hfront : Coin.front 40 [rewardCoin] = [rewardCoin] := by decide
  have hsmall : ∀ picked, Reaches 40 [rewardCoin] picked → worthOf picked < 2 ^ 64 := by
    intro picked hreaches
    rw [hreaches.eq_front, hfront]
    decide
  obtain ⟨picked, tx, hreaches, htx, hsettled⟩ := hsettles (by decide) hsmall
  obtain rfl := hreaches.eq_front
  exact ⟨tx, htx, hsettled⟩

end Fork

end CoinLedger
