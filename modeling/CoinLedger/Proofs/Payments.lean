import CoinLedger.Proofs.Accounting

/-!
# What payments are worth

A payment is put together from what the index lists: coins are selected until their sum
reaches the amount, the amount goes to the recipient and the rest back to the sender.
Signing changes the signatures and the id and nothing else. So a payment pays exactly
what it consumes, and with an index that keeps account of a chain it consumes outputs of
the chain (`Payment.build_eq_ok`, `Transaction.BuiltOn.balances`).
-/

namespace CoinLedger

theorem Transaction.worth_indexedOutputs (tx : Transaction) :
    worth tx.indexedOutputs = (tx.outputs.map fun o => o.value.toNat).sum := by
  have hfst : tx.indexedOutputs.map Prod.snd = tx.outputs := by
    rw [indexedOutputs, List.map_map]
    exact List.zipIdx_map_fst 0 tx.outputs
  calc worth tx.indexedOutputs
      = ((tx.indexedOutputs.map Prod.snd).map fun o => o.value.toNat).sum := by
        rw [List.map_map]
        rfl
    _ = (tx.outputs.map fun o => o.value.toNat).sum := by rw [hfst]

/-! ## Selecting coins -/

namespace Unspent

variable {lock : Bytes} {amount : UInt64} {m : Index} {sel sel' : Selection}

/-- The selection names outputs that the index lists, and totals their values. -/
structure Selection.PickedFrom (sel : Selection) (m : Index)
    (coins : List (Outpoint × Output)) : Prop where
  outpoints : sel.outpoints = coins.map Prod.fst
  listed : ∀ q ∈ coins, (q.1.index, q.2) ∈ m.outputs q.1.source
  total : sel.total.toNat = (coins.map fun q => q.2.value.toNat).sum

theorem selectOutputs_eq_ok {id : Digest} {outs : List (UInt32 × Output)} {reached : Bool}
    (h : selectOutputs lock amount id outs sel = .ok (reached, sel'))
    (houts : outs ⊆ m.outputs id) (hsel : ∃ coins, sel.PickedFrom m coins) :
    ∃ coins, sel'.PickedFrom m coins := by
  induction outs generalizing sel with
  | nil =>
      obtain ⟨_, rfl⟩ := Prod.mk.inj (Except.ok.inj h)
      exact hsel
  | cons p rest ih =>
      obtain ⟨hp, hrest⟩ := List.cons_subset.mp houts
      unfold selectOutputs at h
      split at h
      · obtain ⟨_, rfl⟩ := Prod.mk.inj (Except.ok.inj h)
        exact hsel
      split at h
      swap
      · exact ih h hrest hsel
      split at h
      · cases h
      -- the output is taken
      · rename_i total htotal
        obtain ⟨coins, hcoins⟩ := hsel
        refine ih h hrest ⟨coins ++ [(⟨id, p.1⟩, p.2)], ?_, ?_, ?_⟩
        · simp [hcoins.outpoints]
        · intro q hq
          rcases List.mem_append.mp hq with hq | hq
          · exact hcoins.listed q hq
          · obtain rfl := List.mem_singleton.mp hq
            exact hp
        · simp [toNat_addAmounts? htotal, hcoins.total]

theorem selectRecords_eq_ok {records : List (Bytes × Bytes)}
    (h : selectRecords lock amount records sel = .ok sel')
    (hrecords : ∀ r ∈ records, ∃ id e, r = (id.bytes, Record.encode e) ∧ m id = some e ∧ e.Fits)
    (hsel : ∃ coins, sel.PickedFrom m coins) : ∃ coins, sel'.PickedFrom m coins := by
  induction records generalizing sel with
  | nil =>
      obtain rfl := Except.ok.inj h
      exact hsel
  | cons r rest ih =>
      obtain ⟨id, e, rfl, he, hfits⟩ := hrecords r List.mem_cons_self
      have hid : recordId id.bytes = .ok id := by
        rw [recordId, Digest.ofBytes_bytes]
        rfl
      have houts : e.outputs ⊆ m.outputs id := by
        rw [Index.outputs, he]
        exact List.Subset.refl _
      rw [selectRecords, hid, decodeEntry_encode hfits] at h
      replace h := (Except.bind_eq_ok (r := selectOutputs lock amount id e.outputs sel)).mp h
      obtain ⟨⟨reached, sel₁⟩, hselect, h⟩ := h
      have hfirst := selectOutputs_eq_ok hselect houts hsel
      cases reached with
      | true =>
          obtain rfl := Except.ok.inj h
          exact hfirst
      | false => exact ih h (fun r hr => hrecords r (List.mem_cons_of_mem _ hr)) hfirst

/-- Coins are selected from what the index lists. -/
theorem spendable_eq_ok {s : Store} {c : Contents} (hs : s.Holds c)
    (h : spendable s lock amount = .ok sel) : ∃ coins, sel.PickedFrom c.index coins := by
  obtain ⟨entries, hentries, _, hmem⟩ := hs.indexedAs.entryRecords_eq
  refine selectRecords_eq_ok h ?_ ⟨[], rfl, fun q hq => absurd hq List.not_mem_nil, rfl⟩
  intro r hr
  rw [hentries] at hr
  obtain ⟨⟨id, e⟩, hq, rfl⟩ := List.mem_map.mp hr
  have he := (hmem id e).mp hq
  exact ⟨id, e, rfl, he, hs.entries_fit id e he⟩

end Unspent

/-- Inputs that name outputs are not those of a coinbase. -/
theorem Transaction.isCoinbase_of_names {tx : Transaction} {outpoints : List Outpoint}
    (h : tx.inputs.map Input.outpoint? = outpoints.map some) : tx.isCoinbase = false := by
  rw [← Bool.not_eq_true]
  intro hcoinbase
  unfold isCoinbase at hcoinbase
  split at hcoinbase
  · rename_i i hinputs
    rw [hinputs] at h
    obtain _ | ⟨o, outpoints⟩ := outpoints
    · cases h
    · have hi : i.outpoint? = some o := (List.cons.inj h).1
      rw [Input.isCoinbase, Bool.and_eq_true, beq_iff_eq] at hcoinbase
      rw [Input.outpoint?, Input.place?, hcoinbase.2] at hi
      cases hi
  · cases hcoinbase

/-! ## Signing -/

namespace Transaction

variable {S : SignatureScheme} {secret : SecretKey} {refs : References} {tx signed : Transaction}

/-- Signing does not change which outputs the inputs name. -/
theorem signInputs_names (S : SignatureScheme) (secret : SecretKey) (refs : References)
    (tx : Transaction) (position : Nat) (inputs : List Input) :
    (signInputs S secret refs tx position inputs).1.map Input.outpoint? =
      inputs.map Input.outpoint? := by
  induction inputs generalizing position with
  | nil => rfl
  | cons i rest ih =>
      unfold signInputs
      split
      · rfl
      · rw [List.map_cons, List.map_cons, ih]
        rfl

/-- Signing keeps what the transaction consumes and pays, and puts it under the hash of
its content. -/
theorem sign_eq (h : tx.sign S secret refs = (signed, none)) :
    signed.inputs.map Input.outpoint? = tx.inputs.map Input.outpoint? ∧
      signed.outputs = tx.outputs ∧ (tx.contentHash = tx.id → signed.contentHash = signed.id) := by
  unfold sign at h
  split at h
  · obtain ⟨rfl, _⟩ := Prod.mk.inj h
    exact ⟨rfl, rfl, fun hid => hid⟩
  · have hnames := signInputs_names S secret refs tx 0 tx.inputs
    split at h
    · rename_i inputs heq
      obtain ⟨rfl, _⟩ := Prod.mk.inj h
      rw [heq] at hnames
      exact ⟨hnames, rfl, fun _ => rfl⟩
    · cases (Prod.mk.inj h).2

end Transaction

/-! ## Payments -/

/-- The transaction consumes outputs that the index lists, pays in at most two outputs
what they are worth, and is under the hash of its content. -/
structure Transaction.BuiltOn (tx : Transaction) (m : Index)
    (coins : List (Outpoint × Output)) : Prop where
  names : tx.inputs.map Input.outpoint? = coins.map fun q => some q.1
  listed : ∀ q ∈ coins, (q.1.index, q.2) ∈ m.outputs q.1.source
  worth_eq : (coins.map fun q => q.2.value.toNat).sum = worth tx.indexedOutputs
  contentHash_eq : tx.contentHash = tx.id
  length_outputs : tx.outputs.length ≤ 2

namespace Payment

variable {S : SignatureScheme} {s : Store} {c : Contents} {secret : SecretKey} {recipient : Bytes}
  {amount : UInt64} {tx : Transaction}

/-- A place below the sign bit is kept as an index. -/
theorem toInt_toInt32 {place : UInt32} (h : place.toNat < 2 ^ 31) :
    place.toInt32.toInt = place.toNat := by
  show place.toBitVec.toInt = _
  rw [BitVec.toInt_eq_toNat_of_lt]
  · rfl
  · show 2 * place.toNat < _
    omega

/-- The input names the output that was selected. -/
theorem outpoint?_of_inputOf {key : Bytes} {o : Outpoint} {i : Input} (h : inputOf key o = .ok i) :
    i.outpoint? = some o := by
  unfold inputOf at h
  split at h
  · rename_i hle
    obtain rfl := Except.ok.inj h
    have hmax : Int32.maxValue.toUInt32.toNat = 2 ^ 31 - 1 := by decide
    rw [UInt32.le_iff_toNat_le, hmax] at hle
    have hvalue : o.index.toInt32.toInt = o.index.toNat := toInt_toInt32 (by omega)
    have hplace : (0 : Int32) ≤ o.index.toInt32 := by
      rw [Int32.le_iff_toInt_le, hvalue]
      exact Int.natCast_nonneg _
    simp [Input.outpoint?, Input.place?, Input.unsigned, hplace]
  · cases h

theorem names_of_inputs {key : Bytes} {outpoints : List Outpoint} {inputs : List Input}
    (h : outpoints.mapM (inputOf key) = .ok inputs) :
    inputs.map Input.outpoint? = outpoints.map some := by
  rw [Except.mapM_eq_ok_iff] at h
  rw [eq_comm, ← List.forall₂_eq_eq_eq, List.forall₂_map_left_iff, List.forall₂_map_right_iff]
  exact h.imp fun _ _ hi => (outpoint?_of_inputOf hi).symm

/-- The amount and the change are together what is available. -/
theorem sum_outputs {sender : Bytes} {available : UInt64} (h : amount ≤ available) :
    ((outputs recipient sender amount available).map fun o => o.value.toNat).sum =
      available.toNat := by
  rw [UInt64.le_iff_toNat_le] at h
  unfold outputs
  split
  · rename_i hlt
    have hchange := UInt64.toNat_sub_of_le available amount (UInt64.le_iff_toNat_le.mpr h)
    simp only [List.map_cons, List.map_nil, List.sum_cons, List.sum_nil, hchange]
    omega
  · rename_i hnot
    rw [UInt64.lt_iff_toNat_lt] at hnot
    simp only [List.map_cons, List.map_nil, List.sum_cons, List.sum_nil]
    omega

theorem draft_eq_ok (hs : s.Holds c) (h : draft S s secret recipient amount = .ok tx) :
    ∃ coins, tx.BuiltOn c.index coins := by
  unfold draft at h
  obtain ⟨sel, hsel, h⟩ := Except.bind_eq_ok.mp h
  rw [throwOr_eq_ok] at h
  obtain ⟨hreached, h⟩ := h
  obtain ⟨inputs, hinputs, h⟩ := Except.bind_eq_ok.mp h
  obtain rfl := Except.ok.inj h
  obtain ⟨coins, hcoins⟩ := Unspent.spendable_eq_ok hs hsel
  refine ⟨coins, ?_, hcoins.listed, ?_, rfl, ?_⟩
  · show inputs.map Input.outpoint? = _
    rw [names_of_inputs hinputs, hcoins.outpoints, List.map_map]
    rfl
  · rw [Transaction.worth_indexedOutputs, ← hcoins.total]
    exact (sum_outputs (UInt64.not_lt.mp hreached)).symm
  · show (outputs _ _ _ _).length ≤ 2
    unfold outputs
    split <;> simp

/-- A payment consumes what the index lists and pays exactly what it consumes. -/
theorem build_eq_ok (hs : s.Holds c) (h : build S s secret recipient amount = .ok tx) :
    ∃ coins, tx.BuiltOn c.index coins := by
  unfold build at h
  obtain ⟨unsigned, hdraft, h⟩ := Except.bind_eq_ok.mp h
  obtain ⟨refs, _, h⟩ := Except.bind_eq_ok.mp h
  obtain ⟨coins, hcoins⟩ := draft_eq_ok hs hdraft
  have hsigned : unsigned.sign S secret refs = (tx, none) := by
    unfold Transaction.signOrFail at h
    split at h
    · rename_i heq
      split at heq
      · rename_i hsign
        obtain ⟨rfl, _⟩ := Prod.mk.inj heq
        rw [hsign, Except.ok.inj h]
      · cases (Prod.mk.inj heq).2
    · cases h
  obtain ⟨hnames, houtputs, hid⟩ := Transaction.sign_eq hsigned
  refine ⟨coins, hnames.trans hcoins.names, hcoins.listed, ?_, hid hcoins.contentHash_eq, ?_⟩
  · rw [Transaction.worth_indexedOutputs, houtputs, ← Transaction.worth_indexedOutputs,
      hcoins.worth_eq]
  · rw [houtputs]
    exact hcoins.length_outputs

end Payment

namespace Transaction.BuiltOn

variable {tx : Transaction} {m : Index} {coins : List (Outpoint × Output)}
  {history : List Transaction}

theorem spends_eq (h : tx.BuiltOn m coins) : tx.spends = tx.inputs := by
  have hnames : tx.inputs.map Input.outpoint? = (coins.map Prod.fst).map some := by
    rw [h.names, List.map_map]
    rfl
  rw [spends, isCoinbase_of_names hnames]
  rfl

/-- A payment that was built on an index which keeps account of the history balances. -/
theorem balances (h : tx.BuiltOn m coins) (hm : AccountsFor m.outputs history) :
    tx.Balances history :=
  ⟨coins, ⟨by rw [h.spends_eq, h.names], fun q hq => hm.created _ _ (h.listed q hq)⟩, h.worth_eq⟩

end Transaction.BuiltOn

end CoinLedger
