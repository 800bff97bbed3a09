import CoinLedger.Proofs.Delivery
import CoinLedger.Proofs.Drift

/-!
# What it takes to extend the tip

A block on top of the tip passes three checks: the rules, the signatures, and what its
transactions spend. The last two look an input up in different places. Signatures are
checked against the transaction that the active chain has under an id, and what is
spent is looked for among the transactions before it in the block and then in the
index.

`Ledger.checkSpendable_eq_ok_iff` and `Ledger.verifyTransaction_eq_true_iff` say what
each of the two asks for, and `Session.acceptBlock_onTip_iff` what a block has to be
like to pass both: an output that the block itself creates can be spent in it only if
the active chain has a transaction of the same id already. So a payment that spends
the output of another payment of the same block is refused, although the check of what
is spent lets it pass.
-/

namespace CoinLedger

/-- A property of every member of a list and of those before it. -/
theorem forall_split_cons {α : Type} {P : List α → α → Prop} {a : α} {rest : List α} :
    (∀ before x after, a :: rest = before ++ x :: after → P before x) ↔
      P [] a ∧ ∀ before x after, rest = before ++ x :: after → P (a :: before) x := by
  constructor
  · intro h
    refine ⟨h [] a rest rfl, fun before x after heq => h (a :: before) x after ?_⟩
    rw [heq, List.cons_append]
  · rintro ⟨hfirst, hrest⟩ before x after heq
    cases before with
    | nil =>
        obtain ⟨rfl, _⟩ := List.cons.inj heq
        exact hfirst
    | cons y before =>
        obtain ⟨rfl, htail⟩ := List.cons.inj heq
        exact hrest before x after htail

/-! ## What the check of spending asks for -/

namespace Ledger

namespace Spending

variable {s : Store} {base : Index} {sp sp' : Spending} {before txs : List Transaction}
  {id : Digest}

/-- What has been taken and created once some transactions have gone by. -/
def after (txs : List Transaction) : Spending where
  taken := (consumedBy txs).reverse
  created := (txs.map fun tx => (tx.id, tx.outputs.length)).reverse

theorem take_eq_ok_iff (h : Unspent.Reads s base) {i : Input} : take s id sp i = .ok sp' ↔
    ∃ o, i.outpoint? = some o ∧ sp.available base o = true ∧ o ∉ sp.taken ∧
      sp' = { sp with taken := o :: sp.taken } := by
  unfold take
  cases hi : i.outpoint? with
  | none => simp
  | some o =>
      simp only [isAvailable_eq h, Option.some.injEq, exists_eq_left']
      show (if _ then _ else _ : Result Spending) = _ ↔ _
      by_cases hfree : sp.available base o = true ∧ o ∉ sp.taken
      · rw [if_pos (by simpa using hfree)]
        constructor
        · intro heq
          exact ⟨hfree.1, hfree.2, (Except.ok.inj heq).symm⟩
        · rintro ⟨_, _, rfl⟩
          rfl
      · rw [if_neg (by simpa using hfree)]
        constructor
        · intro heq
          cases heq
        · rintro ⟨havailable, hfresh, _⟩
          exact absurd ⟨havailable, hfresh⟩ hfree

/-- Taking does not change what is available, only what has been taken. -/
theorem takeAll_eq_ok_iff (h : Unspent.Reads s base) (htaken : sp.taken.Nodup)
    {inputs : List Input} :
    inputs.foldlM (take s id) sp = .ok sp' ↔
      (∀ i ∈ inputs, ∃ o, i.outpoint? = some o ∧ sp.available base o = true) ∧
      ((inputs.filterMap Input.outpoint?).reverse ++ sp.taken).Nodup ∧
      sp' = { sp with taken := (inputs.filterMap Input.outpoint?).reverse ++ sp.taken } := by
  induction inputs generalizing sp with
  | nil =>
      constructor
      · intro heq
        exact ⟨fun i hi => (nomatch hi), htaken, (Except.ok.inj heq).symm⟩
      · rintro ⟨_, _, rfl⟩
        rfl
  | cons i rest ih =>
      rw [List.foldlM_cons, Except.bind_eq_ok]
      constructor
      · rintro ⟨sp₁, hfirst, hrest⟩
        obtain ⟨o, hi, havailable, hfresh, rfl⟩ := (take_eq_ok_iff h).mp hfirst
        obtain ⟨hall, hnodup, rfl⟩ := (ih (List.nodup_cons.mpr ⟨hfresh, htaken⟩)).mp hrest
        rw [List.filterMap_cons_some hi, List.reverse_cons, List.append_assoc,
          List.singleton_append]
        refine ⟨fun j hj => ?_, hnodup, rfl⟩
        rcases List.mem_cons.mp hj with rfl | hj
        · exact ⟨o, hi, havailable⟩
        · exact hall j hj
      · rintro ⟨hall, hnodup, heq⟩
        obtain ⟨o, hi, havailable⟩ := hall i List.mem_cons_self
        rw [List.filterMap_cons_some hi, List.reverse_cons, List.append_assoc,
          List.singleton_append] at hnodup heq
        let sp₁ : Spending := { sp with taken := o :: sp.taken }
        have hfirst : sp₁.taken.Nodup := (List.nodup_append.mp hnodup).2.1
        refine ⟨sp₁, (take_eq_ok_iff h).mpr ⟨o, hi, havailable, ?_, rfl⟩, ?_⟩
        · exact (List.nodup_cons.mp hfirst).1
        · exact (ih hfirst).mpr ⟨fun j hj => hall j (List.mem_cons_of_mem _ hj), hnodup, heq⟩

theorem addTransaction_eq_ok_iff (h : Unspent.Reads s base) (hbefore : (consumedBy before).Nodup)
    {tx : Transaction} : addTransaction s (after before) tx = .ok sp' ↔
      (∀ i ∈ tx.spends, ∃ o, i.outpoint? = some o ∧ (after before).available base o = true) ∧
      (consumedBy (before ++ [tx])).Nodup ∧ sp' = after (before ++ [tx]) := by
  have htaken : (tx.spends.filterMap Input.outpoint?).reverse ++ (after before).taken =
      (consumedBy (before ++ [tx])).reverse := by
    rw [after, ← List.reverse_append, consumedBy_append]
    simp [consumedBy]
  have hcreated : (tx.id, tx.outputs.length) :: (after before).created =
      (after (before ++ [tx])).created := by
    simp [after]
  have hnodup : (after before).taken.Nodup := List.nodup_reverse.mpr hbefore
  unfold addTransaction
  rw [Except.bind_eq_ok]
  constructor
  · rintro ⟨sp₁, htake, heq⟩
    obtain ⟨hall, hnodup', rfl⟩ := (takeAll_eq_ok_iff h hnodup).mp htake
    rw [htaken, List.nodup_reverse] at hnodup'
    refine ⟨hall, hnodup', ?_⟩
    rw [← Except.ok.inj heq, htaken, hcreated]
    rfl
  · rintro ⟨hall, hnodup', rfl⟩
    rw [← List.nodup_reverse, ← htaken] at hnodup'
    refine ⟨_, (takeAll_eq_ok_iff h hnodup).mpr ⟨hall, hnodup', rfl⟩, ?_⟩
    rw [htaken, hcreated]
    rfl

theorem addAll_eq_ok_iff (h : Unspent.Reads s base) (hbefore : (consumedBy before).Nodup) :
    txs.foldlM (addTransaction s) (after before) = .ok sp' ↔
      (∀ mid tx rest, txs = mid ++ tx :: rest → ∀ i ∈ tx.spends, ∃ o, i.outpoint? = some o ∧
        (after (before ++ mid)).available base o = true) ∧
      (consumedBy (before ++ txs)).Nodup ∧ sp' = after (before ++ txs) := by
  induction txs generalizing before with
  | nil =>
      rw [List.append_nil]
      constructor
      · intro heq
        exact ⟨fun mid tx rest hnil => by simp at hnil, hbefore, (Except.ok.inj heq).symm⟩
      · rintro ⟨_, _, rfl⟩
        rfl
  | cons tx rest ih =>
      have hstep := @ih (before ++ [tx])
      simp only [List.append_assoc, List.singleton_append] at hstep
      rw [List.foldlM_cons, Except.bind_eq_ok, forall_split_cons, List.append_nil]
      constructor
      · rintro ⟨sp₁, hfirst, hrest⟩
        obtain ⟨hall, hnodup, rfl⟩ := (addTransaction_eq_ok_iff h hbefore).mp hfirst
        obtain ⟨hothers, hnodup', rfl⟩ := (hstep hnodup).mp hrest
        exact ⟨⟨hall, hothers⟩, hnodup', rfl⟩
      · rintro ⟨⟨hall, hothers⟩, hnodup', rfl⟩
        have hnodup : (consumedBy (before ++ [tx])).Nodup := by
          rw [List.append_cons, consumedBy_append] at hnodup'
          exact (List.nodup_append.mp hnodup').1
        exact ⟨_, (addTransaction_eq_ok_iff h hbefore).mpr ⟨hall, hnodup, rfl⟩,
          (hstep hnodup).mpr ⟨hothers, hnodup', rfl⟩⟩

/-- Where transactions of one id have as many outputs, an output is available that one
of those before has, or that the index holds if none of them has the id. -/
theorem available_after_iff {o : Outpoint}
    (hsame : ∀ tx ∈ before, ∀ tx' ∈ before, tx.id = tx'.id → tx.outputs = tx'.outputs) :
    (after before).available base o = true ↔
      (∃ tx ∈ before, tx.id = o.source ∧ o.index.toNat < tx.outputs.length) ∨
        ((∀ tx ∈ before, tx.id ≠ o.source) ∧ base.holds o = true) := by
  unfold available
  cases hlookup : (after before).created.lookup o.source with
  | none =>
      have hnone : ∀ tx ∈ before, tx.id ≠ o.source := by
        intro tx htx heq
        have hmem : (tx.id, tx.outputs.length) ∈ (after before).created :=
          List.mem_reverse.mpr (List.mem_map_of_mem htx)
        have hne := List.lookup_eq_none_iff.mp hlookup _ hmem
        simp [heq] at hne
      constructor
      · intro hheld
        exact Or.inr ⟨hnone, hheld⟩
      · rintro (⟨tx, htx, hid, _⟩ | ⟨_, hheld⟩)
        · exact absurd hid (hnone tx htx)
        · exact hheld
  | some count =>
      obtain ⟨_, _, hsplit, _⟩ := List.lookup_eq_some_iff.mp hlookup
      have hmem : (o.source, count) ∈ (after before).created := by
        rw [hsplit]
        exact List.mem_append_right _ List.mem_cons_self
      obtain ⟨tx, htx, heq⟩ := List.mem_map.mp (List.mem_reverse.mp hmem)
      obtain ⟨hid, rfl⟩ := Prod.mk.inj heq
      simp only [decide_eq_true_iff]
      constructor
      · intro hlt
        exact Or.inl ⟨tx, htx, hid, hlt⟩
      · rintro (⟨tx', htx', hid', hlt⟩ | ⟨hnone, _⟩)
        · rwa [hsame tx htx tx' htx' (hid.trans hid'.symm)]
        · exact absurd hid (hnone tx htx)

end Spending

/-- Every input finds its output available after the transactions before, and no output
is taken twice. -/
theorem checkSpendable_eq_ok_iff {s : Store} {base : Index} (h : Unspent.Reads s base)
    {txs : List Transaction} : checkSpendable s txs = .ok () ↔
      (∀ before tx rest, txs = before ++ tx :: rest → ∀ i ∈ tx.spends, ∃ o, i.outpoint? = some o ∧
        (Spending.after before).available base o = true) ∧ (consumedBy txs).Nodup := by
  have hdiscard : checkSpendable s txs = .ok () ↔
      ∃ sp, txs.foldlM (Spending.addTransaction s) (Spending.after []) = .ok sp := by
    show discard (txs.foldlM (Spending.addTransaction s) (Spending.after [])) = .ok () ↔ _
    cases txs.foldlM (Spending.addTransaction s) (Spending.after []) with
    | error e => exact ⟨fun heq => (nomatch heq), fun ⟨_, heq⟩ => (nomatch heq)⟩
    | ok sp => exact ⟨fun _ => ⟨sp, rfl⟩, fun _ => rfl⟩
  have hstart : (consumedBy []).Nodup := List.nodup_nil
  rw [hdiscard]
  constructor
  · rintro ⟨sp, hsp⟩
    obtain ⟨heach, hnodup, _⟩ := (Spending.addAll_eq_ok_iff h hstart).mp hsp
    exact ⟨heach, hnodup⟩
  · rintro ⟨heach, hnodup⟩
    exact ⟨_, (Spending.addAll_eq_ok_iff h hstart).mpr ⟨heach, hnodup, rfl⟩⟩

end Ledger

/-! ## What the check of signatures asks for -/

/-- The input at a position names an output, with a key that the output is locked to and
a signature under this key. -/
structure Transaction.Claims (S : SignatureScheme) (tx : Transaction) (position : Nat) (i : Input)
    (o : Outpoint) (out : Output) : Prop where
  names : i.outpoint? = some o
  key : lockingHash i.key = out.lock
  signature : S.verify i.key (tx.signingDigest position out.lock) i.signature = true

/-- The transaction creates the output at a place of its own. -/
def Transaction.Creates (tx : Transaction) (o : Outpoint) (out : Output) : Prop :=
  tx.id = o.source ∧ tx.outputs[o.index.toNat]? = some out

namespace Chain

variable {s : Store} {c : Contents} {bs : List Block}

/-- Without an error everything on the walk has been read. -/
theorem walk_of_blocks (h : blocks s = .ok bs) : walk s = .ok (bs.map .ok) := by
  obtain ⟨results, hwalk, hread⟩ := Except.bind_eq_ok.mp h
  rw [hwalk, Except.mapM_id_eq_ok_iff.mp hread]

/-- The transaction that the chain has under an id, nearest the tip. -/
def lookup (bs : List Block) (id : Digest) : Option Transaction :=
  (Block.chainTransactions bs).find? fun tx => tx.id = id

theorem mem_of_lookup {id : Digest} {tx : Transaction} (h : lookup bs id = some tx) :
    tx ∈ Block.chainTransactions bs ∧ tx.id = id :=
  ⟨List.mem_of_find?_eq_some h, by simpa using List.find?_some h⟩

theorem exists_lookup {tx : Transaction} (h : tx ∈ Block.chainTransactions bs) :
    ∃ found, lookup bs tx.id = some found := by
  rw [← Option.isSome_iff_exists, lookup, List.find?_isSome]
  exact ⟨tx, h, by simp⟩

theorem findTransaction_of_lookup (hwalk : walk s = .ok (bs.map .ok)) {id : Digest}
    {tx : Transaction} (htx : lookup bs id = some tx) : findTransaction s id = .ok tx := by
  rw [findTransaction, hwalk]
  show findIn id (bs.map .ok) = _
  rw [findIn_eq, ← lookup, htx]

theorem isSome_find?_addReference {refs refs' : References} {i : Input}
    (h : addReference s refs i = .ok refs') {id : Digest} (hid : (refs.find? id).isSome) :
    (refs'.find? id).isSome := by
  unfold addReference at h
  split at h
  · rwa [← Except.ok.inj h]
  · obtain ⟨tx, _, heq⟩ := Except.bind_eq_ok.mp h
    rw [← Except.ok.inj heq, References.find?, List.find?_cons]
    split
    · rfl
    · exact hid

/-- All references are found if the chain has what the inputs refer to. -/
theorem exists_references (hwalk : walk s = .ok (bs.map .ok)) {tx : Transaction}
    (hall : ∀ i ∈ tx.spends, ∃ found, lookup bs i.source = some found) :
    ∃ refs, references s tx = .ok refs ∧ ∀ i ∈ tx.spends, (refs.find? i.source).isSome := by
  have hfold : ∀ (inputs : List Input) (refs : References),
      (∀ i ∈ inputs, ∃ found, lookup bs i.source = some found) →
      ∃ refs', inputs.foldlM (addReference s) refs = .ok refs' ∧
        (∀ id, (refs.find? id).isSome → (refs'.find? id).isSome) ∧
        ∀ i ∈ inputs, (refs'.find? i.source).isSome := by
    intro inputs
    induction inputs with
    | nil => exact fun refs _ => ⟨refs, rfl, fun _ hid => hid, fun i hi => nomatch hi⟩
    | cons i rest ih =>
        intro refs hfound
        obtain ⟨found, hlookup⟩ := hfound i List.mem_cons_self
        obtain ⟨refs₁, hadd, hself⟩ : ∃ refs₁, addReference s refs i = .ok refs₁ ∧
            (refs₁.find? i.source).isSome := by
          unfold addReference
          split
          · rename_i hthere
            exact ⟨refs, rfl, hthere⟩
          · rw [findTransaction_of_lookup hwalk hlookup]
            refine ⟨found :: refs, rfl, ?_⟩
            simp [References.find?, (mem_of_lookup hlookup).2]
        obtain ⟨refs₂, hrest, hkept, hothers⟩ :=
          ih refs₁ fun j hj => hfound j (List.mem_cons_of_mem _ hj)
        refine ⟨refs₂, ?_, fun id hid => hkept id (isSome_find?_addReference hadd hid), ?_⟩
        · rw [List.foldlM_cons, hadd]
          exact hrest
        · intro j hj
          rcases List.mem_cons.mp hj with rfl | hj
          · exact hkept _ hself
          · exact hothers j hj
  obtain ⟨refs, hrefs, _, hself⟩ := hfold tx.spends [] hall
  exact ⟨refs, hrefs, hself⟩

end Chain

namespace Ledger

variable {l : Ledger} {c : Contents} {bs : List Block} {b : Block} {room : Nat}

/-- Every input claims the output that the chain's transaction of its source has. -/
theorem verifyTransaction_eq_true_iff (h : l.store.Holds c) (hl : c.Linked) (ha : c.Active bs)
    {tx : Transaction} (hspends : tx.isCoinbase = false) : l.verifyTransaction tx = .ok true ↔
      ∀ position i, tx.inputs[position]? = some i → ∃ o out source,
        tx.Claims l.rules.scheme position i o out ∧ Chain.lookup bs o.source = some source ∧
          source.Creates o out := by
  have hinputs : tx.spends = tx.inputs := by rw [Transaction.spends, if_neg (by simp [hspends])]
  constructor
  · intro hverify position i hi
    obtain ⟨refs, hfound, hverifies⟩ := (verifyTransaction_ends h hl ha tx).1 true hverify rfl
    obtain ⟨out, hout, hkey, hsignature⟩ := Transaction.verifies_input hverifies hspends hi
    obtain ⟨place, source, hplace, hsource, hat⟩ := References.output?_eq_some.mp hout
    have hlookup : Chain.lookup bs i.source = some source := hfound _ _ hsource
    refine ⟨⟨i.source, place⟩, out, source, ⟨?_, hkey, hsignature⟩, hlookup, ?_, hat⟩
    · rw [Input.outpoint?, hplace]
      rfl
    · exact (Chain.mem_of_lookup hlookup).2
  · intro hall
    have hsource : ∀ i ∈ tx.spends, ∃ found, Chain.lookup bs i.source = some found := by
      intro i hi
      rw [hinputs] at hi
      obtain ⟨position, hposition⟩ := List.mem_iff_getElem?.mp hi
      obtain ⟨o, _, source, hclaims, hlookup, _⟩ := hall position i hposition
      obtain ⟨place, _, rfl⟩ := Option.map_eq_some_iff.mp hclaims.names
      exact ⟨source, hlookup⟩
    have hwalk := Chain.walk_eq h hl ha
    obtain ⟨refs, hrefs, hfind⟩ := Chain.exists_references hwalk hsource
    have hfound := (Chain.references_ends hwalk tx).1 refs hrefs
    rw [verifyTransaction, hrefs]
    refine congrArg Except.ok ?_
    rw [Transaction.verifies, hspends, Bool.false_or, List.all_eq_true]
    rintro ⟨i, position⟩ hi
    have hposition := List.mem_zipIdx_iff_getElem?.mp hi
    obtain ⟨o, out, source, hclaims, hlookup, _, hat⟩ := hall position i hposition
    obtain ⟨place, hplace, rfl⟩ := Option.map_eq_some_iff.mp hclaims.names
    obtain ⟨found, hthere⟩ := Option.isSome_iff_exists.mp
      (hfind i (hinputs ▸ List.mem_of_getElem? hposition))
    -- what the references have under an id is what the chain has
    obtain rfl : source = found := Option.some.inj (hlookup.symm.trans (hfound _ _ hthere))
    have hout : refs.output? i = some out :=
      References.output?_eq_some.mpr ⟨place, source, hplace, hthere, hat⟩
    show tx.inputVerifies l.rules.scheme refs position i = true
    rw [Transaction.inputVerifies, hout]
    simp only [Input.usesKey, hclaims.key, hclaims.signature, decide_true, Bool.and_self]

theorem checkSignatures_eq_ok_iff {txs : List Transaction} : l.checkSignatures txs = .ok () ↔
    ∀ tx ∈ txs, tx.isCoinbase = false → l.verifyTransaction tx = .ok true := by
  refine ⟨fun h => ?_, checkSignatures_eq_ok⟩
  induction txs with
  | nil => exact fun tx htx => nomatch htx
  | cons t rest ih =>
      rw [checkSignatures] at h
      intro tx htx hspends
      cases hcoinbase : t.isCoinbase with
      | true =>
          rw [hcoinbase] at h
          rcases List.mem_cons.mp htx with rfl | htx
          · rw [hspends] at hcoinbase
            cases hcoinbase
          · exact ih (by simpa using h) tx htx hspends
      | false =>
          rw [hcoinbase, Bool.not_false, if_pos rfl] at h
          obtain ⟨flag, hverify, hrest⟩ := Except.bind_eq_ok.mp h
          rw [throwOr_eq_ok] at hrest
          rcases List.mem_cons.mp htx with rfl | htx
          · simpa [hverify] using hrest.1
          · exact ih hrest.2 tx htx hspends

/-! ## Committing on top of the tip -/

/-- A new block one level above the tip is committed exactly when what it spends is
there. -/
theorem commitBlock_eq_true_iff (h : l.store.Holds c) (hrun : l.halted = false)
    (hsound : c.Sound room) (hb : b.Fits) (htip : c.tip = some b.parent)
    (hnew : c.blocks b.hash = none) (hover : c.OvertakenBy b) :
    (l.commitBlock b).1 = .ok true ↔ checkSpendable l.store b.transactions = .ok () := by
  have hextended : c.ExtendedBy b := by
    unfold Contents.ExtendedBy
    rw [htip]
  have hextends : extendsTip l.store b = .ok true := by
    obtain ⟨flag, hflag, hiff⟩ := extendsTip_eq h b
    rwa [hiff.mpr hextended] at hflag
  have hstore : storeBlock l.store b true =
      checkSpendable l.store b.transactions >>= fun _ => Chain.addBlock l.store b := by
    rw [storeBlock, Chain.hasBlock_eq h, hnew]
    rfl
  rw [commitBlock, ensureWritable_eq h hrun]
  rcases checkSpendable_cases h b.transactions with ⟨id, herror⟩ | ⟨hok, m, hm⟩
  · rw [herror] at hstore ⊢
    rw [placeBlock_of_refused hextends hstore]
    constructor
    · intro heq
      cases heq
    · intro heq
      cases heq
  · rw [hok] at hstore ⊢
    rcases Chain.addBlock_cases h hsound.hasTip hb with
      ⟨hknown, _⟩ | ⟨_, hnot, _⟩ | ⟨_, _, t, ht, hholds⟩
    · rw [hnew] at hknown
      cases hknown
    · exact absurd hover hnot
    · obtain ⟨u, hu, _⟩ := Unspent.update_eq hholds hb hm
      have hfollow : followTip t b true = .ok u := by rw [followTip, if_pos rfl, hu]
      rw [placeBlock_of_followed hextends (hstore.trans ht) hfollow]
      exact ⟨fun _ => rfl, fun _ => rfl⟩

/-- A new block whose parent is the tip becomes the tip exactly when it obeys the rules,
is one level above its parent, and passes both checks of its inputs. -/
theorem acceptBlock_eq_true_iff (h : l.store.Holds c) (hrun : l.halted = false)
    (hsound : c.Sound room) (hb : b.Fits) (hroom : room + outputCount b.transactions < 2 ^ 64)
    (htip : c.tip = some b.parent) (hnew : c.blocks b.hash = none) :
    (l.acceptBlock b).1 = .ok true ↔ l.rules.Admits b ∧
      (∃ p, c.blocks b.parent = some p ∧ b.height.toNat = p.height.toNat + 1) ∧
      (∀ tx ∈ b.transactions, tx.isCoinbase = false → l.verifyTransaction tx = .ok true) ∧
      checkSpendable l.store b.transactions = .ok () := by
  have hcheck : l.checkBlock b = .ok () ↔
      l.rules.Admits b ∧ c.Attaches b ∧ l.checkSignatures b.transactions = .ok () := by
    rw [← Rules.checkBlock_eq_ok_iff, checkBlock, check_bind_eq_ok, check_bind_eq_ok]
    refine and_congr ?_ (and_congr ?_ Iff.rfl)
    · cases l.rules.checkBlock b with
      | error cause =>
          apply iff_of_false
          · intro heq
            cases heq
          · intro heq
            cases heq
      | ok u => exact ⟨fun _ => rfl, fun _ => rfl⟩
    · rcases checkParent_cases h b with ⟨hattach, hok⟩ | ⟨hnot, cause, herror⟩
      · exact iff_of_true hok hattach
      · rw [herror]
        apply iff_of_false
        · intro heq
          cases heq
        · exact hnot
  rw [checkSignatures_eq_ok_iff] at hcheck
  have hover : (∃ p, c.blocks b.parent = some p ∧ b.height.toNat = p.height.toNat + 1) →
      c.OvertakenBy b := by
    rintro ⟨p, hp, hheight⟩ hash t hc ht
    obtain rfl := Option.some.inj (htip.symm.trans hc)
    obtain rfl := Option.some.inj (hp.symm.trans ht)
    rw [UInt64.lt_iff_toNat_lt]
    omega
  constructor
  · intro haccept
    unfold acceptBlock at haccept
    split at haccept
    · cases haccept
    · rename_i hok
      obtain ⟨hadmits, hattach, hsigned⟩ := hcheck.mp hok
      have hparent : ∃ p, c.blocks b.parent = some p ∧ b.height.toNat = p.height.toNat + 1 := by
        apply hattach
        by_contra hnot
        -- a genesis block is not above the tip
        have hg : b.isGenesis = true := by simpa using hnot
        rcases commitBlock_cases h hrun hsound hb hattach hroom with
          ⟨id, herror⟩ | ⟨hknown, _⟩ | ⟨flag, t, c', hcommit, _, hplace⟩
        · rw [herror] at haccept
          cases haccept
        · rw [hnew] at hknown
          cases hknown
        · rw [hcommit] at haccept
          obtain rfl := Except.ok.inj haccept
          have hovertaken : c.OvertakenBy b := by
            cases hplace with
            | onTip _ hover _ _ => exact hover
            | switch _ hover _ _ => exact hover
          rw [hovertaken.tip_eq_none hsound.hasTip (hadmits.height hg)] at htip
          cases htip
      exact ⟨hadmits, hparent, hsigned,
        (commitBlock_eq_true_iff h hrun hsound hb htip hnew (hover hparent)).mp haccept⟩
  · rintro ⟨hadmits, hparent, hsigned, hspendable⟩
    rw [acceptBlock, hcheck.mpr ⟨hadmits, fun _ => hparent, hsigned⟩]
    exact (commitBlock_eq_true_iff h hrun hsound hb htip hnew (hover hparent)).mpr hspendable

end Ledger

/-! ## What a block on top of the tip has to be like -/

/-- The transaction is in a block of the active chain. -/
def Chain.Contains (s : Store) (tx : Transaction) : Prop :=
  ∃ bs, Chain.blocks s = .ok bs ∧ tx ∈ Block.chainTransactions bs

/-- A transaction of the active chain created the output, and the index holds it. -/
def Unspent.AtTip (s : Store) (o : Outpoint) (out : Output) : Prop :=
  (Unspent.index s).holds o = true ∧ ∃ tx, Chain.Contains s tx ∧ tx.Creates o out

/-- The output is unspent at the tip, or one of the transactions before created it. -/
def Unspent.Offered (s : Store) (before : List Transaction) (o : Outpoint) (out : Output) : Prop :=
  AtTip s o out ∨ ∃ tx ∈ before, tx.Creates o out

/-- The output is unspent at the tip, or one of the transactions before created it and
the active chain has a transaction of its id. -/
def Unspent.OfferedOnChain (s : Store) (before : List Transaction) (o : Outpoint)
    (out : Output) : Prop :=
  AtTip s o out ∨ (∃ tx ∈ before, tx.Creates o out) ∧ ∃ tx, Chain.Contains s tx ∧ tx.id = o.source

/-- The rules admit the block, it is one level above its parent, every input of its
payments in order claims an output that is offered to it, and no output is named twice. -/
structure Block.Extends (b : Block) (rules : Rules) (s : Store)
    (offered : List Transaction → Outpoint → Output → Prop) : Prop where
  admitted : rules.checkBlock b = .ok ()
  height : ∃ t, Chain.block s b.parent = .ok t ∧ b.height.toNat = t.height.toNat + 1
  claims : ∀ before tx after, b.transactions = before ++ tx :: after → tx.isCoinbase = false →
    ∀ position i, tx.inputs[position]? = some i →
      ∃ o out, tx.Claims rules.scheme position i o out ∧ offered before o out
  once : (consumedBy b.transactions).Nodup

namespace Ledger

variable {l : Ledger} {c : Contents} {bs : List Block} {b : Block} {room : Nat}

theorem contains_iff {s : Store} (h : s.Holds c) (hl : c.Linked) (ha : c.Active bs)
    {tx : Transaction} : Chain.Contains s tx ↔ tx ∈ Block.chainTransactions bs := by
  rw [Chain.Contains, Chain.blocks_eq h hl ha]
  constructor
  · rintro ⟨_, heq, htx⟩
    obtain rfl := Except.ok.inj heq
    exact htx
  · exact fun htx => ⟨bs, rfl, htx⟩

/-- What both checks find for one input: the chain's transaction of the source has the
output, and it is available after the transactions before. Both resolve the source by
its id alone, so transactions of one id must have the same outputs. -/
theorem offeredOnChain_iff (h : l.store.Holds c) (hl : c.Linked) (ha : c.Active bs)
    {before : List Transaction} {o : Outpoint} {out : Output}
    (hsame : ∀ tx ∈ before ++ Block.chainTransactions bs,
      ∀ tx' ∈ before ++ Block.chainTransactions bs, tx.id = tx'.id → tx.outputs = tx'.outputs) :
    ((∃ source, Chain.lookup bs o.source = some source ∧ source.Creates o out) ∧
      (Spending.after before).available c.index o = true) ↔
    Unspent.OfferedOnChain l.store before o out := by
  have hhere : ∀ tx ∈ before, tx ∈ before ++ Block.chainTransactions bs :=
    fun tx htx => List.mem_append_left _ htx
  have hbelow : ∀ tx ∈ Block.chainTransactions bs, tx ∈ before ++ Block.chainTransactions bs :=
    fun tx htx => List.mem_append_right _ htx
  -- with one creator of the output every transaction of its id creates it
  have hcreates : ∀ tx ∈ before ++ Block.chainTransactions bs, tx.Creates o out →
      ∀ tx' ∈ before ++ Block.chainTransactions bs, tx'.id = o.source → tx'.Creates o out := by
    intro tx htx hcreates tx' htx' hid
    refine ⟨hid, ?_⟩
    rw [hsame tx' htx' tx htx (hid.trans hcreates.1.symm)]
    exact hcreates.2
  simp only [Unspent.OfferedOnChain, Unspent.AtTip, Unspent.index_eq h, contains_iff h hl ha]
  rw [Spending.available_after_iff fun t ht t' ht' => hsame t (hhere t ht) t' (hhere t' ht')]
  constructor
  · rintro ⟨⟨source, hlookup, hsource⟩, ⟨t, ht, hid, _⟩ | ⟨_, hheld⟩⟩
    · have honchain := (Chain.mem_of_lookup hlookup).1
      exact Or.inr ⟨⟨t, ht, hcreates source (hbelow source honchain) hsource t (hhere t ht) hid⟩,
        source, honchain, hsource.1⟩
    · exact Or.inl ⟨hheld, source, (Chain.mem_of_lookup hlookup).1, hsource⟩
  · intro hoffered
    obtain ⟨creator, hcreator, hcreator', t, ht, hid⟩ :
        ∃ creator ∈ before ++ Block.chainTransactions bs, creator.Creates o out ∧
          ∃ t ∈ Block.chainTransactions bs, t.id = o.source := by
      rcases hoffered with ⟨_, t, ht, htc⟩ | ⟨⟨t, ht, htc⟩, t', ht', hid⟩
      · exact ⟨t, hbelow t ht, htc, t, ht, htc.1⟩
      · exact ⟨t, hhere t ht, htc, t', ht', hid⟩
    obtain ⟨source, hlookup⟩ := Chain.exists_lookup ht
    obtain ⟨honchain, hsource⟩ := Chain.mem_of_lookup hlookup
    rw [hid] at hlookup hsource
    refine ⟨⟨source, hlookup, hcreates creator hcreator hcreator' source (hbelow source honchain)
      hsource⟩, ?_⟩
    by_cases hthere : ∃ t ∈ before, t.id = o.source
    · left
      obtain ⟨t, ht, hid⟩ := hthere
      have hat := (hcreates creator hcreator hcreator' t (hhere t ht) hid).2
      exact ⟨t, ht, hid, (List.getElem?_eq_some_iff.mp hat).1⟩
    · right
      refine ⟨fun t ht hid => hthere ⟨t, ht, hid⟩, ?_⟩
      rcases hoffered with ⟨hheld, _⟩ | ⟨⟨t, ht, htc⟩, _⟩
      · exact hheld
      · exact absurd ⟨t, ht, htc.1⟩ hthere

/-- The two checks of the inputs together, input by input. -/
theorem inputsCheck_iff (h : l.store.Holds c) (hl : c.Linked) (ha : c.Active bs)
    (hsame : ∀ tx ∈ Block.chainTransactions (b :: bs), ∀ tx' ∈ Block.chainTransactions (b :: bs),
      tx.id = tx'.id → tx.outputs = tx'.outputs) :
    ((∀ tx ∈ b.transactions, tx.isCoinbase = false → l.verifyTransaction tx = .ok true) ∧
      checkSpendable l.store b.transactions = .ok ()) ↔
    (∀ before tx after, b.transactions = before ++ tx :: after → tx.isCoinbase = false →
      ∀ position i, tx.inputs[position]? = some i → ∃ o out,
        tx.Claims l.rules.scheme position i o out ∧
          Unspent.OfferedOnChain l.store before o out) ∧
    (consumedBy b.transactions).Nodup := by
  have hoffered : ∀ {before tx after} {o : Outpoint} {out : Output},
      b.transactions = before ++ tx :: after →
      (((∃ source, Chain.lookup bs o.source = some source ∧ source.Creates o out) ∧
        (Spending.after before).available c.index o = true) ↔
      Unspent.OfferedOnChain l.store before o out) := by
    intro before tx after o out hsplit
    have hmem : ∀ t ∈ before ++ Block.chainTransactions bs,
        t ∈ Block.chainTransactions (b :: bs) := by
      intro t ht
      rw [Block.chainTransactions, List.flatMap_cons, hsplit, List.append_assoc]
      rcases List.mem_append.mp ht with ht | ht
      · exact List.mem_append_left _ ht
      · exact List.mem_append_right _ (List.mem_append_right _ ht)
    exact offeredOnChain_iff h hl ha fun t ht t' ht' => hsame t (hmem t ht) t' (hmem t' ht')
  rw [checkSpendable_eq_ok_iff (Unspent.Reads.of_holds h), ← and_assoc]
  refine and_congr_left fun _ => ?_
  constructor
  · rintro ⟨hverify, hspend⟩ before tx after hsplit hspends position i hi
    have htx : tx ∈ b.transactions := by
      rw [hsplit]
      exact List.mem_append_right _ List.mem_cons_self
    have hmem : i ∈ tx.spends := by
      rw [Transaction.spends, if_neg (by simp [hspends])]
      exact List.mem_of_getElem? hi
    obtain ⟨o, out, source, hclaims, hfound⟩ :=
      (verifyTransaction_eq_true_iff h hl ha hspends).mp (hverify tx htx hspends) position i hi
    obtain ⟨o', hnames, havailable⟩ := hspend before tx after hsplit i hmem
    obtain rfl : o = o' := Option.some.inj (hclaims.names.symm.trans hnames)
    exact ⟨o, out, hclaims, (hoffered hsplit).mp ⟨⟨source, hfound⟩, havailable⟩⟩
  · intro hall
    refine ⟨fun tx htx hspends => ?_, fun before tx after hsplit i hi => ?_⟩
    · obtain ⟨before, after, hsplit⟩ := List.append_of_mem htx
      refine (verifyTransaction_eq_true_iff h hl ha hspends).mpr fun position i hi => ?_
      obtain ⟨o, out, hclaims, hthere⟩ := hall before tx after hsplit hspends position i hi
      obtain ⟨⟨source, hfound⟩, _⟩ := (hoffered hsplit).mpr hthere
      exact ⟨o, out, source, hclaims, hfound⟩
    · obtain ⟨hspends, hinput⟩ := Transaction.mem_spends hi
      obtain ⟨position, hposition⟩ := List.mem_iff_getElem?.mp hinput
      obtain ⟨o, out, hclaims, hthere⟩ := hall before tx after hsplit hspends position i hposition
      exact ⟨o, hclaims.names, ((hoffered hsplit).mpr hthere).2⟩

end Ledger

namespace Session

/-- After a run of beginnings and accepted blocks, a new block whose parent is the tip
becomes the tip exactly when it extends the chain with inputs whose sources the active
chain has. The only exception is a collision of SHA-256 among the transactions of the
store and of the block. -/
theorem acceptBlock_onTip_iff (rules : Rules) (requests : List Request) (b : Block)
    (hkinds : ∀ r ∈ requests, r.BeginsOrAccepts) (hfits : RunFits (requests ++ [.accept b]))
    (htip : Chain.tip? (storeAfter rules requests) = .ok (some b.parent))
    (hnew : Chain.hasBlock (storeAfter rules requests) b.hash = false) :
    ((((start rules).run requests).ledger.acceptBlock b).1 = .ok true ↔
        b.Extends rules (storeAfter rules requests)
          (Unspent.OfferedOnChain (storeAfter rules requests))) ∨
      ∃ tx tx', (Chain.Includes (storeAfter rules requests) tx ∨ tx ∈ b.transactions) ∧
        (Chain.Includes (storeAfter rules requests) tx' ∨ tx' ∈ b.transactions) ∧
        IsCollision tx.idPreimage tx'.idPreimage := by
  obtain ⟨c, h⟩ := exists_grounded rules hkinds hfits.init
  obtain ⟨bs, ha⟩ := h.sound.contents.exists_active
  have hl := h.sound.contents.linked
  have hb : b.Fits := hfits.last
  have hroom : Request.totalOutputCount requests + outputCount b.transactions < 2 ^ 64 := by
    have hcount := hfits.count
    rwa [Request.totalOutputCount_snoc] at hcount
  rw [storeAfter, Chain.tip?_eq h.sound.holds] at htip
  rw [storeAfter, Chain.hasBlock_eq h.sound.holds] at hnew
  by_cases hcollision : ∃ tx tx',
      (Chain.Includes (storeAfter rules requests) tx ∨ tx ∈ b.transactions) ∧
      (Chain.Includes (storeAfter rules requests) tx' ∨ tx' ∈ b.transactions) ∧
      IsCollision tx.idPreimage tx'.idPreimage
  · exact Or.inr hcollision
  left
  have hstored : ∀ t ∈ bs, c.blocks t.hash = some t := by
    intro t ht
    obtain ⟨name, hname⟩ := ha.stored t ht
    rwa [hl.named name t hname]
  -- under the rules all ids are hashes of contents, so one id means the same outputs
  have hsame : rules.Admits b → ∀ tx ∈ Block.chainTransactions (b :: bs),
      ∀ tx' ∈ Block.chainTransactions (b :: bs), tx.id = tx'.id → tx.outputs = tx'.outputs := by
    intro hadmits
    have hknown : ∀ tx ∈ Block.chainTransactions (b :: bs),
        (Chain.Includes (storeAfter rules requests) tx ∨ tx ∈ b.transactions) ∧ tx.Fits ∧
          tx.contentHash = tx.id := by
      intro tx htx
      rw [Block.chainTransactions, List.flatMap_cons] at htx
      rcases List.mem_append.mp htx with htx | htx
      · exact ⟨Or.inr htx, hb.transactions tx htx, hadmits.ids tx htx⟩
      · obtain ⟨hincludes, hrest⟩ := h.known hstored tx htx
        exact ⟨Or.inl hincludes, hrest⟩
    intro tx htx tx' htx' hid
    obtain ⟨hin, hfits, hcontent⟩ := hknown tx htx
    obtain ⟨hin', hfits', hcontent'⟩ := hknown tx' htx'
    rw [← hcontent, ← hcontent'] at hid
    rcases Transaction.outputs_eq_or_collision hfits hfits' hid with houtputs | hcollides
    · exact houtputs
    · exact absurd ⟨tx, tx', hin, hin', hcollides⟩ hcollision
  have hparent : (∃ t, Chain.block (storeAfter rules requests) b.parent = .ok t ∧
      b.height.toNat = t.height.toNat + 1) ↔
      ∃ p, c.blocks b.parent = some p ∧ b.height.toNat = p.height.toNat + 1 := by
    rw [storeAfter, Chain.block_eq h.sound.holds]
    cases c.blocks b.parent <;> simp
  rw [Ledger.acceptBlock_eq_true_iff h.sound.holds h.sound.running h.sound.contents hb hroom
    (Except.ok.inj htip) (by simpa using hnew), ← hparent, h.rules_eq]
  constructor
  · rintro ⟨hadmits, hheight, hchecks⟩
    have hiff := Ledger.inputsCheck_iff h.sound.holds hl ha (hsame hadmits)
    rw [h.rules_eq] at hiff
    obtain ⟨hclaims, honce⟩ := hiff.mp hchecks
    exact ⟨Rules.checkBlock_eq_ok_iff.mpr hadmits, hheight, hclaims, honce⟩
  · rintro ⟨hrules, hheight, hclaims, honce⟩
    have hadmits := Rules.checkBlock_eq_ok_iff.mp hrules
    have hiff := Ledger.inputsCheck_iff h.sound.holds hl ha (hsame hadmits)
    rw [h.rules_eq] at hiff
    exact ⟨hadmits, hheight, hiff.mpr ⟨hclaims, honce⟩⟩

end Session

/-! ## A payment that spends another of its block -/

namespace Fork

/-- Bob's claim to what the payment gives him. -/
def passOnSpend : Input where
  source := payment.id
  index := 0
  signature :=
    Bytes.bigEndian 32 0x4dc282610602e5c909da3559e6f5203d8ff456c03dc16e3d32a0e3768944e8a6 ++
      Bytes.bigEndian 32 0x42e1ee23db8e6dffa4b47f3d2f2c3424aed0a649d603bf7015631d8a0a4a6b04
  key :=
    Bytes.bigEndian 32 0x466d7fcae563e5cb09a0d1870bb580344804617879a14949cf22285f1bae3f27 ++
      Bytes.bigEndian 32 0x6728176c3c6431f8eeda4538dc37c865e2784f3a9e77d044f33e407797e1278a

/-- Bob passes the payment on to Alice. -/
def passOn : Transaction :=
  ⟨Digest.ofNat 0x2601f1256d5770dd993cd3bd1f0ca635c4c1c184ab6ce527351e49ccad13884e, [passOnSpend],
    [⟨100, alice⟩]⟩

/-- A block on the root with the payment and the one that spends it. -/
def relay : Block where
  timestamp := 0
  hash := Digest.ofNat 0x170b3bf30dec65e72ed34cde01419ef583d2cc4105dc50c3c26b6277d09907f4
  transactions :=
    [coinbase 0xf9cf6cfdd4a0d6e0f6821124a5689a1816ba74788c01e8a78af0d5c8d2d638b6 6 bob, payment,
      passOn]
  parent := root.hash
  nonce := 2
  height := 1

/-- The store of a ledger that has accepted the root. -/
def rootStore : Store := Session.storeAfter rules [.accept root]

theorem rootStore_blocks : Chain.tip? rootStore = .ok (some root.hash) ∧
    Chain.blocks rootStore = .ok [root] ∧ Chain.block rootStore root.hash = .ok root ∧
    (Unspent.index rootStore).holds ⟨reward.id, 0⟩ = true := by
  decide +kernel

theorem relay_checked : rules.checkBlock relay = .ok () ∧
    Chain.hasBlock rootStore relay.hash = false ∧
    lockingHash spend.key = alice ∧ lockingHash passOnSpend.key = bob ∧
    rules.scheme.verify spend.key (payment.signingDigest 0 alice) spend.signature = true ∧
    rules.scheme.verify passOnSpend.key (passOn.signingDigest 0 bob) passOnSpend.signature = true ∧
    (((Session.start rules).run [.accept root]).ledger.acceptBlock relay).1 =
      .error (.verificationFailed passOn.id) := by
  decide +kernel

theorem payment_claims : payment.Claims rules.scheme 0 spend ⟨reward.id, 0⟩ ⟨100, alice⟩ :=
  ⟨rfl, relay_checked.2.2.1, relay_checked.2.2.2.2.1⟩

theorem passOn_claims : passOn.Claims rules.scheme 0 passOnSpend ⟨payment.id, 0⟩ ⟨100, bob⟩ :=
  ⟨rfl, relay_checked.2.2.2.1, relay_checked.2.2.2.2.2.1⟩

theorem reward_atTip : Unspent.AtTip rootStore ⟨reward.id, 0⟩ ⟨100, alice⟩ := by
  refine ⟨rootStore_blocks.2.2.2, reward, ⟨[root], rootStore_blocks.2.1, ?_⟩, rfl, rfl⟩
  exact List.mem_append_left _ List.mem_cons_self

/-- The block extends the chain if outputs of the transactions before may be spent, and it
is refused: the second payment is looked up on the chain, which does not have the first. -/
theorem relay_refused :
    RunFits [.accept root, .accept relay] ∧ Chain.tip? rootStore = .ok (some relay.parent) ∧
      Chain.hasBlock rootStore relay.hash = false ∧
      relay.Extends rules rootStore (Unspent.Offered rootStore) ∧
      (((Session.start rules).run [.accept root]).ledger.acceptBlock relay).1 =
        .error (.verificationFailed passOn.id) := by
  refine ⟨by decide, rootStore_blocks.1, relay_checked.2.1, ?_, relay_checked.2.2.2.2.2.2⟩
  refine ⟨relay_checked.1, ⟨root, rootStore_blocks.2.2.1, rfl⟩, ?_, by decide⟩
  have hsingle : ∀ {input i : Input} {position : Nat}, [input][position]? = some i →
      position = 0 ∧ input = i := by
    intro input i position hi
    rwa [List.getElem?_singleton, Option.ite_none_right_eq_some, Option.some.injEq] at hi
  show ∀ before tx after, [_, _, _] = before ++ tx :: after → _
  rw [forall_split_cons, forall_split_cons, forall_split_cons]
  refine ⟨?_, ?_, ?_, ?_⟩
  · intro hspends
    cases hspends
  · intro _ position i hi
    obtain ⟨rfl, rfl⟩ := hsingle hi
    exact ⟨_, _, payment_claims, Or.inl reward_atTip⟩
  · intro _ position i hi
    obtain ⟨rfl, rfl⟩ := hsingle hi
    exact ⟨_, _, passOn_claims, Or.inr ⟨payment, by simp, rfl, rfl⟩⟩
  · intro before tx after hnil
    simp at hnil

/-- The block with the payment alone is accepted, so it extends the chain in the sense
that the check asks for. -/
theorem longer_extends :
    longer.Extends rules rootStore (Unspent.OfferedOnChain rootStore) ∨
      ∃ tx tx', (Chain.Includes rootStore tx ∨ tx ∈ longer.transactions) ∧
        (Chain.Includes rootStore tx' ∨ tx' ∈ longer.transactions) ∧
        IsCollision tx.idPreimage tx'.idPreimage := by
  have hkinds : ∀ r ∈ [Request.accept root], r.BeginsOrAccepts := by
    intro r hr
    rw [List.mem_singleton.mp hr]
    trivial
  have hfits : RunFits ([Request.accept root] ++ [.accept longer]) := by decide
  have hnew : Chain.hasBlock rootStore longer.hash = false := by decide +kernel
  have haccepted : (((Session.start rules).run [.accept root]).ledger.acceptBlock longer).1 =
      .ok true := by decide +kernel
  rcases Session.acceptBlock_onTip_iff rules [.accept root] longer hkinds hfits rootStore_blocks.1
    hnew with hiff | hcollision
  · exact Or.inl (hiff.mp haccepted)
  · exact Or.inr hcollision

end Fork

end CoinLedger
