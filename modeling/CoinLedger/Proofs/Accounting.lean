import CoinLedger.Proofs.Acceptance
import CoinLedger.Proofs.Worth

/-!
# Keeping account of a chain

Nothing in a ledger compares what a transaction consumes with what it pays. That an
index keeps account of the transactions of a chain is stated here as `AccountsFor`: it
lists what they created and did not consume, each output that has a value just once.
Outputs without a value are left aside, for transactions that are worth nothing may
come again under the same id, and then an update of the index and a rebuild differ.

What carries the argument is that a transaction which is worth something comes once. A
coinbase has a note of its own. Another transaction consumed outputs when it came first,
and an index that keeps account does not list them any more. So nothing of worth is
overwritten when outputs are put in under an id, and the total moves by what the
transaction pays less what it consumes: `AccountsFor.follow_block` for a block that the
index follows, `AccountsFor.leftover_block` for the index that a rebuild computes.
-/

namespace CoinLedger

/-! ## Transactions and what they consume -/

/-- No two transactions share an id. -/
def OneOfEachId (txs : List Transaction) : Prop :=
  ∀ tx ∈ txs, ∀ tx' ∈ txs, tx.id = tx'.id → tx = tx'

theorem OneOfEachId.mono {txs txs' : List Transaction} (h : OneOfEachId txs') (hsub : txs ⊆ txs') :
    OneOfEachId txs :=
  fun tx htx tx' htx' hid => h tx (hsub htx) tx' (hsub htx') hid

theorem Block.chainTransactions_cons (b : Block) (bs : List Block) :
    chainTransactions (b :: bs) = b.transactions ++ chainTransactions bs :=
  List.flatMap_cons

theorem mem_consumedBy {txs : List Transaction} {o : Outpoint} :
    o ∈ consumedBy txs ↔ ∃ tx ∈ txs, o ∈ tx.spends.filterMap Input.outpoint? :=
  List.mem_flatMap

theorem mem_outputsUnder {txs : List Transaction} {id : Digest} {p : UInt32 × Output} :
    p ∈ outputsUnder txs id ↔ ∃ tx ∈ txs, tx.id = id ∧ p ∈ tx.indexedOutputs := by
  rw [outputsUnder, List.mem_flatMap]
  simp only [List.mem_filter, decide_eq_true_iff, and_assoc]

namespace Transaction

variable {tx : Transaction} {history more : List Transaction} {coins : List (Outpoint × Output)}
  {o : Outpoint} {out out' : Output} {p : UInt32 × Output}

theorem Creates.unique (h : tx.Creates o out) (h' : tx.Creates o out') : out = out' :=
  Option.some.inj (h.2.symm.trans h'.2)

theorem Creates.mem_indexedOutputs (h : tx.Creates o out) : (o.index, out) ∈ tx.indexedOutputs := by
  refine List.mem_map.mpr ⟨(out, o.index.toNat), ?_, by simp⟩
  exact List.mem_zipIdx_iff_getElem?.mpr h.2

theorem creates_of_mem (hplaces : tx.outputs.length ≤ 2 ^ 32) (h : p ∈ tx.indexedOutputs) :
    tx.Creates ⟨tx.id, p.1⟩ p.2 :=
  ⟨rfl, getElem?_of_mem_indexedOutputs h hplaces⟩

/-- As long as there are places enough, no two outputs share one. -/
theorem nodup_indexedOutputs (hplaces : tx.outputs.length ≤ 2 ^ 32) : tx.indexedOutputs.Nodup := by
  have hfst : tx.indexedOutputs.map Prod.fst =
      (tx.outputs.zipIdx.map Prod.snd).map UInt32.ofNat := by
    rw [indexedOutputs, List.map_map, List.map_map]
    rfl
  refine List.Nodup.of_map Prod.fst ?_
  rw [hfst, List.zipIdx_map_snd]
  refine List.Nodup.map_on (fun i hi j hj heq => ?_) List.nodup_range'
  rw [List.mem_range'_1] at hi hj
  have hsize : UInt32.size = 2 ^ 32 := rfl
  have hnat := congrArg UInt32.toNat heq
  rwa [UInt32.toNat_ofNat_of_lt' (by omega), UInt32.toNat_ofNat_of_lt' (by omega)] at hnat

/-- The inputs consume outputs that transactions of the history created. -/
structure Consumes (tx : Transaction) (history : List Transaction)
    (coins : List (Outpoint × Output)) : Prop where
  names : tx.spends.map Input.outpoint? = coins.map fun q => some q.1
  created : ∀ q ∈ coins, ∃ source ∈ history, source.Creates q.1 q.2

theorem Consumes.mono (h : tx.Consumes history coins) (hsub : history ⊆ more) :
    tx.Consumes more coins where
  names := h.names
  created q hq :=
    let ⟨source, hsource, hcreates⟩ := h.created q hq
    ⟨source, hsub hsource, hcreates⟩

theorem consumes_nil (h : tx.spends = []) : tx.Consumes history [] where
  names := by rw [h]; rfl
  created q hq := absurd hq List.not_mem_nil

theorem Consumes.consumed (h : tx.Consumes history coins) :
    tx.spends.filterMap Input.outpoint? = coins.map Prod.fst := by
  calc tx.spends.filterMap Input.outpoint?
      = (tx.spends.map Input.outpoint?).filterMap fun o => o := by
        rw [List.filterMap_map]
        rfl
    _ = (coins.map fun q => some q.1).filterMap fun o => o := by rw [h.names]
    _ = coins.map Prod.fst := by simp [List.filterMap_map]

/-- Everything that the transaction consumes has a source in the history. -/
theorem Consumes.sourced (h : tx.Consumes history coins)
    (ho : o ∈ tx.spends.filterMap Input.outpoint?) : ∃ source ∈ history, source.id = o.source := by
  rw [h.consumed] at ho
  obtain ⟨q, hq, rfl⟩ := List.mem_map.mp ho
  obtain ⟨source, hsource, hcreates⟩ := h.created q hq
  exact ⟨source, hsource, hcreates.1⟩

/-- The inputs consume outputs of the history that are together worth what the
transaction pays. -/
def Balances (tx : Transaction) (history : List Transaction) : Prop :=
  ∃ coins, tx.Consumes history coins ∧
    (coins.map fun q => q.2.value.toNat).sum = worth tx.indexedOutputs

theorem Balances.mono (h : tx.Balances history) (hsub : history ⊆ more) : tx.Balances more :=
  let ⟨coins, hconsumes, hsum⟩ := h
  ⟨coins, hconsumes.mono hsub, hsum⟩

/-- A transaction that is worth something comes under an id that is new. -/
def IsNewIn (tx : Transaction) (history : List Transaction) : Prop :=
  0 < worth tx.indexedOutputs → ∀ t ∈ history, t.id ≠ tx.id

theorem IsNewIn.of_mem (h : tx.IsNewIn history) (hp : p ∈ tx.indexedOutputs)
    (hvalue : 0 < p.2.value.toNat) : ∀ t ∈ history, t.id ≠ tx.id := by
  refine h (Nat.pos_of_ne_zero fun hzero => ?_)
  have := worth_eq_zero_iff.mp hzero p hp
  omega

end Transaction

/-! ## Lists that keep account -/

/-- The lists have, under each id, what the transactions created and did not consume,
each output that has a value just once. -/
structure AccountsFor (f : Digest → List (UInt32 × Output)) (history : List Transaction) :
    Prop where
  created : ∀ id p, p ∈ f id → ∃ tx ∈ history, tx.Creates ⟨id, p.1⟩ p.2
  unspent : ∀ id p, p ∈ f id → 0 < p.2.value.toNat → ⟨id, p.1⟩ ∉ consumedBy history
  listed : ∀ tx ∈ history, ∀ p ∈ tx.indexedOutputs, 0 < p.2.value.toNat →
    ⟨tx.id, p.1⟩ ∉ consumedBy history → p ∈ f tx.id
  nodup : ∀ id, ((f id).filter fun p => 0 < p.2.value.toNat).Nodup
  /-- Nothing was consumed that no transaction created. -/
  sourced : ∀ o ∈ consumedBy history, ∃ tx ∈ history, tx.id = o.source

theorem accountsFor_empty : AccountsFor (fun _ => []) [] where
  created _ _ h := absurd h List.not_mem_nil
  unspent _ _ h := absurd h List.not_mem_nil
  listed _ h := absurd h List.not_mem_nil
  nodup _ := List.nodup_nil
  sourced _ h := absurd h List.not_mem_nil

namespace AccountsFor

variable {f g : Digest → List (UInt32 × Output)} {history history' : List Transaction}

/-- The order of the transactions does not matter. -/
theorem congr (h : AccountsFor f history) (hmem : ∀ tx, tx ∈ history ↔ tx ∈ history') :
    AccountsFor f history' := by
  have hconsumed : ∀ o, o ∈ consumedBy history ↔ o ∈ consumedBy history' := by
    intro o
    simp only [mem_consumedBy, hmem]
  constructor
  · intro id p hp
    obtain ⟨tx, htx, hcreates⟩ := h.created id p hp
    exact ⟨tx, (hmem tx).mp htx, hcreates⟩
  · intro id p hp hvalue
    rw [← hconsumed]
    exact h.unspent id p hp hvalue
  · intro tx htx p hp hvalue hunspent
    rw [← hconsumed] at hunspent
    exact h.listed tx ((hmem tx).mpr htx) p hp hvalue hunspent
  · exact h.nodup
  · intro o ho
    obtain ⟨tx, htx, hid⟩ := h.sourced o ((hconsumed o).mpr ho)
    exact ⟨tx, (hmem tx).mp htx, hid⟩

/-- What a list has that has a value, any other list that keeps account has. -/
theorem mem_of_mem (hf : AccountsFor f history) (hg : AccountsFor g history) {id : Digest}
    {p : UInt32 × Output} (hp : p ∈ f id) (hvalue : 0 < p.2.value.toNat) : p ∈ g id := by
  obtain ⟨tx, htx, hcreates⟩ := hf.created id p hp
  obtain rfl : tx.id = id := hcreates.1
  exact hg.listed tx htx p hcreates.mem_indexedOutputs hvalue (hf.unspent _ p hp hvalue)

/-- All lists that keep account are worth the same. -/
theorem worth_eq (hf : AccountsFor f history) (hg : AccountsFor g history) (id : Digest) :
    worth (f id) = worth (g id) := by
  rw [← worth_valued (f id), ← worth_valued (g id)]
  refine worth_perm ((List.perm_ext_iff_of_nodup (hf.nodup id) (hg.nodup id)).mpr fun p => ?_)
  rw [List.mem_filter, List.mem_filter, decide_eq_true_iff]
  exact ⟨fun hp => ⟨hf.mem_of_mem hg hp.1 hp.2, hp.2⟩, fun hp => ⟨hg.mem_of_mem hf hp.1 hp.2, hp.2⟩⟩

end AccountsFor

/-! ## One more transaction -/

namespace AccountsFor

open Index (outputs total)

variable {m m' : Index} {history : List Transaction} {tx : Transaction}
  {coins : List (Outpoint × Output)}

/-- With one transaction of each id, an outpoint names one output. -/
theorem eq_of_created (h : AccountsFor m.outputs history) (hone : OneOfEachId history)
    {o : Outpoint} {out : Output} (hcreated : ∃ source ∈ history, source.Creates o out)
    {p : UInt32 × Output} (hp : p ∈ m.outputs o.source) (hplace : p.1 = o.index) : p.2 = out := by
  obtain ⟨source, hsource, hcreates⟩ := hcreated
  obtain ⟨t, ht, hcreates'⟩ := h.created _ p hp
  obtain rfl := hone t ht source hsource (hcreates'.1.trans hcreates.1.symm)
  rw [hplace] at hcreates'
  exact hcreates'.unique hcreates

/-- What the index holds at an outpoint is worth the output that the outpoint names. -/
theorem worthAt_eq (h : AccountsFor m.outputs history) (hone : OneOfEachId history) {o : Outpoint}
    {out : Output} (hcreated : ∃ source ∈ history, source.Creates o out)
    (hholds : m.holds o = true) :
    m.worthAt o = out.value.toNat := by
  obtain ⟨p, hp, hplace⟩ := Index.holds_iff.mp hholds
  have hall : ∀ q, q ∈ (m.outputs o.source).filter (fun p => p.1 = o.index) ↔
      q = (o.index, out) := by
    intro q
    rw [List.mem_filter, decide_eq_true_iff]
    constructor
    · rintro ⟨hq, hqplace⟩
      exact Prod.ext hqplace (h.eq_of_created hone hcreated hq hqplace)
    · rintro rfl
      rw [← hplace, ← h.eq_of_created hone hcreated hp hplace]
      exact ⟨hp, rfl⟩
  rcases Nat.eq_zero_or_pos out.value.toNat with hzero | hpos
  · rw [hzero, Index.worthAt, worth_eq_zero_iff]
    intro q hq
    rw [(hall q).mp hq, hzero]
  -- an output that has a value is listed once
  · have hnodup : ((m.outputs o.source).filter fun p => p.1 = o.index).Nodup := by
      have hvalued := (h.nodup o.source).filter fun p => p.1 = o.index
      rw [List.filter_comm, List.filter_eq_self.mpr] at hvalued
      · exact hvalued
      · intro q hq
        rw [(hall q).mp hq]
        exact decide_eq_true hpos
    have hperm : ((m.outputs o.source).filter fun p => p.1 = o.index).Perm [(o.index, out)] := by
      refine (List.perm_ext_iff_of_nodup hnodup (List.nodup_singleton _)).mpr fun q => ?_
      rw [hall, List.mem_singleton]
    rw [Index.worthAt, worth_perm hperm]
    exact Nat.add_zero _

/-- A transaction that consumes something of worth was not there before: what it consumes
is not listed once it has come. -/
theorem isNew_of_held (h : AccountsFor m.outputs history) (hone : OneOfEachId (tx :: history))
    (hconsumes : tx.Consumes history coins) {q : Outpoint × Output} (hq : q ∈ coins)
    (hheld : m.holds q.1 = true) (hvalue : 0 < q.2.value.toNat) : ∀ t ∈ history, t.id ≠ tx.id := by
  intro t ht hid
  obtain rfl := hone t (List.mem_cons_of_mem _ ht) tx List.mem_cons_self hid
  obtain ⟨p, hp, hplace⟩ := Index.holds_iff.mp hheld
  have hout := h.eq_of_created (hone.mono (List.subset_cons_self _ _)) (hconsumes.created q hq)
    hp hplace
  refine h.unspent _ p hp (hout ▸ hvalue) (mem_consumedBy.mpr ⟨t, ht, ?_⟩)
  rw [hconsumes.consumed, hplace]
  exact List.mem_map_of_mem hq

/-- The inputs that an index follows take from the total what they consume. -/
theorem total_inputs (h : AccountsFor m.outputs history) (hone : OneOfEachId (tx :: history))
    (hconsumes : tx.Consumes history coins) (hm : m.follow (tx.spends.map .consume) = some m') :
    total m' + (coins.map fun q => q.2.value.toNat).sum = m.total ∧
      ∀ q ∈ coins, m.holds q.1 = true :=
  Index.total_follow_inputs hm hconsumes.names fun q hq =>
    h.worthAt_eq (hone.mono (List.subset_cons_self _ _)) (hconsumes.created q hq)

/-- A transaction that pays what it consumes, and that an index follows, is new. -/
theorem isNewIn_of_balances (h : AccountsFor m.outputs history) (hone : OneOfEachId (tx :: history))
    (hbalances : tx.Balances history) (hm : m.follow tx.events = some m') : tx.IsNewIn history := by
  intro hworth
  obtain ⟨coins, hconsumes, hsum⟩ := hbalances
  rw [← hsum, List.sum_pos_iff_exists_pos_nat] at hworth
  obtain ⟨v, hv, hvalue⟩ := hworth
  obtain ⟨q, hq, rfl⟩ := List.mem_map.mp hv
  obtain ⟨n, hspends, _⟩ := Index.follow_transaction.mp hm
  exact h.isNew_of_held hone hconsumes hq ((h.total_inputs hone hconsumes hspends).2 q hq) hvalue

/-- Nothing of worth stands under the id of the next transaction. -/
theorem worth_under_eq_zero (h : AccountsFor m.outputs history) (hone : OneOfEachId (tx :: history))
    (hnew : tx.IsNewIn history) : ∀ p ∈ m.outputs tx.id, p.2.value.toNat = 0 := by
  intro p hp
  obtain ⟨t, ht, hcreates⟩ := h.created _ p hp
  obtain rfl := hone t (List.mem_cons_of_mem _ ht) tx List.mem_cons_self hcreates.1
  by_contra hvalue
  exact hnew.of_mem hcreates.mem_indexedOutputs (Nat.pos_of_ne_zero hvalue) t ht rfl

/-- The total moves by what the transaction pays less what it consumes. -/
theorem total_transaction (h : AccountsFor m.outputs history) (hone : OneOfEachId (tx :: history))
    (hconsumes : tx.Consumes history coins) (hm : m.follow tx.events = some m')
    (hnew : tx.IsNewIn history) :
    total m' + (coins.map fun q => q.2.value.toNat).sum = total m + worth tx.indexedOutputs := by
  obtain ⟨n, hspends, rfl⟩ := Index.follow_transaction.mp hm
  have hspent := (h.total_inputs hone hconsumes hspends).1
  have hunder : worth (outputs n tx.id) = 0 := by
    rw [worth_eq_zero_iff]
    intro p hp
    rw [Index.outputs_follow_inputs hspends] at hp
    exact h.worth_under_eq_zero hone hnew p (List.mem_of_mem_filter hp)
  have hcreate := Index.total_create n tx
  omega

/-- An index that keeps account does so after one more transaction. -/
theorem transaction (h : AccountsFor m.outputs history) (hone : OneOfEachId (tx :: history))
    (hconsumes : tx.Consumes history coins) (hm : m.follow tx.events = some m')
    (hnew : tx.IsNewIn history) (hplaces : tx.outputs.length ≤ 2 ^ 32) :
    AccountsFor (outputs m') (tx :: history) := by
  have hself : outputs m' tx.id = tx.indexedOutputs := Index.outputs_follow_transaction_self hm
  have hother : ∀ id, id ≠ tx.id → outputs m' id =
      (m.outputs id).filter fun p => ⟨id, p.1⟩ ∉ tx.spends.filterMap Input.outpoint? :=
    fun id hid => Index.outputs_follow_transaction_of_ne hm hid
  have hconsumed : consumedBy (tx :: history) =
      tx.spends.filterMap Input.outpoint? ++ consumedBy history := rfl
  have hsourced : ∀ o ∈ consumedBy (tx :: history), ∃ t ∈ history, t.id = o.source := by
    intro o ho
    rcases List.mem_append.mp (hconsumed ▸ ho) with hown | hbefore
    · exact hconsumes.sourced hown
    · exact h.sourced o hbefore
  constructor
  · intro id p hp
    by_cases hid : id = tx.id
    · subst hid
      rw [hself] at hp
      exact ⟨tx, List.mem_cons_self, Transaction.creates_of_mem hplaces hp⟩
    · rw [hother id hid] at hp
      obtain ⟨t, ht, hcreates⟩ := h.created id p (List.mem_of_mem_filter hp)
      exact ⟨t, List.mem_cons_of_mem _ ht, hcreates⟩
  · intro id p hp hvalue
    by_cases hid : id = tx.id
    -- what is created under a new id has not been consumed
    · subst hid
      rw [hself] at hp
      intro hspent
      obtain ⟨t, ht, heq⟩ := hsourced _ hspent
      exact hnew.of_mem hp hvalue t ht heq
    · rw [hother id hid, List.mem_filter, decide_eq_true_iff] at hp
      rw [hconsumed, List.mem_append, not_or]
      exact ⟨hp.2, h.unspent id p hp.1 hvalue⟩
  · intro t ht p hp hvalue hunspent
    by_cases hid : t.id = tx.id
    · obtain rfl := hone t ht tx List.mem_cons_self hid
      rwa [hself]
    · rw [hconsumed, List.mem_append, not_or] at hunspent
      rw [hother _ hid, List.mem_filter, decide_eq_true_iff]
      have hold : t ∈ history := (List.mem_cons.mp ht).resolve_left fun heq => hid (heq ▸ rfl)
      exact ⟨h.listed t hold p hp hvalue hunspent.2, hunspent.1⟩
  · intro id
    by_cases hid : id = tx.id
    · subst hid
      rw [hself]
      exact (Transaction.nodup_indexedOutputs hplaces).filter _
    · rw [hother id hid, List.filter_comm]
      exact (h.nodup id).filter _
  · intro o ho
    obtain ⟨t, ht, hid⟩ := hsourced o ho
    exact ⟨t, List.mem_cons_of_mem _ ht, hid⟩

/-! ## One more block -/

variable {chain before payments : List Transaction}

/-- Payments that consume what they pay leave the total as it is. The induction is on
those still to come, with the ones that have come in front of the chain. -/
theorem follow_payments (h : AccountsFor m.outputs (before ++ chain))
    (hone : OneOfEachId (before ++ payments ++ chain))
    (hplaces : ∀ tx ∈ payments, tx.outputs.length ≤ 2 ^ 32)
    (hbalances : ∀ tx ∈ payments, tx.Balances chain)
    (hm : m.follow (payments.flatMap Transaction.events) = some m') :
    AccountsFor (outputs m') (before ++ payments ++ chain) ∧ total m' = total m ∧
      ∀ mid tx after, payments = mid ++ tx :: after → tx.IsNewIn (before ++ mid ++ chain) := by
  induction payments generalizing m before with
  | nil =>
      obtain rfl := Option.some.inj hm
      rw [List.append_nil]
      exact ⟨h, rfl, fun mid tx after heq => by simp at heq⟩
  | cons tx rest ih =>
      obtain ⟨n, hfirst, hrest⟩ := Index.follow_append.mp hm
      have hbalanced :=
        (hbalances tx List.mem_cons_self).mono (List.subset_append_right before chain)
      have hsub : tx :: (before ++ chain) ⊆ before ++ tx :: rest ++ chain := by
        intro t ht
        simp only [List.mem_cons, List.mem_append] at ht ⊢
        tauto
      have hhere := hone.mono hsub
      have hnew := h.isNewIn_of_balances hhere hbalanced hfirst
      obtain ⟨coins, hconsumes, hsum⟩ := hbalanced
      have hstep : AccountsFor (outputs n) (before ++ [tx] ++ chain) := by
        refine (h.transaction hhere hconsumes hfirst hnew (hplaces tx List.mem_cons_self)).congr ?_
        intro t
        simp only [List.mem_cons, List.mem_append, List.not_mem_nil, or_false]
        tauto
      have htotal := h.total_transaction hhere hconsumes hfirst hnew
      rw [List.append_cons] at hone
      obtain ⟨hafter, hsame, hothers⟩ := ih hstep hone
        (fun t ht => hplaces t (List.mem_cons_of_mem _ ht))
        (fun t ht => hbalances t (List.mem_cons_of_mem _ ht)) hrest
      rw [List.append_cons]
      refine ⟨hafter, by omega, ?_⟩
      rw [forall_split_cons, List.append_nil]
      refine ⟨hnew, fun mid t after heq => ?_⟩
      rw [List.append_cons]
      exact hothers mid t after heq

variable {b : Block} {bs : List Block} {first : Transaction}

open Block (chainTransactions)

/-- A block that pays one reward, and otherwise what its transactions consume. -/
theorem follow_block (h : AccountsFor m.outputs (chainTransactions bs))
    (hone : OneOfEachId (chainTransactions (b :: bs))) (htxs : b.transactions = first :: payments)
    (hfirst : first.spends = []) (hnew : first.IsNewIn (chainTransactions bs))
    (hplaces : ∀ tx ∈ b.transactions, tx.outputs.length ≤ 2 ^ 32)
    (hbalances : ∀ tx ∈ payments, tx.Balances (chainTransactions bs))
    (hm : m.follow b.events = some m') :
    AccountsFor (outputs m') (chainTransactions (b :: bs)) ∧
      total m' = total m + worth first.indexedOutputs ∧
      ∀ before tx after, b.transactions = before ++ tx :: after →
        tx.IsNewIn (before ++ chainTransactions bs) := by
  have hall : chainTransactions (b :: bs) = [first] ++ payments ++ chainTransactions bs := by
    rw [Block.chainTransactions_cons, htxs]
    rfl
  rw [Block.events, htxs, List.flatMap_cons] at hm
  obtain ⟨n, hreward, hpayments⟩ := Index.follow_append.mp hm
  have hconsumes : first.Consumes (chainTransactions bs) [] :=
    Transaction.consumes_nil hfirst
  rw [hall] at hone ⊢
  rw [htxs] at hplaces
  have hhere : OneOfEachId (first :: chainTransactions bs) := by
    refine hone.mono fun t ht => ?_
    simp only [List.mem_cons, List.mem_append] at ht ⊢
    tauto
  have hstep : AccountsFor (outputs n) ([first] ++ chainTransactions bs) :=
    h.transaction hhere hconsumes hreward hnew (hplaces first List.mem_cons_self)
  have htotal := h.total_transaction hhere hconsumes hreward hnew
  obtain ⟨hafter, hsame, hothers⟩ := follow_payments hstep hone
    (fun tx htx => hplaces tx (List.mem_cons_of_mem _ htx)) hbalances hpayments
  refine ⟨hafter, ?_, ?_⟩
  · rw [hsame, ← htotal]
    rfl
  · rw [htxs, forall_split_cons]
    exact ⟨hnew, hothers⟩

/-- Under each id the outputs of the block and those left over below are listed once, as
far as they have a value: a transaction that creates such an output is alone under its id. -/
theorem nodup_under (h : AccountsFor (fun id => Unspent.leftover id bs) (chainTransactions bs))
    (hone : OneOfEachId (chainTransactions (b :: bs)))
    (hplaces : ∀ tx ∈ b.transactions, tx.outputs.length ≤ 2 ^ 32)
    (hnew : ∀ before tx after, b.transactions = before ++ tx :: after →
      tx.IsNewIn (before ++ chainTransactions bs)) (id : Digest) :
    ((outputsUnder b.transactions id ++ Unspent.leftover id bs).filter
      fun p => 0 < p.2.value.toNat).Nodup := by
  by_cases hid : ∃ tx ∈ b.transactions, tx.id = id
  swap
  · rw [outputsUnder_eq_nil fun tx htx heq => hid ⟨tx, htx, heq⟩, List.nil_append]
    exact h.nodup id
  obtain ⟨before, tx, after, hsplit, rfl, hlast⟩ := exists_last_of_id hid
  have htx : tx ∈ b.transactions := by
    rw [hsplit]
    exact List.mem_append_right _ List.mem_cons_self
  rcases Nat.eq_zero_or_pos (worth tx.indexedOutputs) with hzero | hpos
  · rw [List.filter_eq_nil_iff.mpr]
    · exact List.nodup_nil
    intro p hp
    have hfrom : p ∈ tx.indexedOutputs := by
      rcases List.mem_append.mp hp with hp | hp
      · obtain ⟨t, ht, hid, hp⟩ := mem_outputsUnder.mp hp
        rwa [← hone t (List.mem_append_left _ ht) tx (List.mem_append_left _ htx) hid]
      · obtain ⟨t, ht, hcreates⟩ := h.created _ p hp
        rw [← hone t (List.mem_append_right _ ht) tx (List.mem_append_left _ htx) hcreates.1]
        exact hcreates.mem_indexedOutputs
    simp [worth_eq_zero_iff.mp hzero p hfrom]
  · have hnone := hnew before tx after hsplit hpos
    have hbelow : Unspent.leftover tx.id bs = [] := by
      rw [List.eq_nil_iff_forall_not_mem]
      intro p hp
      obtain ⟨t, ht, hcreates⟩ := h.created _ p hp
      exact hnone t (List.mem_append_right _ ht) hcreates.1
    rw [hsplit, outputsUnder_append, outputsUnder_cons_self, outputsUnder_eq_nil hlast, hbelow,
      outputsUnder_eq_nil fun t ht => hnone t (List.mem_append_left _ ht), List.nil_append,
      List.append_nil, List.append_nil]
    exact (Transaction.nodup_indexedOutputs (hplaces tx htx)).filter _

/-- What a rebuild gathers keeps account too, if the block consumes what the chain below
created and its transactions that are worth something are new. -/
theorem leftover_block (h : AccountsFor (fun id => Unspent.leftover id bs) (chainTransactions bs))
    (hone : OneOfEachId (chainTransactions (b :: bs)))
    (hplaces : ∀ tx ∈ b.transactions, tx.outputs.length ≤ 2 ^ 32)
    (hsourced : ∀ o ∈ consumedBy b.transactions, ∃ tx ∈ chainTransactions bs, tx.id = o.source)
    (hnew : ∀ before tx after, b.transactions = before ++ tx :: after →
      tx.IsNewIn (before ++ chainTransactions bs)) :
    AccountsFor (fun id => Unspent.leftover id (b :: bs)) (chainTransactions (b :: bs)) := by
  have hmem : ∀ id p, p ∈ Unspent.leftover id (b :: bs) ↔
      (p ∈ outputsUnder b.transactions id ∨ p ∈ Unspent.leftover id bs) ∧
        ⟨id, p.1⟩ ∉ consumedBy b.transactions := by
    intro id p
    rw [Unspent.leftover, List.mem_filter, List.mem_append, decide_eq_true_iff]
    rfl
  have hconsumed : consumedBy (chainTransactions (b :: bs)) =
      consumedBy b.transactions ++ consumedBy (chainTransactions bs) := consumedBy_append _ _
  constructor
  · intro id p hp
    rcases ((hmem id p).mp hp).1 with hp | hp
    · obtain ⟨tx, htx, rfl, hout⟩ := mem_outputsUnder.mp hp
      exact ⟨tx, List.mem_append_left _ htx, Transaction.creates_of_mem (hplaces tx htx) hout⟩
    · obtain ⟨tx, htx, hcreates⟩ := h.created id p hp
      exact ⟨tx, List.mem_append_right _ htx, hcreates⟩
  · intro id p hp hvalue
    obtain ⟨hfrom, hhere⟩ := (hmem id p).mp hp
    rw [hconsumed, List.mem_append, not_or]
    refine ⟨hhere, ?_⟩
    rcases hfrom with hfrom | hfrom
    · obtain ⟨tx, htx, rfl, hout⟩ := mem_outputsUnder.mp hfrom
      intro hbelow
      obtain ⟨before, after, hsplit⟩ := List.append_of_mem htx
      obtain ⟨t, ht, hid⟩ := h.sourced _ hbelow
      exact (hnew before tx after hsplit).of_mem hout hvalue t (List.mem_append_right _ ht) hid
    · exact h.unspent id p hfrom hvalue
  · intro tx htx p hp hvalue hunspent
    rw [hconsumed, List.mem_append, not_or] at hunspent
    rw [hmem]
    refine ⟨?_, hunspent.1⟩
    rcases List.mem_append.mp htx with hhere | hbelow
    · exact Or.inl (mem_outputsUnder.mpr ⟨tx, hhere, rfl, hp⟩)
    · exact Or.inr (h.listed tx hbelow p hp hvalue hunspent.2)
  · intro id
    show (List.filter _ (List.filter _ _)).Nodup
    rw [List.filter_comm]
    exact (h.nodup_under hone hplaces hnew id).filter _
  · intro o ho
    rcases List.mem_append.mp (hconsumed ▸ ho) with hhere | hbelow
    · obtain ⟨tx, htx, hid⟩ := hsourced o hhere
      exact ⟨tx, List.mem_append_right _ htx, hid⟩
    · obtain ⟨tx, htx, hid⟩ := h.sourced o hbelow
      exact ⟨tx, List.mem_append_right _ htx, hid⟩

end AccountsFor

end CoinLedger
