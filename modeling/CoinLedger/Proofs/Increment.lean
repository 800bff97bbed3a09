import CoinLedger.Proofs.Acceptance
import CoinLedger.Proofs.CanonicalForm
import CoinLedger.Proofs.Recovery

/-!
# One block on the index of a chain

The index is kept by updates, one for each block on the tip, and can be rebuilt from the
whole chain at any time. The update goes forward through the block and rewrites entries;
the rebuild goes back from the tip and gathers what has not been consumed yet. On every
store whose chain can be read and whose index is the one that a rebuild leaves,
`Unspent.update_eq_rebuild` says that a block on the tip leads to the same bytes either
way, if the ids of its transactions are new, they all have outputs, and they pass the check
of what they spend.

`Unspent.rebuild_eq_ok_iff` says which store a rebuild leaves, so that the two are compared
key by key. `Index.faithful_of_freshOn` is the step where the ids matter:
no outpoint of a new transaction can be claimed before the transaction has gone by.
-/

namespace CoinLedger

open Store (entryKey entryTag)

/-! ## A block on the tip -/

namespace Chain

variable {s s' : Store} {b : Block} {bs : List Block}

/-- The block begins a chain where there is none, or its parent is the tip. -/
def ContinuedBy (s : Store) (b : Block) : Prop :=
  tip? s = if b.isGenesis then .ok none else .ok (some b.parent)

instance (s : Store) (b : Block) : Decidable (ContinuedBy s b) :=
  inferInstanceAs (Decidable (_ = _))

theorem fits_of_block {hash : Digest} (h : block s hash = .ok b) : b.Fits := by
  unfold block at h
  split at h
  · rename_i data _
    cases hdecode : Record.decode (α := Block) data with
    | error cause =>
        rw [decodeBlock, hdecode] at h
        cases h
    | ok t =>
        rw [decodeBlock, hdecode] at h
        obtain rfl := Except.ok.inj h
        exact (Record.covers_of_decode hdecode).1
  · cases h

theorem fits_of_blocks (h : blocks s = .ok bs) : ∀ t ∈ bs, t.Fits := by
  intro t ht
  rcases blocks_eq_ok_iff.mp h with ⟨_, rfl⟩ | ⟨tip, steps, _, hwalks, rfl⟩
  · cases ht
  · obtain ⟨p, hp, rfl⟩ := List.mem_map.mp ht
    exact fits_of_block (hwalks.block_of_mem p hp)

/-- A block that becomes the tip is new, and is stored with the tip and nothing else. -/
theorem addBlock_eq_true (h : addBlock s b = .ok (true, s')) :
    hasBlock s b.hash = false ∧ s' = (s.withBlock b).withTip b.hash := by
  cases hknown : hasBlock s b.hash with
  | true =>
      rw [addBlock_of_known hknown] at h
      cases h
  | false =>
      rw [addBlock_of_new hknown] at h
      cases hover : overtakesTip (s.withBlock b) b with
      | error e =>
          rw [hover] at h
          cases h
      | ok overtakes =>
          rw [hover] at h
          cases overtakes with
          | false => cases h
          | true => exact ⟨rfl, (Prod.mk.inj (Except.ok.inj h)).2.symm⟩

theorem block_withBlock_self (hb : b.Fits) :
    block ((s.withBlock b).withTip b.hash) b.hash = .ok b := by
  rw [block, Store.get?_withTip, if_neg (Store.tipKey_ne_blockKey b.hash), Store.get?_withBlock,
    if_pos rfl]
  exact decodeBlock_encode hb

theorem block_withBlock (hnew : hasBlock s b.hash = false) {name : Digest} {t : Block}
    (h : block s name = .ok t) : block ((s.withBlock b).withTip b.hash) name = .ok t := by
  have hne : Store.blockKey b.hash ≠ Store.blockKey name := by
    intro heq
    rw [Store.blockKey_injective.mp heq, hasBlock_of_block h] at hnew
    cases hnew
  rwa [block, Store.get?_withTip, if_neg (Store.tipKey_ne_blockKey name), Store.get?_withBlock,
    if_neg hne]

/-- A block that continues the chain and becomes the tip stands on top of the chain. -/
theorem blocks_addBlock (hblocks : blocks s = .ok bs) (hb : b.Fits) (hcont : ContinuedBy s b)
    (hadd : addBlock s b = .ok (true, s')) : blocks s' = .ok (b :: bs) := by
  obtain ⟨hnew, rfl⟩ := addBlock_eq_true hadd
  have htip : tip? ((s.withBlock b).withTip b.hash) = .ok (some b.hash) := by
    rw [tip?, Store.get?_withTip, if_pos rfl]
    simp only [Digest.ofBytes_bytes]
  have hself := block_withBlock_self (s := s) hb
  unfold ContinuedBy at hcont
  rw [blocks_eq_ok_iff] at hblocks ⊢
  cases hg : b.isGenesis with
  | true =>
      rw [hg, if_pos rfl] at hcont
      rcases hblocks with ⟨_, rfl⟩ | ⟨tip, _, hsome, _⟩
      · exact Or.inr ⟨b.hash, [(b.hash, b)], htip, .genesis hself hg, rfl⟩
      · cases hcont.symm.trans hsome
  | false =>
      rw [hg, if_neg Bool.false_ne_true] at hcont
      rcases hblocks with ⟨hnone, _⟩ | ⟨tip, steps, hsome, hwalks, rfl⟩
      · cases hcont.symm.trans hnone
      · obtain rfl := Option.some.inj (Except.ok.inj (hcont.symm.trans hsome))
        refine Or.inr ⟨b.hash, (b.hash, b) :: steps, htip, .parent hself hg ?_, rfl⟩
        exact hwalks.mono fun _ _ => block_withBlock hnew

end Chain

/-! ## What a rebuild leaves -/

namespace Unspent

variable {s t : Store} {b : Block} {bs : List Block} {n : Nat}

theorem exists_rebuild (hblocks : Chain.blocks s = .ok bs) :
    ∃ n t, rebuild s = .ok (n, t) ∧ t.IndexedAs (Index.ofChain bs) := by
  obtain ⟨hnodup, hlookup⟩ := Harvest.lists_ofBlocks bs
  refine ⟨_, _, rebuild_of_blocks hblocks, fun id => ?_, fun key htag hne => ?_⟩
  · rw [get?_putEntries_withoutEntries hnodup, hlookup, Index.ofChain]
  · exact get?_putEntries_stray htag hne _ s

/-- The index of the chain and the other records, which stay, are all that there is after a
rebuild. -/
theorem rebuild_eq_ok_iff (hblocks : Chain.blocks s = .ok bs) :
    (∃ n, rebuild s = .ok (n, t)) ↔
      t.IndexedAs (Index.ofChain bs) ∧
        ∀ key, entryTag.isPrefixOf key = false → t.get? key = s.get? key := by
  obtain ⟨n, final, hrebuild, hfinal⟩ := exists_rebuild hblocks
  constructor
  · rintro ⟨m, hm⟩
    obtain ⟨_, rfl⟩ := Prod.mk.inj (Except.ok.inj (hrebuild.symm.trans hm))
    exact ⟨hfinal, fun key hkey => get?_rebuild hm hkey⟩
  · rintro ⟨hindexed, hother⟩
    have hstore : final = t := by
      refine Store.ext_get? fun key => ?_
      cases htag : entryTag.isPrefixOf key with
      | false => rw [get?_rebuild hrebuild htag, hother key htag]
      | true =>
          by_cases hkey : ∃ id, entryKey id = key
          · obtain ⟨id, rfl⟩ := hkey
            rw [hfinal.entry, hindexed.entry]
          · have hne : ∀ id, entryKey id ≠ key := fun id heq => hkey ⟨id, heq⟩
            rw [hfinal.stray key htag hne, hindexed.stray key htag hne]
    exact ⟨n, hstore ▸ hrebuild⟩

theorem reads_ofChain (h : s.IndexedAs (Index.ofChain bs)) (hfits : ∀ t ∈ bs, t.Fits)
    (hlengths : ∀ id, (leftover id bs).length < 2 ^ 64) : Reads s (Index.ofChain bs) := by
  have hentries : ∀ id e, Index.ofChain bs id = some e → e.Fits := by
    intro id e he
    exact Entry.eq_of_nonempty? he ▸ fits_leftover hfits (hlengths id)
  exact ⟨fun id => entry?_of_get? (h.entry id) (hentries id), hentries⟩

/-- Storing a block and moving the tip leaves the index alone. -/
theorem indexedAs_withBlock {m : Index} (h : s.IndexedAs m) (b : Block) (tip : Digest) :
    ((s.withBlock b).withTip tip).IndexedAs m := by
  have hget : ∀ key, entryTag.isPrefixOf key = true →
      ((s.withBlock b).withTip tip).get? key = s.get? key := by
    intro key htag
    rw [Store.get?_withTip, if_neg, Store.get?_withBlock, if_neg]
    · rintro rfl
      rw [Store.isPrefixOf_blockKey] at htag
      cases htag
    · rintro rfl
      cases htag
  exact ⟨fun id => (hget _ (Store.isPrefixOf_entryKey id)).trans (h.entry id),
    fun key htag hne => (hget key htag).trans (h.stray key htag hne)⟩

/-- The store as a rebuild leaves it. -/
def rebuilt (s : Store) : Store :=
  match rebuild s with
  | .ok (_, t) => t
  | .error _ => s

theorem rebuilt_eq (h : rebuild s = .ok (n, t)) : rebuilt s = t := by
  rw [rebuilt, h]

/-- The chain that a rebuild has read is still there. -/
theorem blocks_rebuild (hblocks : Chain.blocks s = .ok bs) (h : rebuild s = .ok (n, t)) :
    Chain.blocks t = .ok bs := by
  have hblock : ∀ name, t.get? (Store.blockKey name) = s.get? (Store.blockKey name) := fun name =>
    get?_rebuild h (Store.isPrefixOf_blockKey name)
  rw [Chain.blocks_eq_ok_iff] at hblocks ⊢
  refine hblocks.mono ?_ fun name b hb => ?_
  · rw [Chain.tip?, get?_rebuild h (by decide), Chain.tip?]
  · rwa [Chain.block, hblock]

/-- A second rebuild changes nothing. -/
theorem rebuild_idempotent (h : rebuild s = .ok (n, t)) : ∃ n', rebuild t = .ok (n', t) := by
  cases hblocks : Chain.blocks s with
  | error e =>
      rw [rebuild, hblocks] at h
      cases h
  | ok bs =>
      have hindexed := ((rebuild_eq_ok_iff hblocks).mp ⟨n, h⟩).1
      exact (rebuild_eq_ok_iff (blocks_rebuild hblocks h)).mpr ⟨hindexed, fun _ _ => rfl⟩

end Unspent

/-! ## Blocks with new transactions -/

/-- The transactions of the block have ids of their own, which the chain does not have, and
all create something. -/
structure Block.FreshOn (bs : List Block) (b : Block) : Prop where
  ids_nodup : (b.transactions.map Transaction.id).Nodup
  ids_new : ∀ tx ∈ b.transactions, ∀ t ∈ Block.chainTransactions bs, t.id ≠ tx.id
  outputs_ne_nil : ∀ tx ∈ b.transactions, tx.outputs ≠ []

namespace Index

variable {s : Store} {b : Block} {bs : List Block} {id : Digest}

/-- A chain leaves nothing over under an id that it does not have. -/
theorem leftover_eq_nil (hnew : ∀ t ∈ Block.chainTransactions bs, t.id ≠ id) :
    Unspent.leftover id bs = [] := by
  refine List.eq_nil_iff_forall_not_mem.mpr fun p hp => ?_
  obtain ⟨b, hb, tx, htx, hid, _⟩ := Unspent.mem_leftover hp
  exact hnew tx (List.mem_flatMap.mpr ⟨b, hb, htx⟩) hid

theorem holds_ofChain_eq_false {o : Outpoint}
    (hnew : ∀ t ∈ Block.chainTransactions bs, t.id ≠ o.source) :
    Index.holds (ofChain bs) o = false := by
  rw [holds, ofChain, leftover_eq_nil hnew]
  rfl

/-- Where the check of spending passes, a transaction claims no output of one that comes
with it or behind it, if no other one has that id. -/
theorem notMem_outpoints_of_checkSpendable (h : Unspent.Reads s (ofChain bs))
    (hfresh : b.FreshOn bs) (hcheck : Ledger.checkSpendable s b.transactions = .ok ())
    {before rest : List Transaction} {u tx : Transaction} {o : Outpoint}
    (hsplit : b.transactions = before ++ u :: rest) (htx : tx ∈ b.transactions)
    (hid : o.source = tx.id) (hbefore : ∀ v ∈ before, v.id ≠ tx.id) :
    o ∉ u.spends.filterMap Input.outpoint? := by
  intro hmem
  obtain ⟨i, hi, ho⟩ := List.mem_filterMap.mp hmem
  obtain ⟨o', ho', havailable⟩ :=
    ((Ledger.checkSpendable_eq_ok_iff h).mp hcheck).1 before u rest hsplit i hi
  obtain rfl := Option.some.inj (ho.symm.trans ho')
  have hsame : ∀ v ∈ before, ∀ w ∈ before, v.id = w.id → v.outputs = w.outputs := by
    intro v hv w hw hvw
    have hof : ∀ x ∈ before, x ∈ b.transactions := fun x hx => by simp [hsplit, hx]
    rw [List.inj_on_of_nodup_map hfresh.ids_nodup (hof v hv) (hof w hw) hvw]
  rcases (Ledger.Spending.available_after_iff hsame).mp havailable with
    ⟨v, hv, hvid, _⟩ | ⟨_, hheld⟩
  · exact hbefore v hv (hvid.trans hid)
  · rw [holds_ofChain_eq_false (hid ▸ hfresh.ids_new tx htx)] at hheld
    cases hheld

/-- Such a block makes no difference between updating and rebuilding. -/
theorem faithful_of_freshOn (h : Unspent.Reads s (ofChain bs)) (hfresh : b.FreshOn bs)
    (hcheck : Ledger.checkSpendable s b.transactions = .ok ()) : (ofChain bs).Faithful b := by
  intro before tx after hsplit _
  have htx : tx ∈ b.transactions := by simp [hsplit]
  have hbefore : ∀ v ∈ before, v.id ≠ tx.id := by
    intro v hv heq
    have hnodup := hfresh.ids_nodup
    rw [hsplit, List.map_append, List.map_cons, List.nodup_middle, List.nodup_cons] at hnodup
    refine hnodup.1 (List.mem_append_left _ ?_)
    exact heq ▸ List.mem_map_of_mem hv
  refine ⟨hfresh.outputs_ne_nil tx htx, fun p _ hconsumed => ?_, fun p hp => ?_⟩
  · rw [List.append_cons, consumedBy_append, consumedBy_append] at hconsumed
    rcases List.mem_append.mp hconsumed with hearly | hlate
    · exfalso
      rcases List.mem_append.mp hearly with hmem | hmem
      · obtain ⟨u, hu, hclaimed⟩ := List.mem_flatMap.mp hmem
        obtain ⟨front, back, rfl⟩ := List.append_of_mem hu
        have hfront : b.transactions = front ++ u :: (back ++ tx :: after) := by simpa using hsplit
        exact notMem_outpoints_of_checkSpendable h hfresh hcheck hfront htx rfl
          (fun v hv => hbefore v (List.mem_append_left _ hv)) hclaimed
      · have hself : ⟨tx.id, p.1⟩ ∈ tx.spends.filterMap Input.outpoint? := by
          simpa [consumedBy] using hmem
        exact notMem_outpoints_of_checkSpendable h hfresh hcheck hsplit htx rfl hbefore hself
    · exact hlate
  -- nothing stood under the id, in the block or in the index
  · rw [outputsUnder_eq_nil hbefore, outputs_ofChain, leftover_eq_nil (hfresh.ids_new tx htx)] at hp
    cases hp

end Index

/-! ## The update and the rebuild -/

namespace Unspent

variable {s s' : Store} {b : Block} {bs : List Block} {n : Nat}

/-- On the index of a chain, as a rebuild leaves it, the update with a block on the tip
succeeds and leaves what a rebuild of the longer chain leaves. -/
theorem update_eq_rebuild (hblocks : Chain.blocks s = .ok bs) (hindex : rebuild s = .ok (n, s))
    (hcount : Block.chainOutputCount bs < 2 ^ 64) (hb : b.Fits) (hcont : Chain.ContinuedBy s b)
    (hadd : Chain.addBlock s b = .ok (true, s')) (hfresh : b.FreshOn bs)
    (hcheck : Ledger.checkSpendable s b.transactions = .ok ()) :
    Chain.blocks s' = .ok (b :: bs) ∧
      ∃ t n', update s' b = .ok t ∧ rebuild s' = .ok (n', t) := by
  have hblocks' := Chain.blocks_addBlock hblocks hb hcont hadd
  obtain ⟨_, rfl⟩ := Chain.addBlock_eq_true hadd
  have hfits := Chain.fits_of_blocks hblocks
  have hindexed := ((rebuild_eq_ok_iff hblocks).mp ⟨n, hindex⟩).1
  have hindexed' := indexedAs_withBlock hindexed b b.hash
  have hlengths : ∀ id, (leftover id bs).length < 2 ^ 64 := fun id =>
    Nat.lt_of_le_of_lt (length_leftover_le id bs) hcount
  have hreads := reads_ofChain hindexed hfits hlengths
  obtain ⟨m, hm⟩ : ∃ m, (Index.ofChain bs).follow b.events = some m := by
    rcases Ledger.checkSpendable_follows hreads b.transactions with ⟨id, hrefused⟩ | ⟨_, hfollows⟩
    · rw [hcheck] at hrefused
      cases hrefused
    · exact hfollows
  obtain ⟨t, ht, hrewrites⟩ := update_rewrites (reads_ofChain hindexed' hfits hlengths)
    (fun tx htx => Entry.fits_ofTransaction (hb.transactions tx htx)) hm
  obtain rfl : m = Index.ofChain (b :: bs) :=
    (Index.follow_eq_ofChain_iff hm).mpr (Index.faithful_of_freshOn hreads hfresh hcheck)
  have hrebuilt : ∃ n', rebuild ((s.withBlock b).withTip b.hash) = .ok (n', t) := by
    rw [rebuild_eq_ok_iff hblocks']
    refine ⟨⟨hrewrites.get?_entryKey hindexed'.entry, fun key htag hne => ?_⟩, fun key htag => ?_⟩
    · rw [hrewrites.other key fun id heq => hne id heq.symm, hindexed'.stray key htag hne]
    · refine hrewrites.other key fun id heq => ?_
      rw [heq, Store.isPrefixOf_entryKey] at htag
      cases htag
  obtain ⟨n', hn'⟩ := hrebuilt
  exact ⟨hblocks', t, n', ht, hn'⟩

end Unspent

namespace Fork

/-- The root alone, with the index that a rebuild leaves. -/
def indexed : Store := Unspent.rebuilt ((Store.empty.withBlock root).withTip root.hash)

theorem indexed_blocks : Chain.blocks indexed = .ok [root] ∧
    ∃ n, Unspent.rebuild indexed = .ok (n, indexed) := by
  have hblocks : Chain.blocks ((Store.empty.withBlock root).withTip root.hash) = .ok [root] := by
    decide +kernel
  obtain ⟨n, t, hrebuild, _⟩ := Unspent.recovers_of_blocks hblocks
  rw [indexed, Unspent.rebuilt_eq hrebuild]
  exact ⟨Unspent.blocks_rebuild hblocks hrebuild, Unspent.rebuild_idempotent hrebuild⟩

theorem freshOn_longer : longer.FreshOn [root] where
  ids_nodup := by decide +kernel
  ids_new := by decide +kernel
  outputs_ne_nil := by decide +kernel

end Fork

/-- The payment of the reward on top of the root. -/
theorem Unspent.update_eq_rebuild_longer : ∃ n s',
    rebuild Fork.indexed = .ok (n, Fork.indexed) ∧
      Chain.addBlock Fork.indexed Fork.longer = .ok (true, s') ∧
      Chain.blocks s' = .ok [Fork.longer, Fork.root] ∧
      ∃ t n', update s' Fork.longer = .ok t ∧ rebuild s' = .ok (n', t) := by
  obtain ⟨hblocks, n, hrebuild⟩ := Fork.indexed_blocks
  have hover : Chain.hasBlock Fork.indexed Fork.longer.hash = false ∧
      Chain.overtakesTip (Fork.indexed.withBlock Fork.longer) Fork.longer = .ok true := by
    decide +kernel
  have hadd : Chain.addBlock Fork.indexed Fork.longer =
      .ok (true, (Fork.indexed.withBlock Fork.longer).withTip Fork.longer.hash) := by
    rw [Chain.addBlock_of_new hover.1, hover.2]
    rfl
  have hcont : Chain.ContinuedBy Fork.indexed Fork.longer := by decide +kernel
  have hcheck : Ledger.checkSpendable Fork.indexed Fork.longer.transactions = .ok () := by
    decide +kernel
  exact ⟨n, _, hrebuild, hadd, update_eq_rebuild hblocks hrebuild (by decide) (by decide) hcont
    hadd Fork.freshOn_longer hcheck⟩

end CoinLedger
