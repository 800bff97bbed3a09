import CoinLedger.Proofs.Halting
import CoinLedger.Proofs.Provenance

/-!
# Recovery of the index

What a rebuild makes of a store whose index is damaged in any way, with nothing known of
the other records but that the walk from the tip reaches a genesis block. The blocks may be
stored under any hash and at any height, ids may come twice, and inputs may name outputs
that do not exist.

`unspentOn` says without a replay which outputs a chain leaves unspent: those that no block
names, from the tip down to the one that creates them. The rebuild gathers the outpoints
that are consumed and the outputs that are not in one pass; `Unspent.leftover_eq` relates
the two. The main statement is `Unspent.rebuild_recovers`: the index holds these outputs
afterwards and nothing else, whatever was there before, and where the walk breaks off the
rebuild fails without a change.
-/

namespace CoinLedger

/-! ## Unspent outputs of a chain -/

/-- A payment of the block names the output at a place of the transactions with an id. -/
def Block.Names (b : Block) (id : Digest) (place : Nat) : Prop :=
  ∃ tx ∈ b.transactions, tx.isCoinbase = false ∧
    ∃ i ∈ tx.inputs, i.source = id ∧ i.index.toInt = place

instance (b : Block) (id : Digest) (place : Nat) : Decidable (b.Names id place) :=
  inferInstanceAs (Decidable (∃ tx ∈ b.transactions, _))

/-- Some block from the tip down to a depth names the output. -/
def NamedDownTo (bs : List Block) (depth : Nat) (id : Digest) (place : Nat) : Prop :=
  ∃ b ∈ bs.take (depth + 1), b.Names id place

instance (bs : List Block) (depth : Nat) (id : Digest) (place : Nat) :
    Decidable (NamedDownTo bs depth id place) :=
  inferInstanceAs (Decidable (∃ b ∈ bs.take (depth + 1), _))

/-- The outputs of the transactions with an id, each with its place in its transaction. -/
def placedOutputs (txs : List Transaction) (id : Digest) : List (Nat × Output) :=
  (txs.filter fun tx => tx.id = id).flatMap fun tx => tx.outputs.zipIdx.map Prod.swap

/-- The outputs of the transactions with an id on a chain, given from the tip, that are
named neither in their own block nor in one nearer the tip. -/
def unspentOn (bs : List Block) (id : Digest) : List (Nat × Output) :=
  bs.zipIdx.flatMap fun (b, depth) =>
    (placedOutputs b.transactions id).filter fun p => ¬ NamedDownTo bs depth id p.1

/-- What the tip's block leaves of its own outputs, and of what is unspent below it. -/
theorem unspentOn_cons (b : Block) (rest : List Block) (id : Digest) :
    unspentOn (b :: rest) id =
      (placedOutputs b.transactions id ++ unspentOn rest id).filter fun p => ¬ b.Names id p.1 := by
  rw [unspentOn, List.zipIdx_cons, List.flatMap_cons, List.filter_append, unspentOn]
  congr 1
  · refine List.filter_congr fun p _ => ?_
    rw [decide_eq_decide, NamedDownTo]
    simp
  · rw [Nat.zero_add, List.zipIdx_succ, List.flatMap_map, List.filter_flatMap]
    refine List.flatMap_congr fun q _ => ?_
    rw [List.filter_filter]
    refine List.filter_congr fun p _ => ?_
    rw [← Bool.decide_and, decide_eq_decide, NamedDownTo, NamedDownTo, List.take_succ_cons,
      List.exists_mem_cons_iff, not_or]

/-! ## Places as they are stored -/

theorem Input.outpoint?_eq_some_iff {i : Input} {o : Outpoint} :
    i.outpoint? = some o ↔ i.source = o.source ∧ i.index.toInt = o.index.toNat := by
  obtain ⟨source, place⟩ := o
  rw [outpoint?, Option.map_eq_some_iff]
  simp only [place?_eq_some_iff, Outpoint.mk.injEq]
  constructor
  · rintro ⟨place, hindex, rfl, rfl⟩
    exact ⟨rfl, hindex⟩
  · rintro ⟨rfl, hindex⟩
    exact ⟨place, hindex, rfl, rfl⟩

/-- A payment of the list claims the output at a place of the transactions with an id. -/
def ClaimedBy (txs : List Transaction) (id : Digest) (place : Nat) : Prop :=
  ∃ tx ∈ txs, tx.isCoinbase = false ∧ ∃ i ∈ tx.inputs, i.source = id ∧ i.index.toInt = place

instance (txs : List Transaction) (id : Digest) (place : Nat) :
    Decidable (ClaimedBy txs id place) :=
  inferInstanceAs (Decidable (∃ tx ∈ txs, _))

theorem mem_consumedBy_iff_claimedBy {txs : List Transaction} {o : Outpoint} :
    o ∈ consumedBy txs ↔ ClaimedBy txs o.source o.index.toNat := by
  rw [consumedBy, List.mem_flatMap, ClaimedBy]
  refine exists_congr fun tx => and_congr_right fun _ => ?_
  rw [List.mem_filterMap, Transaction.spends]
  simp only [Input.outpoint?_eq_some_iff]
  cases tx.isCoinbase <;> simp

/-- The transactions with an id have so few outputs that 32 bits tell their places apart. -/
def PlacesFit (bs : List Block) (id : Digest) : Prop :=
  ∀ b ∈ bs, ∀ tx ∈ b.transactions, tx.id = id → tx.outputs.length < 2 ^ 32

namespace Unspent

open Harvest (consumed)

variable {bs : List Block} {id : Digest} {p : Nat × Output}

theorem mem_consumed {b : Block} {o : Outpoint} :
    o ∈ consumed b ↔ b.Names o.source o.index.toNat :=
  mem_consumedBy_iff_claimedBy

theorem place_lt_of_mem_placedOutputs {txs : List Transaction} (h : p ∈ placedOutputs txs id) :
    ∃ tx ∈ txs, tx.id = id ∧ p.1 < tx.outputs.length := by
  obtain ⟨tx, htx, hp⟩ := List.mem_flatMap.mp h
  obtain ⟨htx, hid⟩ := List.mem_filter.mp htx
  obtain ⟨⟨o, place⟩, hmem, rfl⟩ := List.mem_map.mp hp
  exact ⟨tx, htx, by simpa using hid, (List.mem_zipIdx' hmem).1⟩

theorem place_lt_of_mem_unspentOn (hfit : PlacesFit bs id) (h : p ∈ unspentOn bs id) :
    p.1 < 2 ^ 32 := by
  obtain ⟨⟨b, depth⟩, hb, hp⟩ := List.mem_flatMap.mp h
  obtain ⟨tx, htx, hid, hlt⟩ := place_lt_of_mem_placedOutputs (List.mem_of_mem_filter hp)
  exact Nat.lt_trans hlt (hfit b (List.fst_mem_of_mem_zipIdx hb) tx htx hid)

theorem outputsUnder_eq (txs : List Transaction) (id : Digest) :
    outputsUnder txs id = (placedOutputs txs id).map fun p => (UInt32.ofNat p.1, p.2) := by
  rw [outputsUnder, placedOutputs, List.map_flatMap]
  refine List.flatMap_congr fun tx _ => ?_
  rw [Transaction.indexedOutputs, List.map_map]
  rfl

/-- The replay leaves what no block names on the way down. The induction goes down the
chain; each block takes what it names from its own outputs and from all below. -/
theorem leftover_eq (hfit : PlacesFit bs id) :
    leftover id bs = (unspentOn bs id).map fun p => (UInt32.ofNat p.1, p.2) := by
  induction bs with
  | nil => rfl
  | cons b rest ih =>
      have hrest : PlacesFit rest id := fun t ht => hfit t (List.mem_cons_of_mem _ ht)
      rw [leftover, outputsUnder_eq, ih hrest, ← List.map_append, List.filter_map, unspentOn_cons]
      refine congrArg (List.map _) (List.filter_congr fun p hp => ?_)
      have hlt : p.1 < 2 ^ 32 := by
        rcases List.mem_append.mp hp with hp | hp
        · obtain ⟨tx, htx, hid, hlt⟩ := place_lt_of_mem_placedOutputs hp
          exact Nat.lt_trans hlt (hfit b List.mem_cons_self tx htx hid)
        · exact place_lt_of_mem_unspentOn hrest hp
      show decide (_ ∉ consumed b) = _
      rw [decide_eq_decide, mem_consumed, UInt32.toNat_ofNat_of_lt' hlt]

/-- The entry under an id lists what is unspent of its transactions. -/
theorem map_toNat_leftover (hfit : PlacesFit bs id) :
    (leftover id bs).map (fun p => (p.1.toNat, p.2)) = unspentOn bs id := by
  rw [leftover_eq hfit, List.map_map]
  refine (List.map_congr_left fun p hp => ?_).trans (List.map_id _)
  show ((UInt32.ofNat p.1).toNat, p.2) = p
  rw [UInt32.toNat_ofNat_of_lt' (place_lt_of_mem_unspentOn hfit hp)]

/-! ## What a rebuild leaves -/

/-- The store after a rebuild, against the store before and the blocks of the chain: each
id with unspent outputs has its entry, which lists them, and nothing else is left under the
tag of the index. -/
structure Recovers (s : Store) (bs : List Block) (n : Nat) (t : Store) : Prop where
  other : ∀ key, ¬ Store.entryTag <+: key → t.get? key = s.get? key
  stray : ∀ key, Store.entryTag <+: key → (∀ id, Store.entryKey id ≠ key) → t.get? key = none
  absent : ∀ id, PlacesFit bs id → unspentOn bs id = [] → t.get? (Store.entryKey id) = none
  present : ∀ id, PlacesFit bs id → unspentOn bs id ≠ [] →
    ∃ e : Entry, t.get? (Store.entryKey id) = some (Record.encode e) ∧
      e.outputs.map (fun p => (p.1.toNat, p.2)) = unspentOn bs id
  count : n = t.entryCount

variable {s : Store} {entries : List (Digest × Entry)}

/-- The index has as many records as there are ids with a record. -/
theorem entryCount_eq_length {ids : List Digest} (hnodup : ids.Nodup)
    (hkeys : ∀ key, Store.entryTag.isPrefixOf key = true →
      ((s.get? key).isSome ↔ ∃ id ∈ ids, Store.entryKey id = key)) :
    s.entryCount = ids.length := by
  have hperm : ((s.toList.filter fun record => Store.entryTag.isPrefixOf record.1).map
      Prod.fst).Perm (ids.map Store.entryKey) := by
    refine (List.perm_ext_iff_of_nodup (Store.nodup_tagged s)
      (hnodup.map fun _ _ => Store.entryKey_injective.mp)).mpr fun key => ?_
    rw [List.mem_map, List.mem_map]
    constructor
    · rintro ⟨⟨key, value⟩, hrecord, rfl⟩
      obtain ⟨hget, htag⟩ := Store.mem_tagged.mp hrecord
      exact (hkeys key htag).mp (by rw [hget]; rfl)
    · rintro ⟨id, hid, rfl⟩
      have htag := Store.isPrefixOf_entryKey id
      obtain ⟨value, hget⟩ := Option.isSome_iff_exists.mp ((hkeys _ htag).mpr ⟨id, hid, rfl⟩)
      exact ⟨(_, value), Store.mem_tagged.mpr ⟨hget, htag⟩, rfl⟩
  rw [Store.entryCount, Store.entryRecords, List.length_map]
  simpa using hperm.length_eq

/-- The record of an id is its entry, after entries have been written in place of all. -/
theorem get?_putEntries_withoutEntries (hnodup : (entries.map Prod.fst).Nodup) (s : Store)
    (id : Digest) :
    (entries.foldl (fun s (id, e) => putEntry s id e) s.withoutEntries).get? (Store.entryKey id) =
      (entries.lookup id).map Record.encode := by
  rw [get?_putEntries_entryKey hnodup, Store.get?_withoutEntries, Store.isPrefixOf_entryKey]
  exact Option.or_none

/-- Nothing is left under the tag of the index that is not the key of an id. -/
theorem get?_putEntries_stray {key : Bytes} (htag : Store.entryTag.isPrefixOf key = true)
    (hne : ∀ id, Store.entryKey id ≠ key) (entries : List (Digest × Entry)) (s : Store) :
    (entries.foldl (fun s (id, e) => putEntry s id e) s.withoutEntries).get? key = none := by
  rw [get?_putEntries_of_ne hne, Store.get?_withoutEntries, htag]
  rfl

theorem entryCount_putEntries (hnodup : (entries.map Prod.fst).Nodup) (s : Store) :
    (entries.foldl (fun s (id, e) => putEntry s id e) s.withoutEntries).entryCount =
      entries.length := by
  rw [← List.length_map Prod.fst]
  refine entryCount_eq_length hnodup fun key htag => ⟨fun hsome => ?_, ?_⟩
  · by_cases hkey : ∃ id, Store.entryKey id = key
    · obtain ⟨id, rfl⟩ := hkey
      refine ⟨id, by_contra fun hnot => ?_, rfl⟩
      rw [get?_putEntries_withoutEntries hnodup, Harvest.lookup_of_notMem hnot] at hsome
      cases hsome
    · rw [get?_putEntries_stray htag fun id heq => hkey ⟨id, heq⟩] at hsome
      cases hsome
  · rintro ⟨id, hid, rfl⟩
    obtain ⟨⟨id, e⟩, hmem, rfl⟩ := List.mem_map.mp hid
    rw [get?_putEntries_withoutEntries hnodup, Harvest.lookup_of_mem hnodup hmem]
    rfl

theorem rebuild_of_blocks (hblocks : Chain.blocks s = .ok bs) :
    rebuild s = .ok ((Harvest.ofBlocks bs).entries.length,
      (Harvest.ofBlocks bs).entries.foldl (fun s (id, e) => putEntry s id e) s.withoutEntries) := by
  rw [rebuild, hblocks]
  rfl

theorem recovers_of_blocks (hblocks : Chain.blocks s = .ok bs) :
    ∃ n t, rebuild s = .ok (n, t) ∧ Recovers s bs n t := by
  obtain ⟨hnodup, hlookup⟩ := Harvest.lists_ofBlocks bs
  have hrebuild := rebuild_of_blocks hblocks
  refine ⟨_, _, hrebuild, fun key hkey => ?_, fun key hkey hne => ?_, fun id hfit hnil => ?_,
    fun id hfit hsome => ?_, (entryCount_putEntries hnodup s).symm⟩
  · exact get?_rebuild hrebuild (by rwa [← Bool.not_eq_true, List.isPrefixOf_iff_prefix])
  · exact get?_putEntries_stray (List.isPrefixOf_iff_prefix.mpr hkey) hne _ s
  · have hnone : leftover id bs = [] := by rw [leftover_eq hfit, hnil, List.map_nil]
    rw [get?_putEntries_withoutEntries hnodup, hlookup, hnone]
    rfl
  · have hsome : leftover id bs ≠ [] := fun hnil => hsome <| by
      rw [← map_toNat_leftover hfit, hnil, List.map_nil]
    refine ⟨⟨leftover id bs⟩, ?_, map_toNat_leftover hfit⟩
    rw [get?_putEntries_withoutEntries hnodup, hlookup, Entry.nonempty?, Entry.isEmpty,
      List.isEmpty_eq_false_iff.mpr hsome]
    rfl

/-- Whatever is stored under the tag of the index: if the walk from the tip reaches a
genesis block, the rebuild succeeds and recovers the index of the blocks on the way. If the
walk breaks off, the rebuild fails with the error of what cannot be read, and no ledger on
the store changes. -/
theorem rebuild_recovers (s : Store) :
    (∀ bs, Chain.ReachesGenesis s bs → ∃ n t, rebuild s = .ok (n, t) ∧ Recovers s bs n t) ∧
      ∀ e, Chain.BreaksOff s e → rebuild s = .error e ∧
        ∀ l : Ledger, l.store = s → l.reindex = (.error e, l) := by
  refine ⟨fun bs hreaches => recovers_of_blocks (Chain.blocks_of_reachesGenesis hreaches),
    fun e hbreaks => ?_⟩
  have hrebuild : rebuild s = .error e := by
    rw [rebuild, Chain.blocks_of_breaksOff hbreaks]
    rfl
  refine ⟨hrebuild, ?_⟩
  rintro l rfl
  rw [Ledger.reindex, hrebuild]

end Unspent

namespace Fork

/-- The longer branch up to its first block, and under the tag of the index a key that is
none of an id and a record that is no entry. -/
def damaged : Store :=
  (((Store.empty.withBlock root).withBlock longer).withTip longer.hash).insert Store.entryTag [1]
    |>.insert (Store.entryKey reward.id) [7]

/-- The same block without its parent. -/
def uprooted : Store := (Store.empty.withBlock longer).withTip longer.hash

end Fork

/-- The record of the reward, which is spent, goes, and so does the key that is none of an
id; what the payment gives to Bob is listed. Without the root there is no index. -/
theorem Unspent.rebuild_recovers_damaged :
    (∃ n t, rebuild Fork.damaged = .ok (n, t) ∧ n = t.entryCount ∧
      t.get? Store.entryTag = none ∧ t.get? (Store.entryKey Fork.reward.id) = none ∧
      ∃ e : Entry, t.get? (Store.entryKey Fork.payment.id) = some (Record.encode e) ∧
        e.outputs.map (fun p => (p.1.toNat, p.2)) = [(0, ⟨100, Fork.bob⟩)]) ∧
      rebuild Fork.uprooted = .error (.notFound (.block Fork.root.hash)) := by
  have hreaches : Chain.ReachesGenesis Fork.damaged [Fork.longer, Fork.root] :=
    Or.inr ⟨Fork.longer.hash, [(Fork.longer.hash, Fork.longer), (Fork.root.hash, Fork.root)],
      by decide +kernel, .parent (by decide +kernel) rfl (.genesis (by decide +kernel) rfl), rfl⟩
  have hbreaks : Chain.BreaksOff Fork.uprooted (.notFound (.block Fork.root.hash)) :=
    Or.inr ⟨Fork.longer.hash, [(Fork.longer.hash, Fork.longer)], by decide +kernel,
      .parent (by decide +kernel) rfl (.broken (by decide +kernel))⟩
  have hfit : ∀ id, PlacesFit [Fork.longer, Fork.root] id := by
    have hall : ∀ b ∈ [Fork.longer, Fork.root], ∀ tx ∈ b.transactions,
        tx.outputs.length < 2 ^ 32 := by decide
    exact fun id b hb tx htx _ => hall b hb tx htx
  have hspent : unspentOn [Fork.longer, Fork.root] Fork.reward.id = [] := by decide
  have hpaid : unspentOn [Fork.longer, Fork.root] Fork.payment.id = [(0, ⟨100, Fork.bob⟩)] := by
    decide
  obtain ⟨n, t, hrebuild, h⟩ := (rebuild_recovers Fork.damaged).1 _ hreaches
  obtain ⟨e, hget, he⟩ := h.present Fork.payment.id (hfit _) (by rw [hpaid]; simp)
  refine ⟨⟨n, t, hrebuild, h.count, ?_, h.absent _ (hfit _) hspent, e, hget, he.trans hpaid⟩,
    ((rebuild_recovers Fork.uprooted).2 _ hbreaks).1⟩
  refine h.stray _ List.prefix_rfl fun id heq => ?_
  have hlength := congrArg List.length heq
  rw [Store.length_entryKey] at hlength
  cases hlength

end CoinLedger
