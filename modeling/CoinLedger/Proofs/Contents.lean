import CoinLedger.Chain
import CoinLedger.Proofs.RoundTrip
import CoinLedger.Unspent.Index
import Mathlib.Logic.Function.Basic

/-!
# What a sound store holds

`Contents` is a store read through its records: blocks by hash, the tip, and the
index. `Store.Holds` says that a store has exactly the records of some contents,
byte for byte, and nothing else: no marker of a halt and no stray key. Two stores
that hold the same contents are equal.

An operation on a store that holds some contents is described by what it does to
the contents: lookups answer from them, writes lead to a store that holds the
contents written to. Later modules argue about contents and hardly about keys.
-/

namespace CoinLedger

/-- The index of unspent outputs as a map from transaction ids. -/
abbrev Index := Digest → Option Entry

structure Contents where
  blocks : Digest → Option Block
  tip : Option Digest
  index : Index

namespace Contents

def empty : Contents := ⟨fun _ => none, none, fun _ => none⟩

def withBlock (c : Contents) (b : Block) : Contents :=
  { c with blocks := Function.update c.blocks b.hash (some b) }

def withTip (c : Contents) (hash : Digest) : Contents := { c with tip := some hash }

def withIndex (c : Contents) (m : Index) : Contents := { c with index := m }

@[simp]
theorem blocks_withBlock_self (c : Contents) (b : Block) :
    (c.withBlock b).blocks b.hash = some b := by
  simp [withBlock]

theorem blocks_withBlock_of_ne (c : Contents) {b : Block} {hash : Digest} (h : hash ≠ b.hash) :
    (c.withBlock b).blocks hash = c.blocks hash := by
  simp [withBlock, Function.update_of_ne h]

/-- What is read after a block is stored is that block, or was there before. -/
theorem blocks_withBlock_cases {c : Contents} {b t : Block} {hash : Digest}
    (h : (c.withBlock b).blocks hash = some t) :
    (hash = b.hash ∧ t = b) ∨ c.blocks hash = some t := by
  by_cases heq : hash = b.hash
  · subst heq
    exact Or.inl ⟨rfl, by simpa using h.symm⟩
  · exact Or.inr (by rwa [blocks_withBlock_of_ne c heq] at h)

/-- The tip names a stored block. -/
def HasTip (c : Contents) : Prop := ∀ hash, c.tip = some hash → ∃ t, c.blocks hash = some t

/-- A block takes the place of the tip: there is none, or it is lower. -/
def OvertakenBy (c : Contents) (b : Block) : Prop :=
  ∀ hash t, c.tip = some hash → c.blocks hash = some t → t.height < b.height

end Contents

namespace Store

/-! ## The keys of records -/

theorem length_blockKey (hash : Digest) : (blockKey hash).length = 33 := by
  simp [blockKey, blockTag, hash.length_eq]

theorem length_entryKey (id : Digest) : (entryKey id).length = 37 := by
  simp [entryKey, entryTag, id.length_eq]

theorem blockKey_injective {a b : Digest} : blockKey a = blockKey b ↔ a = b := by
  constructor
  · intro h
    exact Digest.ext (List.append_cancel_left h)
  · rintro rfl
    rfl

theorem entryKey_injective {a b : Digest} : entryKey a = entryKey b ↔ a = b := by
  constructor
  · intro h
    exact Digest.ext (List.append_cancel_left h)
  · rintro rfl
    rfl

theorem ne_blockKey_of_length {key : Bytes} (h : key.length ≠ 33) (hash : Digest) :
    key ≠ blockKey hash := by
  rintro rfl
  exact h (length_blockKey hash)

theorem ne_entryKey_of_length {key : Bytes} (h : key.length ≠ 37) (id : Digest) :
    key ≠ entryKey id := by
  rintro rfl
  exact h (length_entryKey id)

theorem blockKey_ne_entryKey (hash id : Digest) : blockKey hash ≠ entryKey id := by
  apply ne_entryKey_of_length
  rw [length_blockKey]
  decide

theorem tipKey_ne_blockKey (hash : Digest) : tipKey ≠ blockKey hash :=
  ne_blockKey_of_length (by decide) hash

theorem tipKey_ne_entryKey (id : Digest) : tipKey ≠ entryKey id :=
  ne_entryKey_of_length (by decide) id

theorem haltKey_ne_blockKey (hash : Digest) : haltKey ≠ blockKey hash :=
  ne_blockKey_of_length (by decide) hash

theorem haltKey_ne_entryKey (id : Digest) : haltKey ≠ entryKey id :=
  ne_entryKey_of_length (by decide) id

/-! ## Records written and read -/

theorem get?_insert (s : Store) (key other value : Bytes) :
    Store.get? (s.insert key value) other = if key = other then some value else s.get? other := by
  simp only [get?, Std.ExtTreeMap.getElem?_insert, Std.LawfulEqCmp.compare_eq_iff_eq]

theorem get?_erase (s : Store) (key other : Bytes) :
    Store.get? (s.erase key) other = if key = other then none else s.get? other := by
  simp only [get?, Std.ExtTreeMap.getElem?_erase, Std.LawfulEqCmp.compare_eq_iff_eq]

theorem get?_withoutEntries (s : Store) (key : Bytes) :
    s.withoutEntries.get? key = if entryTag.isPrefixOf key then none else s.get? key := by
  simp only [get?, withoutEntries, Std.ExtTreeMap.getElem?_filter']
  cases h : entryTag.isPrefixOf key <;> cases s[key]? <;> simp

theorem ext_get? {s t : Store} (h : ∀ key, s.get? key = t.get? key) : s = t :=
  Std.ExtTreeMap.ext_getElem? h

theorem isPrefixOf_entryKey (id : Digest) : entryTag.isPrefixOf (entryKey id) = true := by
  simp [entryKey, List.isPrefixOf_iff_prefix]

theorem isPrefixOf_blockKey (hash : Digest) : entryTag.isPrefixOf (blockKey hash) = false := by
  simp [blockKey, blockTag, entryTag, List.isPrefixOf]

/-! ## Records of the index -/

theorem mem_tagged {s : Store} {key value : Bytes} :
    (key, value) ∈ s.toList.filter (fun record => entryTag.isPrefixOf record.1) ↔
      s.get? key = some value ∧ entryTag.isPrefixOf key = true := by
  rw [List.mem_filter, Std.ExtTreeMap.mem_toList_iff_getElem?_eq_some]
  rfl

theorem nodup_tagged (s : Store) :
    ((s.toList.filter fun record => entryTag.isPrefixOf record.1).map Prod.fst).Nodup := by
  have hall : (s.toList.map Prod.fst).Nodup := by
    rw [Std.ExtTreeMap.map_fst_toList_eq_keys]
    exact Std.ExtTreeMap.nodup_keys
  exact hall.sublist (List.filter_sublist.map Prod.fst)

/-! ## Holding contents -/

/-- The store has the records of the contents and no others. -/
structure Holds (s : Store) (c : Contents) : Prop where
  block : ∀ hash, s.get? (blockKey hash) = (c.blocks hash).map Record.encode
  tip : s.get? tipKey = c.tip.map Digest.bytes
  entry : ∀ id, s.get? (entryKey id) = (c.index id).map Record.encode
  other : ∀ key, (∀ hash, key ≠ blockKey hash) → key ≠ tipKey → (∀ id, key ≠ entryKey id) →
    s.get? key = none
  blocks_fit : ∀ hash b, c.blocks hash = some b → b.Fits
  entries_fit : ∀ id e, c.index id = some e → e.Fits

/-- Under the tag of the index the store has the entries of an index, as they are encoded,
and nothing else. -/
structure IndexedAs (s : Store) (m : Index) : Prop where
  entry : ∀ id, s.get? (entryKey id) = (m id).map Record.encode
  stray : ∀ key, entryTag.isPrefixOf key = true → (∀ id, entryKey id ≠ key) → s.get? key = none

theorem Holds.indexedAs {s : Store} {c : Contents} (h : s.Holds c) : s.IndexedAs c.index where
  entry := h.entry
  stray key htag hne := by
    refine h.other key ?_ ?_ fun id heq => hne id heq.symm
    · rintro hash rfl
      rw [isPrefixOf_blockKey] at htag
      cases htag
    · rintro rfl
      exact absurd htag (by decide)

theorem holds_empty : empty.Holds Contents.empty where
  block _ := by simp [get?, empty, Contents.empty]
  tip := by simp [get?, empty, Contents.empty]
  entry _ := by simp [get?, empty, Contents.empty]
  other _ _ _ _ := by simp [get?, empty]
  blocks_fit _ _ h := by cases h
  entries_fit _ _ h := by cases h

/-- Contents determine the store that holds them. -/
theorem Holds.store_eq {s t : Store} {c : Contents} (hs : s.Holds c) (ht : t.Holds c) : s = t := by
  refine ext_get? fun key => ?_
  by_cases hblock : ∃ hash, key = blockKey hash
  · obtain ⟨hash, rfl⟩ := hblock
    rw [hs.block, ht.block]
  by_cases hentry : ∃ id, key = entryKey id
  · obtain ⟨id, rfl⟩ := hentry
    rw [hs.entry, ht.entry]
  by_cases htip : key = tipKey
  · rw [htip, hs.tip, ht.tip]
  · have hnb : ∀ hash, key ≠ blockKey hash := fun hash h => hblock ⟨hash, h⟩
    have hne : ∀ id, key ≠ entryKey id := fun id h => hentry ⟨id, h⟩
    rw [hs.other key hnb htip hne, ht.other key hnb htip hne]

/-! ## Writing -/

/-- The store with a block put under its hash. -/
def withBlock (s : Store) (b : Block) : Store := s.insert (blockKey b.hash) (Record.encode b)

/-- The store with a hash put into the tip record. -/
def withTip (s : Store) (hash : Digest) : Store := s.insert tipKey hash.bytes

theorem get?_withBlock (s : Store) (b : Block) (key : Bytes) : (s.withBlock b).get? key =
    if blockKey b.hash = key then some (Record.encode b) else s.get? key :=
  get?_insert s _ key _

theorem get?_withTip (s : Store) (hash : Digest) (key : Bytes) :
    (s.withTip hash).get? key = if tipKey = key then some hash.bytes else s.get? key :=
  get?_insert s _ key _

theorem Holds.withBlock {s : Store} {c : Contents} (h : s.Holds c) {b : Block} (hb : b.Fits) :
    (s.withBlock b).Holds (c.withBlock b) where
  block hash := by
    rw [get?_withBlock]
    by_cases heq : b.hash = hash
    · simp [← heq]
    · rw [if_neg (mt blockKey_injective.mp heq), h.block,
        Contents.blocks_withBlock_of_ne c (Ne.symm heq)]
  tip := by
    rw [get?_withBlock, if_neg (tipKey_ne_blockKey _).symm]
    exact h.tip
  entry id := by
    rw [get?_withBlock, if_neg (blockKey_ne_entryKey _ _)]
    exact h.entry id
  other key hblock htip hentry := by
    rw [get?_withBlock, if_neg (hblock b.hash).symm]
    exact h.other key hblock htip hentry
  blocks_fit hash t ht := by
    rcases Contents.blocks_withBlock_cases ht with ⟨_, rfl⟩ | ht
    · exact hb
    · exact h.blocks_fit hash t ht
  entries_fit := h.entries_fit

theorem Holds.withTip {s : Store} {c : Contents} (h : s.Holds c) (hash : Digest) :
    (s.withTip hash).Holds (c.withTip hash) where
  block other := by
    rw [get?_withTip, if_neg (tipKey_ne_blockKey _)]
    exact h.block other
  tip := by simp [get?_withTip, Contents.withTip]
  entry id := by
    rw [get?_withTip, if_neg (tipKey_ne_entryKey _)]
    exact h.entry id
  other key hblock htip hentry := by
    rw [get?_withTip, if_neg htip.symm]
    exact h.other key hblock htip hentry
  blocks_fit := h.blocks_fit
  entries_fit := h.entries_fit

theorem Holds.withoutEntries {s : Store} {c : Contents} (h : s.Holds c) :
    s.withoutEntries.Holds (c.withIndex fun _ => none) where
  block hash := by
    rw [get?_withoutEntries, isPrefixOf_blockKey]
    exact h.block hash
  tip := by
    rw [get?_withoutEntries]
    exact h.tip
  entry id := by
    rw [get?_withoutEntries, isPrefixOf_entryKey]
    rfl
  other key hblock htip hentry := by
    rw [get?_withoutEntries, h.other key hblock htip hentry, ite_self]
  blocks_fit := h.blocks_fit
  entries_fit _ _ hf := by cases hf

/-- A store that holds contents is not marked as halted. -/
theorem Holds.get?_haltKey {s : Store} {c : Contents} (h : s.Holds c) : s.get? haltKey = none := by
  apply h.other
  · exact haltKey_ne_blockKey
  · decide
  · exact haltKey_ne_entryKey

theorem Holds.haltReason? {s : Store} {c : Contents} (h : s.Holds c) : s.haltReason? = none := by
  rw [Store.haltReason?, h.get?_haltKey]
  rfl

theorem Holds.clearHalted {s : Store} {c : Contents} (h : s.Holds c) : s.clearHalted = s := by
  apply ext_get?
  intro key
  rw [Store.clearHalted, get?_erase]
  split
  · rename_i hkey
    rw [← hkey, h.get?_haltKey]
  · rfl

end Store

/-! ## Looking up -/

open Store

theorem Chain.decodeBlock_encode {b : Block} (h : b.Fits) :
    decodeBlock (Record.encode b) = .ok b := by
  rw [decodeBlock, Record.decode_encode h]
  rfl

theorem Unspent.decodeEntry_encode {e : Entry} (h : e.Fits) :
    decodeEntry (Record.encode e) = .ok e := by
  rw [decodeEntry, Record.decode_encode h]
  rfl

theorem Chain.block_eq {s : Store} {c : Contents} (h : s.Holds c) (hash : Digest) :
    Chain.block s hash =
      match c.blocks hash with
      | some b => .ok b
      | none => .error (.notFound (.block hash)) := by
  rw [Chain.block, h.block]
  cases hb : c.blocks hash with
  | none => rfl
  | some b => exact decodeBlock_encode (h.blocks_fit hash b hb)

theorem Chain.block_of_some {s : Store} {c : Contents} (h : s.Holds c) {hash : Digest} {b : Block}
    (hb : c.blocks hash = some b) : Chain.block s hash = .ok b := by
  rw [Chain.block_eq h, hb]

theorem Chain.hasBlock_eq {s : Store} {c : Contents} (h : s.Holds c) (hash : Digest) :
    Chain.hasBlock s hash = (c.blocks hash).isSome := by
  rw [Chain.hasBlock, h.block, Option.isSome_map]

theorem Chain.tip?_eq {s : Store} {c : Contents} (h : s.Holds c) : Chain.tip? s = .ok c.tip := by
  rw [Chain.tip?, h.tip]
  cases c.tip with
  | none => rfl
  | some hash => simp [Digest.ofBytes_bytes]

/-- The entry of an id whose record is as it is encoded. -/
theorem Unspent.entry?_of_get? {s : Store} {id : Digest} {e : Option Entry}
    (hget : s.get? (entryKey id) = e.map Record.encode) (hfits : ∀ f, e = some f → f.Fits) :
    Unspent.entry? s id = .ok e := by
  unfold Unspent.entry?
  rw [hget]
  cases e with
  | none => rfl
  | some f =>
      show decodeEntry (Record.encode f) >>= _ = _
      rw [decodeEntry_encode (hfits f rfl)]
      rfl

theorem Unspent.entry?_eq {s : Store} {c : Contents} (h : s.Holds c) (id : Digest) :
    Unspent.entry? s id = .ok (c.index id) :=
  entry?_of_get? (h.entry id) (h.entries_fit id)

/-- The index that a store has. -/
def Unspent.index (s : Store) : Index := fun id =>
  match entry? s id with
  | .ok e => e
  | .error _ => none

theorem Unspent.index_eq {s : Store} {c : Contents} (h : s.Holds c) : index s = c.index := by
  funext id
  rw [index, entry?_eq h]

/-- A store determines the contents that it holds. -/
theorem Store.Holds.contents_eq {s : Store} {c c' : Contents} (h : s.Holds c) (h' : s.Holds c') :
    c = c' := by
  have hblocks : c.blocks = c'.blocks := by
    funext hash
    have hread := (Chain.block_eq h hash).symm.trans (Chain.block_eq h' hash)
    cases hb : c.blocks hash <;> cases hb' : c'.blocks hash <;> simp [hb, hb'] at hread
    · rfl
    · rw [hread]
  have htip : c.tip = c'.tip :=
    Except.ok.inj ((Chain.tip?_eq h).symm.trans (Chain.tip?_eq h'))
  have hindex : c.index = c'.index := by rw [← Unspent.index_eq h, Unspent.index_eq h']
  cases c
  cases c'
  congr

/-! ## Storing a block -/

theorem Contents.HasTip.withBlock {c : Contents} (h : c.HasTip) (b : Block) :
    (c.withBlock b).HasTip := by
  intro hash hc
  by_cases heq : hash = b.hash
  · exact ⟨b, by simp [heq]⟩
  · obtain ⟨t, ht⟩ := h hash hc
    exact ⟨t, by rwa [blocks_withBlock_of_ne c heq]⟩

/-- Storing a new block does not change which blocks overtake the tip. -/
theorem Contents.overtakenBy_withBlock {c : Contents} {b : Block} (hnew : c.blocks b.hash = none)
    (htip : c.HasTip) : (c.withBlock b).OvertakenBy b ↔ c.OvertakenBy b := by
  have hne : ∀ hash, c.tip = some hash → hash ≠ b.hash := by
    rintro hash hc rfl
    obtain ⟨t, ht⟩ := htip _ hc
    rw [hnew] at ht
    cases ht
  constructor
  · intro h hash t hc ht
    exact h hash t hc (by rwa [blocks_withBlock_of_ne c (hne hash hc)])
  · intro h hash t hc ht
    exact h hash t hc (by rwa [blocks_withBlock_of_ne c (hne hash hc)] at ht)

theorem Chain.overtakesTip_eq {s : Store} {c : Contents} (h : s.Holds c) (htip : c.HasTip)
    (b : Block) : ∃ flag, Chain.overtakesTip s b = .ok flag ∧ (flag = true ↔ c.OvertakenBy b) := by
  rw [Chain.overtakesTip, Chain.tip?_eq h]
  cases hc : c.tip with
  | none =>
      refine ⟨true, rfl, fun _ hash t ht => ?_, fun _ => rfl⟩
      cases hc.symm.trans ht
  | some hash =>
      obtain ⟨t, ht⟩ := htip hash hc
      refine ⟨decide (t.height < b.height), ?_, ?_⟩
      · have hread : s.get? (blockKey hash) = some (Record.encode t) := by
          rw [h.block, ht]
          rfl
        have hdecode := Chain.decodeBlock_encode (h.blocks_fit hash t ht)
        simp only [bind, Except.bind, hread, hdecode, pure, Except.pure]
      · rw [decide_eq_true_iff]
        constructor
        · intro hlt hash' t' hc' ht'
          obtain rfl : hash = hash' := Option.some.inj (hc.symm.trans hc')
          obtain rfl : t = t' := Option.some.inj (ht.symm.trans ht')
          exact hlt
        · intro hover
          exact hover hash t hc ht

theorem Chain.addBlock_of_known {s : Store} {b : Block} (hknown : Chain.hasBlock s b.hash = true) :
    Chain.addBlock s b = .ok (false, s) := by
  rw [Chain.addBlock, if_pos hknown]

theorem Chain.addBlock_of_new {s : Store} {b : Block} (hnew : Chain.hasBlock s b.hash = false) :
    Chain.addBlock s b = (Chain.overtakesTip (s.withBlock b) b).map fun overtakes =>
      if overtakes then (true, (s.withBlock b).withTip b.hash) else (false, s.withBlock b) := by
  rw [Chain.addBlock, if_neg (by simp [hnew])]
  show Chain.overtakesTip (s.withBlock b) b >>= _ = _
  cases Chain.overtakesTip (s.withBlock b) b with
  | error e => rfl
  | ok overtakes => cases overtakes <;> rfl

/-- What `Chain.addBlock` does: a known block changes nothing, a new one is stored,
and one that overtakes the tip becomes the tip. -/
theorem Chain.addBlock_cases {s : Store} {c : Contents} (h : s.Holds c) (htip : c.HasTip)
    {b : Block} (hb : b.Fits) :
    ((c.blocks b.hash).isSome ∧ Chain.addBlock s b = .ok (false, s)) ∨
    (c.blocks b.hash = none ∧ ¬ c.OvertakenBy b ∧
      ∃ t, Chain.addBlock s b = .ok (false, t) ∧ t.Holds (c.withBlock b)) ∨
    (c.blocks b.hash = none ∧ c.OvertakenBy b ∧
      ∃ t, Chain.addBlock s b = .ok (true, t) ∧ t.Holds ((c.withBlock b).withTip b.hash)) := by
  have hhas := Chain.hasBlock_eq h b.hash
  by_cases hknown : (c.blocks b.hash).isSome
  · rw [hknown] at hhas
    exact Or.inl ⟨hknown, addBlock_of_known hhas⟩
  · right
    have hnew : c.blocks b.hash = none := by simpa using hknown
    have hstored := h.withBlock hb
    obtain ⟨flag, hflag, hiff⟩ := Chain.overtakesTip_eq hstored (htip.withBlock b) b
    rw [Contents.overtakenBy_withBlock hnew htip] at hiff
    have hadd := addBlock_of_new (hhas.trans (by rw [hnew]; rfl))
    rw [hflag] at hadd
    cases flag with
    | false => exact Or.inl ⟨hnew, by simpa using hiff, _, hadd, hstored⟩
    | true => exact Or.inr ⟨hnew, hiff.mp rfl, _, hadd, hstored.withTip b.hash⟩

end CoinLedger
