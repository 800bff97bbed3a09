import CoinLedger.Proofs.JsonRoundTrip
import CoinLedger.Proofs.TextRoundTrip
import CoinLedger.Wallet.Keyring

/-!
# Keyrings and their files

A keyring is well keyed if every key is stored under the address that belongs to it. An
empty keyring is, adding a key keeps it so, and whatever is loaded from a file is so. What
a well-keyed keyring holds is therefore a set of keys, `Keyring.Has`, and two such keyrings
with the same keys are equal.

The entries of a file are added one by one. `Keyring.exists_ofEntries_iff` says which lists
of entries make up a keyring, and `Keyring.key_ofEntries` what is then under an address,
namely the key of the last entry there. So `Keyring.WellKeyed.load_renderEntries` can say
that a file with the entries of a well-keyed keyring, in whatever order, is loaded as this
keyring.
-/

namespace CoinLedger

theorem Address.text_injective : Function.Injective Address.text :=
  fun ⟨_⟩ ⟨_⟩ h => congrArg Address.mk h

namespace Keyring

variable {S : SignatureScheme} {r r' : Keyring} {key key' : SecretKey} {es : List FileEntry}

theorem key_eq_ok_iff {a : Address} : r.key a = .ok key ↔ r.keys[a.text]? = some key := by
  unfold Keyring.key
  split
  · rename_i found h
    rw [h, Except.ok.injEq, Option.some.injEq]
  · rename_i h
    simp [h]

theorem key_insert (S : SignatureScheme) (r : Keyring) (key : SecretKey) (a : Address) :
    (r.insert S key).key a = if a = S.addressOf key then .ok key else r.key a := by
  by_cases h : a = S.addressOf key
  · rw [if_pos h, key_eq_ok_iff, h]
    exact Std.ExtTreeMap.getElem?_insert_self
  · have hne : compare (S.addressOf key).text a.text ≠ .eq := by
      intro heq
      have htext : (S.addressOf key).text = a.text := Std.LawfulEqCmp.eq_of_compare heq
      exact h (Address.text_injective htext.symm)
    rw [if_neg h]
    simp only [Keyring.key, insert, Std.ExtTreeMap.getElem?_insert, hne, if_false]

/-! ## The keys that a keyring holds -/

/-- The keyring holds the key under the address that belongs to it. -/
def Has (S : SignatureScheme) (r : Keyring) (key : SecretKey) : Prop :=
  r.key (S.addressOf key) = .ok key

/-- Every key is stored under the address that belongs to it. -/
def WellKeyed (S : SignatureScheme) (r : Keyring) : Prop :=
  ∀ a key, r.key a = .ok key → a = S.addressOf key

theorem Has.eq_of_address (h : r.Has S key) (h' : r.Has S key')
    (haddress : S.addressOf key = S.addressOf key') : key = key' := by
  rw [Has, haddress] at h
  exact Except.ok.inj (h.symm.trans h')

theorem not_has_empty : ¬empty.Has S key := by
  intro h
  simp [Has, key_eq_ok_iff, empty] at h

theorem has_insert {added : SecretKey} : (r.insert S added).Has S key ↔
    key = added ∨ S.addressOf key ≠ S.addressOf added ∧ r.Has S key := by
  rw [Has, key_insert]
  by_cases h : S.addressOf key = S.addressOf added
  · rw [if_pos h, Except.ok.injEq]
    exact ⟨fun heq => .inl heq.symm, fun hor => (hor.resolve_right fun hand => hand.1 h).symm⟩
  · rw [if_neg h]
    refine ⟨fun hhas => .inr ⟨h, hhas⟩, fun hor => (hor.resolve_left ?_).2⟩
    rintro rfl
    exact h rfl

theorem wellKeyed_empty (S : SignatureScheme) : empty.WellKeyed S := by
  intro a key h
  simp [key_eq_ok_iff, empty] at h

theorem WellKeyed.insert (h : r.WellKeyed S) (added : SecretKey) :
    (r.insert S added).WellKeyed S := by
  intro a key hkey
  rw [key_insert] at hkey
  split at hkey
  · rename_i heq
    rwa [← Except.ok.inj hkey]
  · exact h a key hkey

/-- A well-keyed keyring is the set of its keys. -/
theorem WellKeyed.ext (h : r.WellKeyed S) (h' : r'.WellKeyed S)
    (heq : ∀ key, r.Has S key ↔ r'.Has S key) : r = r' := by
  have hkeys : r.keys = r'.keys := by
    refine Std.ExtTreeMap.ext_getElem? fun text => Option.ext fun key => ?_
    show r.keys[(Address.mk text).text]? = some key ↔ r'.keys[(Address.mk text).text]? = some key
    rw [← key_eq_ok_iff, ← key_eq_ok_iff]
    constructor
    · intro hkey
      have haddress := h _ key hkey
      rw [haddress] at hkey ⊢
      exact (heq key).mp hkey
    · intro hkey
      have haddress := h' _ key hkey
      rw [haddress] at hkey ⊢
      exact (heq key).mpr hkey
  cases r
  cases r'
  exact congrArg Keyring.mk hkeys

/-! ## The entries of a file -/

/-- The entry states a key, with the address that belongs to it. -/
def FileEntry.States (S : SignatureScheme) (e : FileEntry) (key : SecretKey) : Prop :=
  SecretKey.ofBytes? e.secret = some key ∧ S.addressOf key = e.address

/-- The last of some entries with a given address. -/
def lastUnder (es : List FileEntry) (a : Address) : Option FileEntry :=
  es.reverse.find? (·.address = a)

/-- The record of a key under the address that belongs to it. -/
def entryOf (S : SignatureScheme) (key : SecretKey) : FileEntry := ⟨key.bytes, S.addressOf key⟩

theorem states_entryOf_iff : (entryOf S key).States S key' ↔ key' = key := by
  simp only [FileEntry.States, entryOf, SecretKey.ofBytes?_bytes, Option.some.injEq]
  constructor
  · exact fun h => h.1.symm
  · rintro rfl
    exact ⟨rfl, rfl⟩

theorem lastUnder_snoc (es : List FileEntry) (e : FileEntry) (a : Address) :
    lastUnder (es ++ [e]) a = if e.address = a then some e else lastUnder es a := by
  by_cases h : e.address = a <;> simp [lastUnder, h]

theorem isSome_lastUnder_iff {a : Address} :
    (lastUnder es a).isSome ↔ a ∈ es.map FileEntry.address := by
  simp [lastUnder]

theorem mem_of_lastUnder {a : Address} {e : FileEntry} (h : lastUnder es a = some e) :
    e ∈ es ∧ e.address = a :=
  ⟨List.mem_reverse.mp (List.mem_of_find?_eq_some h), by simpa using List.find?_some h⟩

theorem addEntry_eq_ok_iff {e : FileEntry} :
    addEntry S r e = .ok r' ↔ ∃ key, e.States S key ∧ r' = r.insert S key := by
  unfold addEntry FileEntry.States
  split
  · rename_i hnone
    simp [hnone]
  · rename_i key hkey
    split
    · rename_i haddress
      simp [hkey, haddress, eq_comm]
    · rename_i haddress
      simp [hkey, haddress]

theorem ofEntries_snoc_eq_ok_iff {e : FileEntry} : ofEntries S (es ++ [e]) = .ok r ↔
    ∃ before key, ofEntries S es = .ok before ∧ e.States S key ∧ r = before.insert S key := by
  have hsnoc : ofEntries S (es ++ [e]) = ofEntries S es >>= fun before => addEntry S before e := by
    simp [ofEntries, List.foldlM_append]
  rw [hsnoc]
  cases hbefore : ofEntries S es with
  | error err => simp [bind, Except.bind]
  | ok before =>
      show addEntry S before e = .ok r ↔ _
      simp [addEntry_eq_ok_iff]

/-- A list of entries is loaded if all of them are in order. -/
theorem exists_ofEntries_iff :
    (∃ r, ofEntries S es = .ok r) ↔ ∀ e ∈ es, ∃ key, e.States S key := by
  induction es using List.reverseRecOn with
  | nil => exact iff_of_true ⟨empty, rfl⟩ (by simp)
  | append_singleton es e ih =>
      simp only [ofEntries_snoc_eq_ok_iff, List.forall_mem_append, List.forall_mem_singleton, ← ih]
      constructor
      · rintro ⟨_, before, key, hbefore, hkey, rfl⟩
        exact ⟨⟨before, hbefore⟩, key, hkey⟩
      · rintro ⟨⟨before, hbefore⟩, key, hkey⟩
        exact ⟨_, before, key, hbefore, hkey, rfl⟩

/-- Under every address is the key of the last entry there. -/
theorem key_ofEntries (h : ofEntries S es = .ok r) {a : Address} :
    r.key a = .ok key ↔ ∃ e, lastUnder es a = some e ∧ e.States S key := by
  induction es using List.reverseRecOn generalizing r with
  | nil =>
      obtain rfl := Except.ok.inj h
      simp [key_eq_ok_iff, empty, lastUnder]
  | append_singleton es e ih =>
      obtain ⟨before, added, hbefore, hadded, rfl⟩ := ofEntries_snoc_eq_ok_iff.mp h
      rw [key_insert, lastUnder_snoc, hadded.2]
      by_cases ha : e.address = a
      · subst ha
        rw [if_pos rfl, if_pos rfl, Except.ok.injEq]
        constructor
        · rintro rfl
          exact ⟨e, rfl, hadded⟩
        · rintro ⟨e', he, hkey⟩
          obtain rfl := Option.some.inj he
          exact Option.some.inj (hadded.1.symm.trans hkey.1)
      · rw [if_neg (Ne.symm ha), if_neg ha, ih hbefore]

theorem wellKeyed_ofEntries (h : ofEntries S es = .ok r) : r.WellKeyed S := by
  intro a key hkey
  obtain ⟨e, he, hstates⟩ := (key_ofEntries h).mp hkey
  rw [hstates.2, (mem_of_lastUnder he).2]

theorem mem_toList_iff {a : Address} : (a, key) ∈ r.toList ↔ r.key a = .ok key := by
  rw [key_eq_ok_iff, ← Std.ExtTreeMap.mem_toList_iff_getElem?_eq_some, toList, List.mem_map]
  constructor
  · rintro ⟨p, hp, heq⟩
    obtain ⟨rfl, rfl⟩ := Prod.mk.inj heq
    exact hp
  · exact fun hp => ⟨_, hp, rfl⟩

theorem WellKeyed.mem_entries_iff (h : r.WellKeyed S) {e : FileEntry} :
    e ∈ r.entries ↔ ∃ key, r.Has S key ∧ entryOf S key = e := by
  rw [entries, List.mem_map]
  constructor
  · rintro ⟨⟨a, key⟩, hp, rfl⟩
    have hkey := mem_toList_iff.mp hp
    obtain rfl := h a key hkey
    exact ⟨key, hkey, rfl⟩
  · rintro ⟨key, hkey, rfl⟩
    exact ⟨_, mem_toList_iff.mpr hkey, rfl⟩

/-- The entries of a well-keyed keyring make up this keyring, whatever their order. -/
theorem WellKeyed.ofEntries_eq (h : r.WellKeyed S) (hes : ∀ e, e ∈ es ↔ e ∈ r.entries) :
    ofEntries S es = .ok r := by
  have hown : ∀ e, e ∈ es ↔ ∃ key, r.Has S key ∧ entryOf S key = e := fun e =>
    (hes e).trans h.mem_entries_iff
  obtain ⟨made, hmade⟩ := exists_ofEntries_iff.mpr fun e he => by
    obtain ⟨key, _, rfl⟩ := (hown e).mp he
    exact ⟨key, states_entryOf_iff.mpr rfl⟩
  have hsame : made = r := (wellKeyed_ofEntries hmade).ext h fun key => by
    rw [Has, key_ofEntries hmade]
    constructor
    · rintro ⟨e, he, hkey⟩
      obtain ⟨key', hkey', rfl⟩ := (hown e).mp (mem_of_lastUnder he).1
      rwa [states_entryOf_iff.mp hkey]
    · intro hkey
      have hsome : (lastUnder es (S.addressOf key)).isSome := isSome_lastUnder_iff.mpr
        (List.mem_map.mpr ⟨entryOf S key, (hown _).mpr ⟨key, hkey, rfl⟩, rfl⟩)
      obtain ⟨e, he⟩ := Option.isSome_iff_exists.mp hsome
      obtain ⟨hmem, haddress⟩ := mem_of_lastUnder he
      -- the last entry may be another one than the key's own, but it has the same key
      obtain ⟨key', hkey', rfl⟩ := (hown e).mp hmem
      obtain rfl := hkey'.eq_of_address hkey haddress
      exact ⟨_, he, states_entryOf_iff.mpr rfl⟩
  rw [hmade, hsame]

/-! ## The file of a keyring -/

open Json (Value)

theorem printable_toJson (e : FileEntry) : Json.Printable e.toJson := by
  refine .object (fun m hm => ?_) fun m hm => ?_
  · rcases List.mem_pair.mp hm with rfl | rfl
    · exact ⟨_, rfl⟩
    · exact ⟨_, rfl⟩
  · rcases List.mem_pair.mp hm with rfl | rfl
    · refine .array fun v hv => ?_
      obtain ⟨b, _, rfl⟩ := List.mem_map.mp hv
      exact Json.printable_ofNat _
    · exact .text _

theorem byte?_ofNat (b : UInt8) : FileEntry.byte? (Value.ofNat b.toNat) = some b := by
  rw [FileEntry.byte?, Json.natural?_ofNat b.toNat_lt, Option.map_some, UInt8.ofNat_toNat]

theorem ofJson?_toJson {e : FileEntry} (h : e.secret.length = 32) :
    FileEntry.ofJson? e.toJson = some e := by
  have hsecret : FileEntry.secret? (.array (e.secret.map fun b => Value.ofNat b.toNat)) =
      some e.secret := by
    have hbytes : (e.secret.map fun b => Value.ofNat b.toNat).mapM FileEntry.byte? =
        some e.secret := List.mapM_map_eq_some fun b _ => byte?_ofNat b
    simp [FileEntry.secret?, Value.items?, hbytes, h]
  have hnames : FileEntry.secretName ≠ FileEntry.addressName := by decide
  simp [FileEntry.ofJson?, FileEntry.toJson, Value.fields?, Value.readableMembers?,
    Value.member?, hnames, hnames.symm, hsecret, Value.text?, Value.ofText]

/-- The file is a list of the given entries. -/
def Lists (file : Bytes) (es : List FileEntry) : Prop :=
  ∃ v, Json.ofFile file = .ok v ∧ v.items?.bind (·.mapM FileEntry.ofJson?) = some es

theorem lists_renderEntries (h : ∀ e ∈ es, e.secret.length = 32) :
    Lists (Bytes.ofText (renderEntries es)) es := by
  have hprintable : Json.Printable (.array (es.map FileEntry.toJson)) := by
    refine .array fun v hv => ?_
    obtain ⟨e, _, rfl⟩ := List.mem_map.mp hv
    exact printable_toJson e
  refine ⟨.array (es.map FileEntry.toJson), ?_, ?_⟩
  · simp only [Json.ofFile, Text.decode?_ofText, renderEntries, Json.parse?_render hprintable]
  · exact List.mapM_map_eq_some fun e he => ofJson?_toJson (h e he)

/-- A file is loaded by adding its entries one by one. -/
theorem Lists.load_eq {file : Bytes} (h : Lists file es) :
    load S (some file) = ofEntries S es := by
  obtain ⟨v, hfile, hitems⟩ := h
  simp only [load, hfile, bind, Except.bind, hitems]

/-- A file with the entries of a well-keyed keyring, in any order, is loaded as this keyring. -/
theorem WellKeyed.load_renderEntries (h : r.WellKeyed S) (hes : ∀ e, e ∈ es ↔ e ∈ r.entries) :
    load S (some (Bytes.ofText (renderEntries es))) = .ok r := by
  have hlists : Lists (Bytes.ofText (renderEntries es)) es := by
    refine lists_renderEntries fun e he => ?_
    obtain ⟨key, _, rfl⟩ := h.mem_entries_iff.mp ((hes e).mp he)
    exact Bytes.length_bigEndian 32 key.value
  rw [hlists.load_eq, h.ofEntries_eq hes]

/-- The file of a well-keyed keyring is loaded as this keyring. -/
theorem WellKeyed.load_render (h : r.WellKeyed S) :
    load S (some (Bytes.ofText r.render)) = .ok r :=
  h.load_renderEntries fun _ => Iff.rfl

theorem wellKeyed_of_load {file : Option Bytes} (h : load S file = .ok r) : r.WellKeyed S := by
  cases file with
  | none =>
      obtain rfl := Except.ok.inj h
      exact wellKeyed_empty S
  | some file =>
      rw [load] at h
      cases hjson : Json.ofFile file with
      | error e =>
          rw [hjson] at h
          cases h
      | ok v =>
          simp only [hjson, bind, Except.bind] at h
          split at h
          · cases h
          · exact wellKeyed_ofEntries h

end Keyring

end CoinLedger
