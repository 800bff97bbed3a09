import CoinLedger.Proofs.SharedKeyring
import Mathlib.Data.List.Dedup

/-!
# Saving and loading keyrings

A keyring file may be one that nobody has written from a keyring: with an address that is
not the key's, with an entry twice, or even with two keys for one address. It is loaded if
every entry is in order, and each address of an entry is then in the keyring once.

The main statement is `Keyring.load_saved`: a keyring that was loaded and has been given new
keys since then survives being saved, whatever the order of its entries in the file.
-/

namespace CoinLedger.Keyring

variable {S : SignatureScheme} {r : Keyring} {es : List FileEntry}

/-- Adds keys one after another, each under its address. -/
def insertAll (S : SignatureScheme) (r : Keyring) (keys : List SecretKey) : Keyring :=
  keys.foldl (insert S) r

theorem WellKeyed.insertAll (h : r.WellKeyed S) (keys : List SecretKey) :
    (r.insertAll S keys).WellKeyed S := by
  induction keys generalizing r with
  | nil => exact h
  | cons key keys ih => exact ih (h.insert key)

/-! ## Addresses -/

theorem mem_addresses_iff {a : Address} : a ∈ r.addresses ↔ ∃ key, r.key a = .ok key := by
  simp [addresses, mem_toList_iff]

theorem nodup_addresses (r : Keyring) : r.addresses.Nodup := by
  have hkeys : r.addresses = r.keys.keys.map Address.mk := by
    rw [addresses, toList, List.map_map, ← Std.ExtTreeMap.map_fst_toList_eq_keys, List.map_map]
    rfl
  rw [hkeys]
  apply List.Nodup.map (fun _ _ h => congrArg Address.text h)
  simpa [List.Nodup] using r.keys.distinct_keys

/-- The addresses of the entries, each once. -/
theorem addresses_ofEntries (h : ofEntries S es = .ok r) :
    r.addresses.Perm (es.map FileEntry.address).dedup := by
  rw [List.perm_ext_iff_of_nodup (nodup_addresses r) (List.nodup_dedup _)]
  intro a
  rw [mem_addresses_iff, List.mem_dedup, ← isSome_lastUnder_iff]
  simp only [key_ofEntries h, Option.isSome_iff_exists]
  constructor
  · rintro ⟨_, e, he, _⟩
    exact ⟨e, he⟩
  · rintro ⟨e, he⟩
    obtain ⟨key, hkey⟩ := exists_ofEntries_iff.mp ⟨r, h⟩ e (mem_of_lastUnder he).1
    exact ⟨key, e, he, hkey⟩

/-! ## Saving -/

/-- A keyring that was loaded and has been given new keys keeps every key under the address
that belongs to it. Saved and loaded again it is this very keyring, and so it is if its entries
are saved in any other order. A file is loaded if every entry states a key with the address
that belongs to it; each address of an entry is then there once, and has the key of the last
entry with it. -/
theorem load_saved (S : SignatureScheme) :
    (∀ (file : Option Bytes) (r : Keyring) (fresh : List SecretKey), load S file = .ok r →
      (r.insertAll S fresh).WellKeyed S ∧
      load S (some (Bytes.ofText (r.insertAll S fresh).render)) = .ok (r.insertAll S fresh) ∧
      ∀ es : List FileEntry, es.Perm (r.insertAll S fresh).entries →
        load S (some (Bytes.ofText (renderEntries es))) = .ok (r.insertAll S fresh)) ∧
    ∀ (file : Bytes) (es : List FileEntry), Lists file es →
      ((∃ r, load S (some file) = .ok r) ↔ ∀ e ∈ es, ∃ key, e.States S key) ∧
      ∀ r, load S (some file) = .ok r → r.addresses.Perm (es.map FileEntry.address).dedup ∧
        ∀ a key, r.key a = .ok key ↔ ∃ e, lastUnder es a = some e ∧ e.States S key := by
  constructor
  · intro file r fresh hload
    have hkeyed := (wellKeyed_of_load hload).insertAll fresh
    exact ⟨hkeyed, hkeyed.load_render, fun es hperm =>
      hkeyed.load_renderEntries fun _ => hperm.mem_iff⟩
  · intro file es hlists
    rw [hlists.load_eq]
    refine ⟨exists_ofEntries_iff, fun r hr => ⟨addresses_ofEntries hr, fun a key => ?_⟩⟩
    exact key_ofEntries hr

/-! ## A file with an entry twice -/

namespace Repeated

open SharedKeyring.Rivals (oneKey twoKey addressOf_oneKey_ne)

/-- A keyring with the keys 1 and 2. -/
def bothKeys : Keyring := (empty.insert Secp256k1.scheme oneKey).insert Secp256k1.scheme twoKey

/-- The entry of the key 2 is there twice. -/
def entries : List FileEntry :=
  [twoKey, oneKey, twoKey].map (entryOf Secp256k1.scheme)

theorem wellKeyed_bothKeys : bothKeys.WellKeyed Secp256k1.scheme :=
  ((wellKeyed_empty _).insert oneKey).insert twoKey

theorem mem_entries_iff (e : FileEntry) : e ∈ entries ↔ e ∈ bothKeys.entries := by
  have hhas : ∀ key, bothKeys.Has Secp256k1.scheme key ↔ key = twoKey ∨ key = oneKey := by
    intro key
    rw [bothKeys, has_insert, has_insert]
    constructor
    · rintro (rfl | ⟨_, rfl | ⟨_, hnone⟩⟩)
      · exact .inl rfl
      · exact .inr rfl
      · exact absurd hnone not_has_empty
    · rintro (rfl | rfl)
      · exact .inl rfl
      · exact .inr ⟨addressOf_oneKey_ne, .inl rfl⟩
  rw [wellKeyed_bothKeys.mem_entries_iff]
  simp only [hhas, or_and_right, exists_or, exists_eq_left, entries, List.map_cons, List.map_nil,
    List.mem_cons, List.not_mem_nil, or_false]
  grind

theorem lists_entries : Lists (Bytes.ofText (renderEntries entries)) entries := by
  apply lists_renderEntries
  intro e he
  obtain ⟨key, _, rfl⟩ := List.mem_map.mp he
  exact Bytes.length_bigEndian 32 key.value

/-- The keyring with the key 1 is given the key 2 and saved, in order and backwards; and the
file with the repeated entry is loaded as the same keyring. -/
theorem load_saved_bothKeys :
    (bothKeys.WellKeyed Secp256k1.scheme ∧
      load Secp256k1.scheme (some (Bytes.ofText bothKeys.render)) = .ok bothKeys ∧
      load Secp256k1.scheme (some (Bytes.ofText (renderEntries bothKeys.entries.reverse))) =
        .ok bothKeys) ∧
    (∀ e ∈ entries, ∃ key, e.States Secp256k1.scheme key) ∧
    bothKeys.addresses.Perm (entries.map FileEntry.address).dedup ∧
    ∀ a key, bothKeys.key a = .ok key ↔
      ∃ e, lastUnder entries a = some e ∧ e.States Secp256k1.scheme key := by
  have hone := ((wellKeyed_empty Secp256k1.scheme).insert oneKey).load_render
  have htwice := wellKeyed_bothKeys.load_renderEntries mem_entries_iff
  obtain ⟨hsaved, hfiles⟩ := load_saved Secp256k1.scheme
  obtain ⟨hkeyed, hsame, hloaded⟩ := hsaved _ _ [twoKey] hone
  obtain ⟨hiff, hall⟩ := hfiles _ _ lists_entries
  refine ⟨⟨hkeyed, hsame, ?_⟩, ?_, ?_⟩
  · apply hloaded
    exact List.reverse_perm _
  · exact hiff.mp ⟨bothKeys, htwice⟩
  · exact hall bothKeys htwice

end Repeated

end CoinLedger.Keyring
