import CoinLedger.Proofs.Base58RoundTrip
import CoinLedger.Wallet.Address

/-!
# Addresses and the locking hashes they spell

An address is read if it spells a version byte, 20 bytes and the checksum of both. The
version byte is covered by the checksum but not compared with the one that is written, so
each locking hash has an address for every version byte, and no others: this is
`Address.lock_eq_ok_iff`. Among the addresses of one version the correspondence is one to
one; `Address.scriptAddress` is read as the same locking hash as an address of version zero.
-/

namespace CoinLedger.Address

/-- The address that spells a locking hash under a version byte. -/
def withVersion (v : UInt8) (lock : Bytes) : Address :=
  ⟨Base58.encode (v :: lock ++ checksum (v :: lock))⟩

theorem withVersion_version (lock : Bytes) : withVersion version lock = ofLock lock := rfl

/-- The first byte that an address spells, none if it spells no bytes. -/
def version? (a : Address) : Option UInt8 :=
  match Base58.decode a.text with
  | .ok bytes => bytes.head?
  | .error _ => none

@[simp]
theorem length_checksum (payload : Bytes) : (checksum payload).length = checksumLength := by
  rw [checksum, List.length_take, Digest.length_eq]
  rfl

theorem version?_withVersion (v : UInt8) (lock : Bytes) :
    (withVersion v lock).version? = some v := by
  simp [version?, withVersion, Base58.decode_encode]

/-- An address under any version byte is read as the locking hash. -/
theorem lock_withVersion (v : UInt8) {h : Bytes} (hlength : h.length = lockLength) :
    (withVersion v h).lock = .ok h := by
  have hpayload : (v :: h).length = 1 + lockLength := by
    rw [List.length_cons, hlength, Nat.add_comm]
  have htotal : (v :: h ++ checksum (v :: h)).length = 1 + lockLength + checksumLength := by
    rw [List.length_append, hpayload, length_checksum]
  rw [lock, withVersion, Base58.decode_encode]
  simp only [htotal, ne_eq, not_true_eq_false, if_false, List.take_left' hpayload,
    List.drop_left' hpayload]
  rfl

/-- What is read as a locking hash spells it under some version byte. -/
theorem exists_version_of_lock {a : Address} {h : Bytes} (hlock : a.lock = .ok h) :
    h.length = lockLength ∧ ∃ v, a = withVersion v h := by
  rw [lock] at hlock
  split at hlock
  · cases hlock
  rename_i bytes hbytes
  rw [Base58.decode_eq_ok_iff] at hbytes
  simp only [ne_eq, ite_not] at hlock
  split at hlock
  · rename_i hlength
    cases bytes with
    | nil => cases hlength
    | cons v rest =>
        have htake : (v :: rest).take (1 + lockLength) = v :: rest.take lockLength := rfl
        have hdrop : (v :: rest).drop (1 + lockLength) = rest.drop lockLength := rfl
        simp only [htake, hdrop, List.drop_succ_cons, List.drop_zero] at hlock
        split at hlock
        · rename_i hchecksum
          obtain rfl := Except.ok.inj hlock
          refine ⟨?_, v, ?_⟩
          · simp [lockLength, checksumLength] at hlength ⊢
            omega
          · rw [withVersion, hchecksum, List.cons_append, List.take_append_drop, ← hbytes]
        · cases hlock
  · cases hlock

/-- An address is read as a locking hash if it spells 20 bytes under a version byte, of which
there is then one; and if it is the byte that is written, the address is the one that is
written for the hash. -/
theorem lock_eq_ok_iff (a : Address) (h : Bytes) :
    (a.lock = .ok h ↔ h.length = lockLength ∧ ∃! v, a = withVersion v h) ∧
      (a.lock = .ok h ∧ a.version? = some version ↔ h.length = lockLength ∧ a = ofLock h) := by
  constructor
  · constructor
    · intro hlock
      obtain ⟨hlength, v, rfl⟩ := exists_version_of_lock hlock
      refine ⟨hlength, v, rfl, fun w hw => ?_⟩
      have hversions := congrArg version? hw
      rw [version?_withVersion, version?_withVersion] at hversions
      exact (Option.some.inj hversions).symm
    · rintro ⟨hlength, v, rfl, _⟩
      exact lock_withVersion v hlength
  · constructor
    · rintro ⟨hlock, hversion⟩
      obtain ⟨hlength, v, rfl⟩ := exists_version_of_lock hlock
      rw [version?_withVersion, Option.some.injEq] at hversion
      exact ⟨hlength, by rw [hversion, withVersion_version]⟩
    · rintro ⟨hlength, rfl⟩
      rw [← withVersion_version]
      exact ⟨lock_withVersion version hlength, version?_withVersion version h⟩

/-! ## Two addresses of one locking hash -/

/-- An address of version 5. -/
def scriptAddress : Address := ⟨"33LZjZcoX2sz4jrsizssjzM13upo9wgSve"⟩

theorem scriptAddress_eq : scriptAddress = withVersion 5 (List.replicate lockLength 0x12) := by
  decide +kernel

/-- A locking hash is read from an address that is not written for it, besides the address
that is. -/
theorem not_lock_eq_ok_iff_ofLock : ¬ ∀ (a : Address) (h : Bytes),
    a.lock = .ok h ↔ h.length = lockLength ∧ a = ofLock h := by
  intro hall
  have hlock := lock_withVersion 5 (h := List.replicate lockLength 0x12) rfl
  rw [← scriptAddress_eq] at hlock
  obtain ⟨_, heq⟩ := (hall _ _).mp hlock
  have hversions := congrArg version? heq
  rw [scriptAddress_eq, ← withVersion_version, version?_withVersion, version?_withVersion]
    at hversions
  exact absurd hversions (by decide)

end CoinLedger.Address
