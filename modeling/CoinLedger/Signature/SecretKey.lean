import CoinLedger.Bytes

/-!
# Secret keys

A secret key is a number between 1 and the order of the curve's group, the order
itself excluded. It is stored as 32 bytes, most significant first, and
`ofBytes?_bytes` says that these bytes read back as the key.
-/

namespace CoinLedger

/-- The number of points of the curve secp256k1, a prime. -/
def groupOrder : Nat :=
  0xfffffffffffffffffffffffffffffffebaaedce6af48a03bbfd25e8cd0364141

structure SecretKey where
  value : Nat
  pos : 0 < value
  lt_order : value < groupOrder
deriving DecidableEq

namespace SecretKey

def ofNat? (n : Nat) : Option SecretKey :=
  if h : 0 < n ∧ n < groupOrder then some ⟨n, h.1, h.2⟩ else none

def ofBytes? (bytes : Bytes) : Option SecretKey :=
  if bytes.length = 32 then ofNat? (Bytes.ofBigEndian bytes) else none

/-- A key picked by a random number, which should be much greater than the order. -/
def ofEntropy (n : Nat) : SecretKey where
  value := n % (groupOrder - 1) + 1
  pos := Nat.succ_pos _
  lt_order := Nat.add_lt_of_lt_sub (Nat.mod_lt n (by decide))

def bytes (k : SecretKey) : Bytes := Bytes.bigEndian 32 k.value

theorem ofNat?_value (k : SecretKey) : ofNat? k.value = some k := by
  simp [ofNat?, k.pos, k.lt_order]

theorem ofBytes?_bytes (k : SecretKey) : ofBytes? k.bytes = some k := by
  have h : k.value < 1 <<< (8 * 32) := Nat.lt_trans k.lt_order (by decide +kernel)
  simp [ofBytes?, bytes, Bytes.ofBigEndian_bigEndian h, ofNat?_value]

end SecretKey

end CoinLedger
