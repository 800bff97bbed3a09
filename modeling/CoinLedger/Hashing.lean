import CoinLedger.Hashing.Sha256
import CoinLedger.Hashing.Ripemd160

/-!
# The hashes the ledger uses

A single SHA-256 names transactions, seals blocks and builds Merkle trees; a
double one makes address checksums; and SHA-256 followed by RIPEMD-160 turns a
public key into the 20-byte locking hash that outputs carry.
-/

namespace CoinLedger

def sha256 (message : Bytes) : Digest := Sha256.digest message

def doubleSha256 (message : Bytes) : Digest := sha256 (sha256 message).bytes

/-- The hash that locks an output to a public key. -/
def lockingHash (key : Bytes) : Bytes := Ripemd160.hash (sha256 key).bytes

@[simp]
theorem length_lockingHash (key : Bytes) : (lockingHash key).length = 20 :=
  Ripemd160.length_hash _

/-- Two different byte strings with one SHA-256. -/
def IsCollision (x y : Bytes) : Prop := x ≠ y ∧ sha256 x = sha256 y

end CoinLedger
