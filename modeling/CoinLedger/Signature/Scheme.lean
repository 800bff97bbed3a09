import CoinLedger.Digest
import CoinLedger.Signature.SecretKey

/-!
# Signature schemes

The ledger needs three things of a signature scheme: the public key that belongs
to a secret key, the signature of a digest, and the check of a signature against
a public key. Keys and signatures are plain byte strings here, so a check answers
for malformed ones too: they are refused.

Everything that signs or verifies takes the scheme as an argument. No law comes
with a scheme; a statement that needs one, say that a signature made with a key is
accepted under its public key, names the keys and digests it needs it for.
-/

namespace CoinLedger

structure SignatureScheme where
  /-- The public key of a secret key, in the form that inputs carry. -/
  publicKey : SecretKey → Bytes
  sign : SecretKey → Digest → Bytes
  /-- Whether the third argument is a signature of the digest under the key. -/
  verify : Bytes → Digest → Bytes → Bool

end CoinLedger
