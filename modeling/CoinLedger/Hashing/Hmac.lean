import CoinLedger.Hashing

/-!
# HMAC with SHA-256

A keyed hash: the key, padded to a whole block, is mixed with two constants and
hashed in front of the message and again in front of the inner digest.
-/

namespace CoinLedger

/-- Keys of up to one block are padded with zeros; a longer key is hashed first. -/
def Hmac.blockKey (key : Bytes) : Bytes :=
  let short := if key.length ≤ 64 then key else (sha256 key).bytes
  short ++ List.replicate (64 - short.length) 0

def hmacSha256 (key message : Bytes) : Digest :=
  let k := Hmac.blockKey key
  sha256 (k.map (· ^^^ 0x5c) ++ (sha256 (k.map (· ^^^ 0x36) ++ message)).bytes)

end CoinLedger
