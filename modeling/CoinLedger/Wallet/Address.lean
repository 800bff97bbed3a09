import CoinLedger.Hashing
import CoinLedger.Text.Base58

/-!
# Addresses

An address spells a locking hash for people: a version byte, the 20 bytes of the
hash and the first four bytes of the double SHA-256 of both, in base 58. Reading
an address checks its length and the checksum; the version byte is written as
zero and any value is accepted.
-/

namespace CoinLedger

structure Address where
  text : String
deriving DecidableEq

namespace Address

/-- Why a text is no address. -/
inductive Fault where
  | notBase58 (cause : Base58.Error)
  | wrongLength (length : Nat)
  | checksumMismatch
deriving DecidableEq

def Fault.message : Fault → String
  | .notBase58 cause => cause.message
  | .wrongLength length => "wrong length " ++ toString length
  | .checksumMismatch => "checksum mismatch"

def version : UInt8 := 0

def checksumLength : Nat := 4

def lockLength : Nat := 20

def checksum (payload : Bytes) : Bytes :=
  (doubleSha256 payload).bytes.take checksumLength

/-- The address that spells a locking hash. -/
def ofLock (lock : Bytes) : Address :=
  let payload := version :: lock
  ⟨Base58.encode (payload ++ checksum payload)⟩

/-- The locking hash that an address spells. -/
def lock (a : Address) : Except Fault Bytes :=
  match Base58.decode a.text with
  | .error e => .error (.notBase58 e)
  | .ok bytes =>
    if bytes.length ≠ 1 + lockLength + checksumLength then .error (.wrongLength bytes.length)
    else
      let payload := bytes.take (1 + lockLength)
      if checksum payload ≠ bytes.drop (1 + lockLength) then .error .checksumMismatch
      else .ok (payload.drop 1)

def isValid (a : Address) : Bool := a.lock.isOk

end Address

end CoinLedger
