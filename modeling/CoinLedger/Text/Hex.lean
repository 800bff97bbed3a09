import CoinLedger.Bytes
import CoinLedger.Text.Quoted

/-!
# Hexadecimal text

Two digits for each byte, the high half first. Writing uses lower-case digits;
reading takes either case. Reading works on the bytes of the text, so a position
in a complaint counts bytes: an odd number of them is reported before any bad
digit, and of several bad digits the first one is.
-/

namespace CoinLedger.Hex

open CoinLedger.Text

inductive Error where
  | oddLength
  | badDigit (byte : UInt8) (position : Nat)
deriving DecidableEq

def Error.message : Error → String
  | .oddLength => "Odd number of digits"
  | .badDigit byte position =>
      "Invalid character " ++ quoted (charOfByte byte) ++ " at position " ++ toString position

/-- The digit for a value below sixteen. -/
def digit (n : Nat) : Char :=
  if n < 10 then Char.ofNat (48 + n) else Char.ofNat (87 + n)

/-- The two digits of a byte. -/
def digits (b : UInt8) : List Char :=
  [digit (b.toNat / 16), digit (b.toNat % 16)]

def encode (bytes : Bytes) : String :=
  String.ofList (bytes.flatMap digits)

/-- The value of a digit, given by its byte. -/
def digitValue? (b : UInt8) : Option UInt8 :=
  if 48 ≤ b ∧ b ≤ 57 then some (b - 48)
  else if 97 ≤ b ∧ b ≤ 102 then some (b - 87)
  else if 65 ≤ b ∧ b ≤ 70 then some (b - 55)
  else none

/-- Reads digits in pairs; `position` is the place of the next one. A digit left
alone at the end contributes nothing, and `decode` refuses it beforehand. -/
def decodePairs (position : Nat) : Bytes → Except Error Bytes
  | high :: low :: rest =>
    match digitValue? high with
    | none => .error (.badDigit high position)
    | some h =>
      match digitValue? low with
      | none => .error (.badDigit low (position + 1))
      | some l =>
        match decodePairs (position + 2) rest with
        | .error e => .error e
        | .ok bytes => .ok ((16 * h + l) :: bytes)
  | _ => .ok []

def decode (text : Bytes) : Except Error Bytes :=
  if text.length % 2 ≠ 0 then .error .oddLength else decodePairs 0 text

end CoinLedger.Hex
