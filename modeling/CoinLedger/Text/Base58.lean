import CoinLedger.Bytes
import CoinLedger.Text.Quoted

/-!
# Base58 text

A byte string is read as a number, most significant byte first, and written with
58 digits that cannot be mistaken for one another. Zero bytes in front would
leave no trace in the number, so each of them is written as the digit one, the
digit of value zero.
-/

namespace CoinLedger.Base58

open CoinLedger.Text

/-- Why a text is not in base 58, at its first bad byte. -/
inductive Error where
  | badCharacter (byte : UInt8) (position : Nat)
  | nonAscii (position : Nat)
deriving DecidableEq

def Error.message : Error → String
  | .badCharacter byte position =>
      "provided string contained invalid character " ++ quoted (charOfByte byte) ++
        " at byte " ++ toString position
  | .nonAscii position =>
      "provided string contained non-ascii character starting at byte " ++ toString position

/-- The digits by value: no zero, no capital I and O, no small l. -/
def alphabet : List Char :=
  "123456789ABCDEFGHJKLMNPQRSTUVWXYZabcdefghijkmnopqrstuvwxyz".toList

/-- The digits of a number in some base, most significant first, none for zero. -/
def digitsOf (base n : Nat) : List Nat :=
  if _h : 1 < base ∧ 0 < n then digitsOf base (n / base) ++ [n % base] else []
termination_by n
decreasing_by exact Nat.div_lt_self _h.2 _h.1

/-- The number with the given digits, most significant first. -/
def ofDigits (base : Nat) (digits : List Nat) : Nat :=
  digits.foldl (fun n d => base * n + d) 0

/-- Writes digits anew in another base and keeps the number of zeros in front. -/
def rebase (source target : Nat) (digits : List Nat) : List Nat :=
  List.replicate (digits.takeWhile (· == 0)).length 0 ++ digitsOf target (ofDigits source digits)

def encode (bytes : Bytes) : String :=
  String.ofList ((rebase 256 58 (bytes.map UInt8.toNat)).map fun d => alphabet.getD d '1')

/-- The value of a digit, given by its byte. -/
def digitValue? (b : UInt8) : Option Nat :=
  alphabet.findIdx? (fun c => c.toNat == b.toNat)

/-- The values of the digits; `position` is the place of the next one. -/
def digitValues (position : Nat) : Bytes → Except Error (List Nat)
  | [] => .ok []
  | b :: rest =>
    if 127 < b then .error (.nonAscii position)
    else
      match digitValue? b with
      | none => .error (.badCharacter b position)
      | some value =>
        match digitValues (position + 1) rest with
        | .error e => .error e
        | .ok values => .ok (value :: values)

def decode (text : String) : Except Error Bytes :=
  match digitValues 0 (Bytes.ofText text) with
  | .error e => .error e
  | .ok values => .ok ((rebase 58 256 values).map UInt8.ofNat)

end CoinLedger.Base58
