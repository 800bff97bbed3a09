import CoinLedger.Json.Value

/-!
# The grammar of JSON

`parse?` reads a text as one document and accepts exactly the grammar of the
standard: no byte order mark, comment, trailing comma, sign or zero in front of a
number, bare control character in a text, or anything behind the document.
-/

namespace CoinLedger.Json

def isBlank (c : Char) : Bool :=
  c == ' ' || c == '\t' || c == '\n' || c == '\r'

def skipBlanks (cs : List Char) : List Char := cs.dropWhile isBlank

/-! ## Numbers -/

def isNumberChar (c : Char) : Bool :=
  c.isDigit || c == '-' || c == '+' || c == '.' || c == 'e' || c == 'E'

/-- One digit or more, and nothing else. -/
def isDigits (cs : List Char) : Bool := !cs.isEmpty && cs.all Char.isDigit

/-- Nothing, or an exponent. -/
def isExponent : List Char → Bool
  | [] => true
  | c :: rest =>
    (c == 'e' || c == 'E') &&
      match rest with
      | '+' :: digits => isDigits digits
      | '-' :: digits => isDigits digits
      | digits => isDigits digits

/-- What may follow the whole part of a number. -/
def isFraction : List Char → Bool
  | '.' :: rest =>
    isDigits (rest.takeWhile Char.isDigit) && isExponent (rest.dropWhile Char.isDigit)
  | rest => isExponent rest

/-- A number without its sign. -/
def isMagnitude : List Char → Bool
  | '0' :: rest => isFraction rest
  | cs => isDigits (cs.takeWhile Char.isDigit) && isFraction (cs.dropWhile Char.isDigit)

def isNumber : List Char → Bool
  | '-' :: rest => isMagnitude rest
  | cs => isMagnitude cs

/-! ## Texts -/

/-- What a text is written with: characters, and escapes by their 16-bit number. -/
inductive Piece where
  | char (c : Char)
  | unit (n : Nat)

def hexValue? (c : Char) : Option Nat :=
  if c.isDigit then some (c.toNat - 48)
  else if 'a' ≤ c ∧ c ≤ 'f' then some (c.toNat - 87)
  else if 'A' ≤ c ∧ c ≤ 'F' then some (c.toNat - 55)
  else none

/-- The character that a short escape stands for. -/
def shortEscape? (c : Char) : Option Char :=
  match c with
  | '\x22' => some '\x22'
  | '\\' => some '\\'
  | '/' => some '/'
  | 'b' => some '\x08'
  | 'f' => some '\x0c'
  | 'n' => some '\n'
  | 'r' => some '\r'
  | 't' => some '\t'
  | _ => none

/-- The pieces up to the closing quote, and what follows it. -/
def pieces : List Char → Option (List Piece × List Char)
  | [] => none
  | '\x22' :: rest => some ([], rest)
  | '\\' :: 'u' :: a :: b :: c :: d :: rest => do
    let n := 4096 * (← hexValue? a) + 256 * (← hexValue? b) + 16 * (← hexValue? c) + (← hexValue? d)
    let (others, rest) ← pieces rest
    return (.unit n :: others, rest)
  | '\\' :: c :: rest => do
    let escaped ← shortEscape? c
    let (others, rest) ← pieces rest
    return (.char escaped :: others, rest)
  | c :: rest =>
    if c.val < 0x20 || c == '\\' then none
    else do
      let (others, rest) ← pieces rest
      return (.char c :: others, rest)

def isHighSurrogate (n : Nat) : Bool := 0xd800 ≤ n && n < 0xdc00

def isLowSurrogate (n : Nat) : Bool := 0xdc00 ≤ n && n < 0xe000

/-- Joins surrogate pairs; none if one half stands alone. -/
def joinPieces : List Piece → Option (List Char)
  | [] => some []
  | .char c :: rest => return c :: (← joinPieces rest)
  | .unit n :: rest =>
    if isHighSurrogate n then
      match rest with
      | .unit m :: rest =>
        if isLowSurrogate m then
          return Char.ofNat (0x10000 + 1024 * (n - 0xd800) + (m - 0xdc00)) :: (← joinPieces rest)
        else none
      | _ => none
    else if isLowSurrogate n then none
    else return Char.ofNat n :: (← joinPieces rest)

/-- A text behind its opening quote. -/
def textBody (cs : List Char) : Option (Option String × List Char) := do
  let (parts, rest) ← pieces cs
  return ((joinPieces parts).map String.ofList, rest)

/-! ## Values

Every call reads at least one character before it calls on, so the length of the
text bounds the depth of the calls. -/

mutual

def value : Nat → List Char → Option (Value × List Char)
  | 0, _ => none
  | depth + 1, cs =>
    match skipBlanks cs with
    | 'n' :: 'u' :: 'l' :: 'l' :: rest => some (.null, rest)
    | 't' :: 'r' :: 'u' :: 'e' :: rest => some (.bool true, rest)
    | 'f' :: 'a' :: 'l' :: 's' :: 'e' :: rest => some (.bool false, rest)
    | '\x22' :: rest => do
      let (content, rest) ← textBody rest
      return (.text content, rest)
    | '[' :: rest =>
      match skipBlanks rest with
      | ']' :: rest => some (.array [], rest)
      | rest => do
        let (items, rest) ← arrayItems depth rest
        return (.array items, rest)
    | '\x7b' :: rest =>
      match skipBlanks rest with
      | '\x7d' :: rest => some (.object [], rest)
      | rest => do
        let (members, rest) ← objectMembers depth rest
        return (.object members, rest)
    | rest =>
      let literal := rest.takeWhile isNumberChar
      if isNumber literal then some (.number literal, rest.dropWhile isNumberChar) else none

/-- The items up to the closing bracket, at least one. -/
def arrayItems : Nat → List Char → Option (List Value × List Char)
  | 0, _ => none
  | depth + 1, cs => do
    let (item, rest) ← value depth cs
    match skipBlanks rest with
    | ',' :: rest =>
      let (others, rest) ← arrayItems depth rest
      return (item :: others, rest)
    | ']' :: rest => return ([item], rest)
    | _ => none

/-- The members up to the closing brace, at least one. -/
def objectMembers : Nat → List Char → Option (List (Option String × Value) × List Char)
  | 0, _ => none
  | depth + 1, cs =>
    match skipBlanks cs with
    | '\x22' :: rest => do
      let (name, rest) ← textBody rest
      match skipBlanks rest with
      | ':' :: rest =>
        let (v, rest) ← value depth rest
        match skipBlanks rest with
        | ',' :: rest =>
          let (others, rest) ← objectMembers depth rest
          return ((name, v) :: others, rest)
        | '\x7d' :: rest => return ([(name, v)], rest)
        | _ => none
      | _ => none
    | _ => none

end

/-- The document that a text is, none if it is not JSON. -/
def parse? (text : String) : Option Value :=
  let cs := text.toList
  match value (2 * cs.length + 2) cs with
  | some (v, rest) => if (skipBlanks rest).isEmpty then some v else none
  | none => none

end CoinLedger.Json
