/-!
# JSON documents

A document is read in two stages. The grammar gives a `Value`, in which numbers
are still literals and texts may be unreadable, because what a program skips over
has to follow the grammar and nothing more. Whoever needs a number or a text asks
for it with `natural?` or `text?`, and only then are the range of the number and
the pairing of surrogates checked.
-/

namespace CoinLedger.Json

inductive Value where
  | null
  | bool (value : Bool)
  /-- A number as it is written. -/
  | number (literal : List Char)
  /-- A text, none if an escape in it is half a surrogate pair. -/
  | text (content : Option String)
  | array (items : List Value)
  | object (members : List (Option String × Value))

namespace Value

def ofText (content : String) : Value := .text (some content)

def ofNat (n : Nat) : Value := .number (Nat.toDigits 10 n)

def text? : Value → Option String
  | .text content => content
  | _ => none

def items? : Value → Option (List Value)
  | .array items => some items
  | _ => none

/-- The number of a row of digits, none if there are other characters. -/
def ofDigits? (digits : List Char) : Option Nat :=
  digits.foldlM (fun n c => if c.isDigit then some (10 * n + (c.toNat - 48)) else none) 0

/-- A whole number below a limit. A sign, a fraction or an exponent makes a number
something else, even if its value is whole. -/
def natural? (limit : Nat) : Value → Option Nat
  | .number literal => (ofDigits? literal).filter (· < limit)
  | _ => none

/-! ## Records

A record may be written as an object, with its fields in any order and others
among them, or as an array of its fields in their own order. A field may be
missing but not given twice. -/

/-- The member with a name, inside none if there is no such member. -/
def member? (members : List (String × Value)) (name : String) : Option (Option Value) :=
  match members.filter (·.1 = name) with
  | [] => some none
  | [(_, v)] => some (some v)
  | _ => none

/-- The members of an object, none if a name is unreadable. -/
def readableMembers? (members : List (Option String × Value)) : Option (List (String × Value)) :=
  members.mapM fun (name, v) => name.map (·, v)

/-- The fields of a record by the given names, inside none where missing. -/
def fields? (names : List String) : Value → Option (List (Option Value))
  | .object members => do names.mapM (member? (← readableMembers? members))
  | .array items =>
    if items.length ≤ names.length then
      some (items.map some ++ List.replicate (names.length - items.length) none)
    else none
  | _ => none

end Value

end CoinLedger.Json
