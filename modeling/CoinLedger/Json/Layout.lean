import CoinLedger.Json.Value

/-!
# Writing JSON

Documents are laid out for people: every item and every member stands on a line
of its own, two spaces further in than the bracket that opens its list, and an
empty list is a pair of brackets. Only quotes, backslashes and control characters
are escaped.
-/

namespace CoinLedger.Json

/-- A character inside a text. -/
def escaped (c : Char) : List Char :=
  match c with
  | '\x22' => ['\\', '\x22']
  | '\\' => ['\\', '\\']
  | '\x08' => ['\\', 'b']
  | '\x0c' => ['\\', 'f']
  | '\n' => ['\\', 'n']
  | '\r' => ['\\', 'r']
  | '\t' => ['\\', 't']
  | c =>
    if c.val < 0x20 then
      ['\\', 'u', '0', '0', Nat.digitChar (c.toNat / 16), Nat.digitChar (c.toNat % 16)]
    else [c]

def quotedText (content : Option String) : List Char :=
  '\x22' :: ((content.getD "").toList.flatMap escaped ++ ['\x22'])

/-- The start of a line at some depth. -/
def newLine (depth : Nat) : List Char := '\n' :: List.replicate (2 * depth) ' '

/-- Puts laid-out parts between brackets, one on a line. -/
def bracketed (opening closing : Char) (depth : Nat) (parts : List (List Char)) : List Char :=
  if parts.isEmpty then [opening, closing]
  else
    opening ::
      ((parts.map (newLine (depth + 1) ++ ·)).intersperse [',']).flatten ++
      newLine depth ++ [closing]

mutual

/-- A value whose brackets stand at some depth. -/
def layout (depth : Nat) : Value → List Char
  | .null => "null".toList
  | .bool value => (if value then "true" else "false").toList
  | .number literal => literal
  | .text content => quotedText content
  | .array items => bracketed '[' ']' depth (layoutItems (depth + 1) items)
  | .object members => bracketed '\x7b' '\x7d' depth (layoutMembers (depth + 1) members)

def layoutItems (depth : Nat) : List Value → List (List Char)
  | [] => []
  | v :: rest => layout depth v :: layoutItems depth rest

def layoutMembers (depth : Nat) : List (Option String × Value) → List (List Char)
  | [] => []
  | (name, v) :: rest =>
    (quotedText name ++ [':', ' '] ++ layout depth v) :: layoutMembers depth rest

end

def render (v : Value) : String := String.ofList (layout 0 v)

end CoinLedger.Json
