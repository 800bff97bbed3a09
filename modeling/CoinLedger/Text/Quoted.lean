/-!
# Quoted characters

Complaints about a bad character show it between single quotes, in a form that
is always visible: control characters, the soft hyphen and the no-break space
are spelled by an escape, and so are the quote and the escape sign themselves.
Only the characters up to `U+00FF` are ever shown, because the complaints are
about single bytes.
-/

namespace CoinLedger.Text

/-- Characters up to `U+00FF` that leave no mark of their own on paper. -/
def isInvisible (c : Char) : Bool :=
  c.val < 0x20 || (0x7f ≤ c.val && c.val ≤ 0xa0) || c.val == 0xad

/-- The escape for a character by its number, in hexadecimal without padding. -/
def codePointEscape (c : Char) : List Char :=
  ['\\', 'u', '\x7b'] ++ Nat.toDigits 16 c.toNat ++ ['\x7d']

/-- How one character is spelled between single quotes. -/
def spelling (c : Char) : List Char :=
  if c = '\x00' then ['\\', '0']
  else if c = '\t' then ['\\', 't']
  else if c = '\n' then ['\\', 'n']
  else if c = '\r' then ['\\', 'r']
  else if c = '\x27' then ['\\', '\x27']
  else if c = '\\' then ['\\', '\\']
  else if isInvisible c then codePointEscape c
  else [c]

def quoted (c : Char) : String :=
  String.ofList (['\x27'] ++ spelling c ++ ['\x27'])

/-- The character whose number is the byte. -/
def charOfByte (b : UInt8) : Char :=
  Char.ofNat b.toNat

end CoinLedger.Text
