import CoinLedger.Bytes

/-!
# Reading UTF-8

A character takes one to four bytes. The first byte says how many follow and
which values the second may have, so that no character has two forms and no
surrogate has one.

`decode?` refuses malformed bytes. `decodeLossy` reads every byte string: where
it is malformed, the longest run of bytes that could have begun a character, or
a single byte that could not, is replaced by `U+FFFD`.
-/

namespace CoinLedger.Text

/-- What a first byte announces: how many bytes follow, the least and greatest
value of the next one, and the bits it contributes itself. -/
structure Lead where
  following : Nat
  low : UInt8
  high : UInt8
  bits : Nat

def lead? (b : UInt8) : Option Lead :=
  let n := b.toNat
  if n < 0x80 then some ⟨0, 0x80, 0xbf, n⟩
  else if n < 0xc2 then none
  else if n < 0xe0 then some ⟨1, 0x80, 0xbf, n - 0xc0⟩
  else if n < 0xf0 then
    some ⟨2, if n = 0xe0 then 0xa0 else 0x80, if n = 0xed then 0x9f else 0xbf, n - 0xe0⟩
  else if n < 0xf5 then
    some ⟨3, if n = 0xf0 then 0x90 else 0x80, if n = 0xf4 then 0x8f else 0xbf, n - 0xf0⟩
  else none

/-- One step of reading: the character, none for a malformed part, and the number
of bytes taken. -/
structure Chunk where
  char? : Option Char
  size : Nat

/-- Reads the continuation bytes of a character. The range is that of the next
byte; `size` counts the bytes taken so far. -/
def readFollowing (following : Nat) (low high : UInt8) (bits size : Nat) (rest : Bytes) : Chunk :=
  match following, rest with
  | 0, _ => ⟨some (Char.ofNat bits), size⟩
  | _ + 1, [] => ⟨none, size⟩
  | following + 1, b :: rest =>
    if low ≤ b ∧ b ≤ high then
      readFollowing following 0x80 0xbf (64 * bits + (b.toNat - 0x80)) (size + 1) rest
    else ⟨none, size⟩

/-- The first character, or the first malformed part, of a byte string that
begins with the given byte. -/
def firstChunk (b : UInt8) (rest : Bytes) : Chunk :=
  match lead? b with
  | none => ⟨none, 1⟩
  | some lead => readFollowing lead.following lead.low lead.high lead.bits 1 rest

/-- The characters of a byte string, none for each malformed part. -/
def chars (bytes : Bytes) : List (Option Char) :=
  match bytes with
  | [] => []
  | b :: rest =>
    let chunk := firstChunk b rest
    chunk.char? :: chars (rest.drop (chunk.size - 1))
termination_by bytes.length
decreasing_by
  simp only [List.length_drop, List.length_cons]
  omega

def decodeLossy (bytes : Bytes) : String :=
  String.ofList ((chars bytes).map (·.getD '\ufffd'))

def decode? (bytes : Bytes) : Option String :=
  ((chars bytes).mapM id).map String.ofList

end CoinLedger.Text
