import CoinLedger.Codec.Reader

/-!
# Variable-length integers

Lengths and counts are written in one, three, five or nine bytes: a number below
`0xfd` is its own byte, and a marker byte announces two, four or eight bytes with
the least significant first. Writing picks the shortest form; reading accepts a
longer form than needed.

A length is a variable-length integer that the rest of the data can hold, so that
a damaged length is refused before anything is read on its account.
-/

namespace CoinLedger.VarInt

def encode (n : UInt64) : Bytes :=
  if n < 0xfd then [n.toUInt8]
  else if n ≤ 0xffff then 0xfd :: Bytes.littleEndian 2 n.toNat
  else if n ≤ 0xffffffff then 0xfe :: Bytes.littleEndian 4 n.toNat
  else 0xff :: Bytes.littleEndian 8 n.toNat

/-- How many bytes follow a first byte that is a marker. -/
def markedWidth? (first : UInt8) : Option Nat :=
  if first = 0xfd then some 2
  else if first = 0xfe then some 4
  else if first = 0xff then some 8
  else none

def read : Reader UInt64 := do
  let first ← Reader.number 1
  match markedWidth? (UInt8.ofNat first) with
  | none => return UInt64.ofNat first
  | some width => return UInt64.ofNat (← Reader.number width)

/-- A number of bytes or items that the rest of the data has room for. -/
def readLength : Reader Nat := do
  let length ← read
  let rest ← get
  if rest.length < length.toNat then throw (.lengthOverflow length)
  return length.toNat

def ofLength {α : Type} (items : List α) : Bytes :=
  encode (UInt64.ofNat items.length)

end CoinLedger.VarInt
