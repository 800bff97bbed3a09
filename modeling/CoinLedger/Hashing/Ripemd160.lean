import CoinLedger.Bytes

/-!
# RIPEMD-160

Two lines of eighty steps run over the same block of sixteen words, one with the
left tables and one with the right ones, and are crossed at the end. A step is
described by four numbers: the word it reads, how far it rotates, the constant
it adds and the Boolean function it mixes with.
-/

namespace CoinLedger.Ripemd160

structure State where
  a : UInt32
  b : UInt32
  c : UInt32
  d : UInt32
  e : UInt32

/-- One step of a line. -/
structure Step where
  word : Nat
  rotation : UInt32
  constant : UInt32
  mixer : Nat

def initial : State := ⟨0x67452301, 0xefcdab89, 0x98badcfe, 0x10325476, 0xc3d2e1f0⟩

def leftWords : List Nat := [
  0, 1, 2, 3, 4, 5, 6, 7, 8, 9, 10, 11, 12, 13, 14, 15,
  7, 4, 13, 1, 10, 6, 15, 3, 12, 0, 9, 5, 2, 14, 11, 8,
  3, 10, 14, 4, 9, 15, 8, 1, 2, 7, 0, 6, 13, 11, 5, 12,
  1, 9, 11, 10, 0, 8, 12, 4, 13, 3, 7, 15, 14, 5, 6, 2,
  4, 0, 5, 9, 7, 12, 2, 10, 14, 1, 3, 8, 11, 6, 15, 13]

def rightWords : List Nat := [
  5, 14, 7, 0, 9, 2, 11, 4, 13, 6, 15, 8, 1, 10, 3, 12,
  6, 11, 3, 7, 0, 13, 5, 10, 14, 15, 8, 12, 4, 9, 1, 2,
  15, 5, 1, 3, 7, 14, 6, 9, 11, 8, 12, 2, 10, 0, 4, 13,
  8, 6, 4, 1, 3, 11, 15, 0, 5, 12, 2, 13, 9, 7, 10, 14,
  12, 15, 10, 4, 1, 5, 8, 7, 6, 2, 13, 14, 0, 3, 9, 11]

def leftRotations : List UInt32 := [
  11, 14, 15, 12, 5, 8, 7, 9, 11, 13, 14, 15, 6, 7, 9, 8,
  7, 6, 8, 13, 11, 9, 7, 15, 7, 12, 15, 9, 11, 7, 13, 12,
  11, 13, 6, 7, 14, 9, 13, 15, 14, 8, 13, 6, 5, 12, 7, 5,
  11, 12, 14, 15, 14, 15, 9, 8, 9, 14, 5, 6, 8, 6, 5, 12,
  9, 15, 5, 11, 6, 8, 13, 12, 5, 12, 13, 14, 11, 8, 5, 6]

def rightRotations : List UInt32 := [
  8, 9, 9, 11, 13, 15, 15, 5, 7, 7, 8, 11, 14, 14, 12, 6,
  9, 13, 15, 7, 12, 8, 9, 11, 7, 7, 12, 7, 6, 15, 13, 11,
  9, 7, 15, 11, 8, 6, 6, 14, 12, 13, 5, 14, 13, 13, 7, 5,
  15, 5, 8, 11, 14, 14, 6, 14, 6, 9, 12, 9, 12, 5, 15, 8,
  8, 5, 12, 9, 12, 5, 14, 6, 8, 13, 6, 5, 15, 13, 11, 11]

def leftConstants : List UInt32 := [0, 0x5a827999, 0x6ed9eba1, 0x8f1bbcdc, 0xa953fd4e]

def rightConstants : List UInt32 := [0x50a28be6, 0x5c4dd124, 0x6d703ef3, 0x7a6d76e9, 0]

/-- Joins the tables of one line; each constant and each mixer serves sixteen
steps. -/
def line (words : List Nat) (rotations constants : List UInt32) (mixers : List Nat) : List Step :=
  let spread {α : Type} (xs : List α) : List α := xs.flatMap (List.replicate 16)
  ((words.zip rotations).zip ((spread constants).zip (spread mixers))).map
    fun ((word, rotation), (constant, mixer)) => ⟨word, rotation, constant, mixer⟩

def leftLine : List Step := line leftWords leftRotations leftConstants [0, 1, 2, 3, 4]

def rightLine : List Step := line rightWords rightRotations rightConstants [4, 3, 2, 1, 0]

@[inline]
def rotateLeft (x n : UInt32) : UInt32 := (x <<< n) ||| (x >>> (32 - n))

def mix (mixer : Nat) (x y z : UInt32) : UInt32 :=
  match mixer with
  | 0 => x ^^^ y ^^^ z
  | 1 => (x &&& y) ||| (~~~x &&& z)
  | 2 => (x ||| ~~~y) ^^^ z
  | 3 => (x &&& z) ||| (y &&& ~~~z)
  | _ => x ^^^ (y ||| ~~~z)

def Step.run (block : List UInt32) (s : State) (step : Step) : State :=
  let sum := s.a + mix step.mixer s.b s.c s.d + block.getD step.word 0 + step.constant
  ⟨s.e, rotateLeft sum step.rotation + s.e, s.b, rotateLeft s.c 10, s.d⟩

def compress (s : State) (block : List UInt32) : State :=
  let l := leftLine.foldl (Step.run block) s
  let r := rightLine.foldl (Step.run block) s
  ⟨s.b + l.c + r.d, s.c + l.d + r.e, s.d + l.e + r.a, s.e + l.a + r.b, s.a + l.b + r.c⟩

/-- Compresses `count` blocks in order. -/
def absorb : Nat → State → List UInt32 → State
  | 0, s, _ => s
  | count + 1, s, ws => absorb count (compress s (ws.take 16)) (ws.drop 16)

/-- A one bit, zeros up to eight bytes short of a whole block, and the length of
the message in bits, least significant byte first. -/
def padding (length : Nat) : Bytes :=
  0x80 :: (List.replicate ((119 - length % 64) % 64) 0 ++ Bytes.littleEndian 8 (8 * length))

/-- Groups bytes into words, least significant byte first. -/
def words : Bytes → List UInt32
  | a :: b :: c :: d :: rest =>
    (a.toUInt32 ||| (b.toUInt32 <<< 8) ||| (c.toUInt32 <<< 16) ||| (d.toUInt32 <<< 24)) ::
      words rest
  | _ => []

def wordBytes (w : UInt32) : Bytes :=
  [w.toUInt8, (w >>> 8).toUInt8, (w >>> 16).toUInt8, (w >>> 24).toUInt8]

def State.bytes (s : State) : Bytes :=
  wordBytes s.a ++ wordBytes s.b ++ wordBytes s.c ++ wordBytes s.d ++ wordBytes s.e

theorem State.length_bytes (s : State) : s.bytes.length = 20 := rfl

def hash (message : Bytes) : Bytes :=
  let ws := words (message ++ padding message.length)
  (absorb (ws.length / 16) initial ws).bytes

theorem length_hash (message : Bytes) : (hash message).length = 20 := rfl

end CoinLedger.Ripemd160
