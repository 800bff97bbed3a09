import CoinLedger.Signature.SecretKey

/-!
# The curve secp256k1

The curve is `y² = x³ + 7` over the integers modulo a prime. Its points are added
in Jacobian coordinates, where `(X, Y, Z)` stands for the affine point
`(X / Z², Y / Z³)` and every triple with `Z = 0` for the point at infinity, so
that only the last step of a computation divides.
-/

namespace CoinLedger.Secp256k1

/-- The prime modulus of the coordinates. -/
def fieldPrime : Nat :=
  0xfffffffffffffffffffffffffffffffffffffffffffffffffffffffefffffc2f

/-! ## Arithmetic modulo a number -/

/-- `base ^ exponent` modulo `m`, by repeated squaring. -/
def powMod (m base exponent : Nat) : Nat :=
  if h : exponent = 0 then 1 % m
  else
    let root := powMod m base (exponent / 2)
    if exponent % 2 = 0 then root * root % m else root * root % m * base % m
termination_by exponent
decreasing_by omega

/-- The inverse modulo a prime, by Fermat's little theorem; zero goes to zero. -/
def invMod (prime a : Nat) : Nat := powMod prime a (prime - 2)

@[inline]
def mulField (a b : Nat) : Nat := a * b % fieldPrime

/-- The difference of two reduced coordinates. -/
@[inline]
def subField (a b : Nat) : Nat := (a + fieldPrime - b) % fieldPrime

/-! ## Points -/

/-- A point in affine coordinates; whether it lies on the curve is `OnCurve`. -/
structure Affine where
  x : Nat
  y : Nat
deriving DecidableEq

def Affine.OnCurve (p : Affine) : Prop :=
  p.x < fieldPrime ∧ p.y < fieldPrime ∧ p.y * p.y % fieldPrime = (p.x * p.x * p.x + 7) % fieldPrime

instance (p : Affine) : Decidable p.OnCurve :=
  inferInstanceAs (Decidable (_ ∧ _ ∧ _))

structure Jacobian where
  x : Nat
  y : Nat
  z : Nat

namespace Jacobian

def infinity : Jacobian := ⟨1, 1, 0⟩

def ofAffine (p : Affine) : Jacobian := ⟨p.x, p.y, 1⟩

/-- The affine form, none for the point at infinity. -/
def toAffine? (p : Jacobian) : Option Affine :=
  if p.z = 0 then none
  else
    let inverse := invMod fieldPrime p.z
    let square := mulField inverse inverse
    some ⟨mulField p.x square, mulField p.y (mulField square inverse)⟩

def double (p : Jacobian) : Jacobian :=
  let a := mulField p.x p.x
  let b := mulField p.y p.y
  let c := mulField b b
  let d := mulField 4 (mulField p.x b)
  let e := mulField 3 a
  let x := subField (mulField e e) (mulField 2 d)
  ⟨x, subField (mulField e (subField d x)) (mulField 8 c), mulField 2 (mulField p.y p.z)⟩

def add (p q : Jacobian) : Jacobian :=
  if p.z = 0 then q
  else if q.z = 0 then p
  else
    let pz2 := mulField p.z p.z
    let qz2 := mulField q.z q.z
    let u1 := mulField p.x qz2
    let u2 := mulField q.x pz2
    let s1 := mulField p.y (mulField qz2 q.z)
    let s2 := mulField q.y (mulField pz2 p.z)
    if u1 = u2 then
      if s1 = s2 then double p else infinity
    else
      let h := subField u2 u1
      let r := subField s2 s1
      let h2 := mulField h h
      let h3 := mulField h2 h
      let v := mulField u1 h2
      let x := subField (subField (mulField r r) h3) (mulField 2 v)
      ⟨x, subField (mulField r (subField v x)) (mulField s1 h3), mulField h (mulField p.z q.z)⟩

/-- The `k`-fold sum of a point, by doubling and adding. -/
def smul (k : Nat) (p : Jacobian) : Jacobian :=
  if h : k = 0 then infinity
  else
    let twice := double (smul (k / 2) p)
    if k % 2 = 0 then twice else add twice p
termination_by k
decreasing_by omega

end Jacobian

/-- The standard generator of the group. -/
def generator : Affine :=
  ⟨0x79be667ef9dcbbac55a06295ce870b07029bfcdb2dce28d959f2815b16f81798,
   0x483ada7726a3c4655da4fbfc0e1108a8fd17b448a68554199c47d08ffb10d4b8⟩

/-- The point `k` times the generator, none at infinity. -/
def generatorTimes (k : Nat) : Option Affine :=
  (Jacobian.smul k (Jacobian.ofAffine generator)).toAffine?

/-! ## Points as bytes -/

/-- Both coordinates, 32 bytes each. -/
def Affine.bytes (p : Affine) : Bytes :=
  Bytes.bigEndian 32 p.x ++ Bytes.bigEndian 32 p.y

/-- The first coordinate behind a byte that tells the parity of the second. -/
def Affine.compressed (p : Affine) : Bytes :=
  (if p.y % 2 = 0 then 2 else 3) :: Bytes.bigEndian 32 p.x

/-- Reads a point of the curve from its two coordinates. -/
def Affine.ofBytes? (bytes : Bytes) : Option Affine :=
  if bytes.length = 64 then
    let p : Affine := ⟨Bytes.ofBigEndian (bytes.take 32), Bytes.ofBigEndian (bytes.drop 32)⟩
    if p.OnCurve then some p else none
  else none

theorem Affine.ofBytes?_bytes {p : Affine} (h : p.OnCurve) : Affine.ofBytes? p.bytes = some p := by
  have hlt : fieldPrime < 1 <<< (8 * 32) := by decide +kernel
  have hx := Bytes.ofBigEndian_bigEndian (Nat.lt_trans h.1 hlt)
  have hy := Bytes.ofBigEndian_bigEndian (Nat.lt_trans h.2.1 hlt)
  simp [Affine.ofBytes?, Affine.bytes, hx, hy, h]

end CoinLedger.Secp256k1
