import CurveStudy.Scalar
import CurveStudy.Decimal.Shortest

/-!
# Double precision as a number type

`Float` with the classes of `CurveStudy.Scalar`.  A finite number is `± mantissa · 2 ^ exponent`,
read off its sixty-four bits; from there its exact value, the interval of reals that round to it
and its shortest decimal are exact arithmetic.

Infinities are written `inf` and `-inf`, and a number that is none is written `NaN`.
-/

namespace CurveStudy

/-- a finite double precision number, taken apart -/
structure Binary where
  negative : Bool
  mantissa : Nat
  exponent : Int

namespace Binary

/-- the bit in front of the fifty-two bits of a fraction -/
def hiddenBit : Nat := Nat.pow 2 52

/-- the exponent of the smallest numbers -/
def minExponent : Int := -1074

/-- the sign bit, eleven bits of biased exponent and fifty-two bits of fraction; the lowest biased
exponent has no hidden bit in front of the fraction, and counts as the next one -/
def ofBits (bits : Nat) : Binary :=
  let biased := bits / hiddenBit % Nat.pow 2 11
  let fraction := bits % hiddenBit
  { negative := bits / Nat.pow 2 63 % 2 = 1
    mantissa := if biased = 0 then fraction else hiddenBit + fraction
    exponent := minExponent + (biased - 1 : Nat) }

def ofFloat (v : Float) : Binary := ofBits v.toBits.toNat

/-- the exact value without the sign -/
def magnitude (b : Binary) : Rat := b.mantissa * (2 : Rat) ^ b.exponent

/-- the exact value -/
def toRat (b : Binary) : Rat := if b.negative then -b.magnitude else b.magnitude

/-- The reals that round to the number without its sign.  They reach half way to the next number
on either side; below a power of two the next number is half as far, except at the smallest
exponent. -/
def interval (b : Binary) : Decimal.Interval :=
  let quarter : Rat := (2 : Rat) ^ (b.exponent - 2)
  let below : Nat := if b.mantissa = hiddenBit ∧ minExponent < b.exponent then 1 else 2
  { lower := ((4 * b.mantissa - below : Nat) : Rat) * quarter
    value := b.magnitude
    upper := ((4 * b.mantissa + 2 : Nat) : Rat) * quarter
    closed := b.mantissa % 2 = 0 }

end Binary

namespace Double

/-- A decimal of this magnitude is infinite in double precision, and one of the opposite magnitude
is zero. -/
def largestPower : Int := 400

/-- the number nearest to `m · 10 ^ e`; a power of ten that cannot matter is never formed -/
def ofDecimal (m : Nat) (e : Int) : Float :=
  let top := e + (Text.ofNat m).length
  if m = 0 ∨ top < -largestPower then 0.0
  else if largestPower < top then 1.0 / 0.0
  else Float.ofScientific m (e < 0) e.natAbs

/-- the text of the shortest decimal that reads back as the number -/
def text (v : Float) : Text :=
  if v.isNaN then "NaN".toList
  else
    let b := Binary.ofFloat v
    let digits :=
      if v.isInf then "inf".toList
      else if b.mantissa = 0 then ['0']
      else b.interval.text
    if b.negative then '-' :: digits else digits

example : text 0.1 = "0.1".toList := by decide +kernel
example : text (-0.0) = "-0".toList := by decide +kernel
example : text (-1.0 / 3.0) = "-0.3333333333333333".toList := by decide +kernel
example : text 6.02e23 = "602000000000000000000000".toList := by decide +kernel

end Double

instance : Elementary Float where
  zero := 0.0
  one := 1.0
  half := 0.5
  sin := Float.sin
  cos := Float.cos
  tan := Float.tan
  arcsin := Float.asin
  arccos := Float.acos
  arctan := Float.atan
  sinh := Float.sinh
  cosh := Float.cosh
  tanh := Float.tanh
  log := Float.log
  sqrt := Float.sqrt

instance : Scalar Float where
  pi := Double.ofDecimal 3141592653589793 (-15)
  pow := Float.pow
  apply := Elementary.value
  isFinite := Float.isFinite

instance : Literal Float where
  ofDecimal := Double.ofDecimal
  text := Double.text

instance : Number Float where
  toRat v := (Binary.ofFloat v).toRat

end CurveStudy
