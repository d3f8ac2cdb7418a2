import CurveStudy.Scalar
import CurveStudy.Decimal.Rounding

/-!
# Small operations on numbers

Whole numbers and decimals as numbers of any type, distance from zero, the nearest integer, and
the limits of a value.  A value that differs from itself is no number.
-/

namespace CurveStudy.Number
open Literal (ofDecimal)

variable {α : Type} [Number α]

def ofNat (n : Nat) : α := ofDecimal n 0

def ofInt (n : Int) : α := if n < 0 then -ofNat n.natAbs else ofNat n.natAbs

/-- the distance from zero -/
def abs (v : α) : α := if v < 0 then -v else v

/-- `v`, or the limit that it is beyond -/
def clamp (lo hi v : α) : α := if v < lo then lo else if hi < v then hi else v

/-- the integer nearest to a finite number, a half going away from zero -/
def nearest (v : α) : Int := Decimal.roundAway (toRat v)

/-- `v` is a number -/
def isDefined (v : α) : Bool := v == v

end CurveStudy.Number
