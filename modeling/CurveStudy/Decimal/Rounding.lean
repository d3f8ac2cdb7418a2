/-!
# Rounding to a whole number

Two ways to round a rational number to the nearest integer.  They differ in what becomes of a half.

* `roundAway`   a half goes away from zero;
* `roundEven`   a half goes to the even neighbour.
-/

namespace CurveStudy.Decimal

/-- the nearest integer, a half going away from zero -/
def roundAway (q : Rat) : Int :=
  if q < 0 then -(-q + 1 / 2).floor else (q + 1 / 2).floor

/-- the nearest integer, a half going to the even neighbour -/
def roundEven (q : Rat) : Int :=
  let below := q.floor
  let gap := q - below
  if gap < 1 / 2 then below
  else if 1 / 2 < gap then below + 1
  else if below % 2 = 0 then below else below + 1

example : [-5 / 2, -1 / 2, 1 / 2, 3 / 2, 12 / 5].map roundAway = [-3, -1, 1, 2, 2] := by
  decide +kernel
example : [-5 / 2, -1 / 2, 1 / 2, 3 / 2, 12 / 5].map roundEven = [-2, 0, 0, 2, 2] := by
  decide +kernel

end CurveStudy.Decimal
