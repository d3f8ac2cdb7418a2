import CurveStudy.Decimal.Positional

/-!
# The shortest decimal in an interval

A binary floating-point number stands for every real number that rounds to it, an interval around
its exact value.  The decimal written for it is the one with the fewest digits in that interval;
of two with the same count of digits the nearer one, and of two equally near ones the larger.

A grid of decimals is the set of multiples of a power of ten.  If a multiple lies in the interval,
then so does one of the two multiples next to the exact value: it suffices to try those, on ever
finer grids.

* `Interval.onGrid?`   the choice on one grid;
* `Interval.search`    the first grid with a choice;
* `Interval.decimal`   the digits `c` and the power `p` of the decimal `c · 10 ^ p`.
-/

namespace CurveStudy.Decimal

/-- the reals that round to a positive number; `closed` says whether the two ends do -/
structure Interval where
  lower : Rat
  value : Rat
  upper : Rat
  closed : Bool

namespace Interval

def contains (i : Interval) (q : Rat) : Bool :=
  if i.closed then decide (i.lower ≤ q) && decide (q ≤ i.upper)
  else decide (i.lower < q) && decide (q < i.upper)

/-- the multiple of `10 ^ p` in the interval that is nearest to the value, counted in `10 ^ p` -/
def onGrid? (i : Interval) (p : Int) : Option Nat :=
  let unit : Rat := 10 ^ p
  let c := (i.value / unit).floor.toNat
  let below : Rat := c * unit
  let above : Rat := (c + 1 : Nat) * unit
  match i.contains below, i.contains above with
  | true, true => if i.value - below < above - i.value then some c else some (c + 1)
  | true, false => some c
  | false, true => some (c + 1)
  | false, false => none

/-- the choice on the first of the grids `p`, `p - 1`, … with one, at most `tries` of them -/
def search (i : Interval) : (tries : Nat) → (p : Int) → Nat × Int
  | 0, p => ((i.value / (10 : Rat) ^ p).floor.toNat, p)
  | tries + 1, p =>
    match i.onGrid? p with
    | some c => (c, p)
    | none => search i tries (p - 1)

/-- the number of digits before the point of a positive number; for a number below one tenth,
minus the number of zeros after the point -/
def magnitude (q : Rat) : Int :=
  let shift := q.den.log2 + 1
  (Text.ofNat (q * 10 ^ shift).floor.toNat).length - shift

/-- seventeen digits tell any two double precision numbers apart -/
def maxDigits : Nat := 17

/-- the shortest decimal in the interval, as digits and a power of ten -/
def decimal (i : Interval) : Nat × Int := i.search maxDigits (magnitude i.value - 1)

/-- the text of the shortest decimal in the interval -/
def text (i : Interval) : Text := positional i.decimal.1 i.decimal.2

end Interval

example : (Interval.mk (1 / 4) (1 / 3) (2 / 5) true).decimal = (3, -1) := by decide +kernel
example : (Interval.mk (31 / 25) (5 / 4) (63 / 50) false).decimal = (125, -2) := by decide +kernel
example : (Interval.mk (6 / 5) (5 / 4) (13 / 10) true).decimal = (13, -1) := by decide +kernel

end CurveStudy.Decimal
