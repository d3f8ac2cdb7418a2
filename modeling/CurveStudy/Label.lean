import CurveStudy.Number
import CurveStudy.Decimal.Positional

/-!
# Number labels

A label is a number as a reader likes to see it.  It is, in this order of preference,

* a word for what is no number, and a sign before `∞` for an infinite one;
* an integer, if one is less than `1e-7` away;
* a fraction with a denominator of at most `maxDenominator`, if one is less than `1e-9` away;
* a decimal with at most `places` places, without zeros at its end.
-/

namespace CurveStudy.Label
open Literal (ofDecimal)
open Number (ofNat ofInt abs nearest isDefined)

def maxDenominator : Nat := 100

/-- the places of a decimal label -/
def places : Nat := 6

variable {α : Type} [Number α]

/-- the integer that the number is taken for -/
def integer? (v : α) : Option Int :=
  let n := nearest v
  if abs (ofInt n - v) < ofDecimal 1 (-7) ∧ abs (ofInt n : α) < ofDecimal 1 15 then some n
  else none

/-- the fraction with denominator `d` that the number is taken for, in lowest terms -/
def withDenominator? (v : α) (d : Nat) : Option Rat :=
  let n := nearest (v * ofNat d)
  if abs (ofInt n / ofNat d - v) < ofDecimal 1 (-9) then some (mkRat n d) else none

/-- the fraction that the number is taken for: the one with the smallest denominator -/
def fraction? (v : α) : Option Rat :=
  if ofDecimal 1 12 < abs v then none
  else (List.range' 2 (maxDenominator - 1)).findSome? (withDenominator? v)

def fractionText (q : Rat) : Text :=
  if q.den = 1 then Text.ofInt q.num else Text.ofInt q.num ++ '/' :: Text.ofNat q.den

/-- the decimal nearest to an exact value, a half going to the even neighbour; the sign of a
negative value stays where all the digits are zero -/
def decimalText (q : Rat) : Text :=
  let units := (Decimal.roundEven (q * 10 ^ places)).natAbs
  let digits := Decimal.positional units (-places)
  if q < 0 then '-' :: digits else digits

/-- the label of a number -/
def text (v : α) : Text :=
  if !isDefined v then "indéfini".toList
  else if !Scalar.isFinite v then if 0 < v then "+∞".toList else "-∞".toList
  else
    match integer? v with
    | some n => Text.ofInt n
    | none =>
      match fraction? v with
      | some q => fractionText q
      | none => decimalText (Number.toRat v)

end CurveStudy.Label
