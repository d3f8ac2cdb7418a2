import CurveStudy.Trig

/-!
# Number types

What the library asks of its numbers, in layers.

* `Arith`        the four operations, the opposite, and one half;
* `Elementary`   circular, hyperbolic and inverse circular functions, logarithm, square root;
* `Scalar`       what trees are made of and evaluated with: arithmetic, equality, `π`, powers, the
                 twenty-four functions and a test of finiteness;
* `Literal`      numbers that are read from decimals and written as decimals;
* `Number`       all of this, with an order and the exact value of each finite number.

Nothing is assumed of the operations: a tree is the same thing over exact numbers as over binary
floating point, where sums are rounded, a product may overflow and a number may differ from itself.

`Elementary.value` gives each of the twenty-four functions by a formula in the elementary ones.
-/

namespace CurveStudy

class Arith (α : Type) extends Zero α, One α, Add α, Sub α, Mul α, Div α, Neg α where
  half : α

/-- the number two -/
def two {α : Type} [Arith α] : α := 1 + 1

class Elementary (α : Type) extends Arith α where
  sin : α → α
  cos : α → α
  tan : α → α
  arcsin : α → α
  arccos : α → α
  arctan : α → α
  sinh : α → α
  cosh : α → α
  tanh : α → α
  log : α → α
  sqrt : α → α

class Scalar (α : Type) extends Arith α, BEq α where
  pi : α
  pow : α → α → α
  /-- the value of a function at a number -/
  apply : Trig → α → α
  isFinite : α → Bool

class Literal (α : Type) where
  /-- the number nearest to `m · 10 ^ e` -/
  ofDecimal : (m : Nat) → (e : Int) → α
  /-- the shortest decimal that reads back as the number -/
  text : α → Text

class Number (α : Type) extends Scalar α, Literal α, LT α, LE α where
  [decidableLT : DecidableLT α]
  [decidableLE : DecidableLE α]
  /-- the exact value of a finite number -/
  toRat : α → Rat

instance instDecidableLTOfNumber {α : Type} [Number α] : DecidableLT α := Number.decidableLT
instance instDecidableLEOfNumber {α : Type} [Number α] : DecidableLE α := Number.decidableLE

namespace Elementary
open Arith (half)

/-- The function by a formula: a reciprocal is one over its primary function, so that both have the
same poles; an inverse reciprocal is the inverse at one over the argument; the inverse hyperbolic
functions are logarithms. -/
def value {α : Type} [Elementary α] : Trig → α → α
  | .sin, y => sin y
  | .cos, y => cos y
  | .tan, y => tan y
  | .csc, y => 1 / sin y
  | .sec, y => 1 / cos y
  | .cot, y => 1 / tan y
  | .arcsin, y => arcsin y
  | .arccos, y => arccos y
  | .arctan, y => arctan y
  | .arccsc, y => arcsin (1 / y)
  | .arcsec, y => arccos (1 / y)
  | .arccot, y => arctan (1 / y)
  | .sinh, y => sinh y
  | .cosh, y => cosh y
  | .tanh, y => tanh y
  | .csch, y => 1 / sinh y
  | .sech, y => 1 / cosh y
  | .coth, y => 1 / tanh y
  | .arcsinh, y => log (y + sqrt (y * y + 1))
  | .arccosh, y => log (y + sqrt (y * y - 1))
  | .arctanh, y => half * log ((1 + y) / (1 - y))
  | .arccsch, y => log (1 / y + sqrt (1 / (y * y) + 1))
  | .arcsech, y => log (1 / y + sqrt (1 / (y * y) - 1))
  | .arccoth, y => half * log ((y + 1) / (y - 1))

end Elementary

end CurveStudy
