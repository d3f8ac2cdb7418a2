import CurveStudy.Expr.Build

/-!
# The derivatives of the twenty-four functions

`Expr.outer k y` is the derivative of the function `k` as a tree in the argument `y`, without the
inner derivative that the chain rule multiplies in.  The same `y` stands wherever the argument of
`k` stood, whatever tree it is.
-/

namespace CurveStudy.Expr
open Arith (half)

variable {α : Type} [Scalar α]

/-- `c · e²` -/
def square (e : Expr α) (c : α) : Expr α := powerOf e two c

/-- `√e` -/
def root (e : Expr α) : Expr α := powerOf e half 1

/-- `c / e` -/
def reciprocal (e : Expr α) (c : α) : Expr α := .quotient (.const 1) e c

/-- `1 - y²` -/
def oneMinusSquare (y : Expr α) : Expr α := sumOf [.const 1, square y (-1)]

/-- `1 + y²` -/
def onePlusSquare (y : Expr α) : Expr α := sumOf [.const 1, square y 1]

/-- `c / (√e · y²)` -/
def reciprocalRoot (e y : Expr α) (c : α) : Expr α :=
  reciprocal (productOf [root e, square y 1] 1) c

/-- `1 - 1 / y²` -/
def oneMinusInverse (y : Expr α) : Expr α := sumOf [.const 1, reciprocal (square y 1) (-1)]

/-- `1 / y² + k` -/
def inversePlus (y : Expr α) (k : α) : Expr α := sumOf [reciprocal (square y 1) 1, .const k]

/-- the derivative of a function, at the argument `y` -/
def outer : Trig → Expr α → Expr α
  | .sin, y => .trig .cos y 1
  | .cos, y => .trig .sin y (-1)
  | .tan, y => square (.trig .sec y 1) 1
  | .csc, y => productOf [.trig .csc y 1, .trig .cot y 1] (-1)
  | .sec, y => productOf [.trig .sec y 1, .trig .tan y 1] 1
  | .cot, y => square (.trig .csc y 1) (-1)
  | .arcsin, y => reciprocal (root (oneMinusSquare y)) 1
  | .arccos, y => reciprocal (root (oneMinusSquare y)) (-1)
  | .arctan, y => reciprocal (onePlusSquare y) 1
  | .arccsc, y => reciprocalRoot (oneMinusInverse y) y (-1)
  | .arcsec, y => reciprocalRoot (oneMinusInverse y) y 1
  | .arccot, y => reciprocal (onePlusSquare y) (-1)
  | .sinh, y => .trig .cosh y 1
  | .cosh, y => .trig .sinh y 1
  | .tanh, y => square (.trig .sech y 1) 1
  | .csch, y => productOf [.trig .csch y 1, .trig .coth y 1] (-1)
  | .sech, y => productOf [.trig .sech y 1, .trig .tanh y 1] (-1)
  | .coth, y => square (.trig .csch y 1) (-1)
  | .arcsinh, y => reciprocal (root (sumOf [square y 1, .const 1])) 1
  | .arccosh, y => reciprocal (root (sumOf [square y 1, .const (-1)])) 1
  | .arctanh, y => reciprocal (oneMinusSquare y) 1
  | .arccsch, y => reciprocalRoot (inversePlus y 1) y (-1)
  | .arcsech, y => reciprocalRoot (inversePlus y (-1)) y (-1)
  | .arccoth, y => reciprocal (oneMinusSquare y) 1

end CurveStudy.Expr
