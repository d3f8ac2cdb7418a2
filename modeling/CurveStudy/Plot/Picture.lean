import CurveStudy.Plot.Pieces
import CurveStudy.Expr.Eval
import CurveStudy.Label

/-!
# The picture of a function and its derivative

All places in a picture are fractions of its width, from the left, and of its height, from below.
Both curves share one vertical span.  An axis is drawn if it lies in the picture, and so is the
point of study if its height is finite.
-/

namespace CurveStudy

/-- a function with its derivative -/
structure Curves (α : Type) where
  function : Expr α
  derivative : Expr α

structure Picture (α : Type) where
  /-- the height of the horizontal axis -/
  axisX : Option α
  /-- the place of the vertical axis -/
  axisY : Option α
  function : List (List (α × α))
  derivative : List (List (α × α))
  /-- the point of study -/
  point : Option (α × α)

namespace Curves
variable {α : Type} [Number α]

/-- the samples of a tree over a window -/
def samples (e : Expr α) (w : Span α) : List (α × α) := w.abscissae.map fun x => (x, e.eval x)

/-- the vertical span of both curves over a window -/
def heights (c : Curves α) (w : Span α) : Span α :=
  Plot.heights ((samples c.function w ++ samples c.derivative w).map Prod.snd)

/-- the place of a point in the picture of a window and a vertical span -/
def place (w h : Span α) (p : α × α) : α × α := (w.locate p.1, h.locate p.2)

/-- the pieces of the curve of a tree, in the picture -/
def drawn (w h : Span α) (e : Expr α) : List (List (α × α)) :=
  (Plot.pieces (samples e w)).map fun piece => piece.map (place w h)

/-- the picture of two curves over a window, with the point of study at `x` -/
def picture (c : Curves α) (w : Span α) (x : α) : Picture α :=
  let h := c.heights w
  let y := c.function.eval x
  { axisX := if h.contains 0 then some (h.locate 0) else none
    axisY := if w.contains 0 then some (w.locate 0) else none
    function := drawn w h c.function
    derivative := drawn w h c.derivative
    point := if Scalar.isFinite y && w.contains x && h.contains y then some (place w h (x, y))
      else none }

/-- the text in the picture: the vertical span -/
def legend (c : Curves α) (w : Span α) : Text :=
  let h := c.heights w
  "y ∈ [".toList ++ Label.text h.lo ++ ", ".toList ++ Label.text h.hi ++ [']']

end Curves

end CurveStudy
