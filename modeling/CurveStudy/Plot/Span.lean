import CurveStudy.Number

/-!
# Spans of numbers

A span is what lies between two numbers, both ends included: the part of the horizontal axis that a
plot shows, or of the vertical one.

* `Span.locate`      where a number lies in a span, `0` at the low end and `1` at the high end;
* `Span.window`      the span between two bounds, made fit to be shown;
* `Span.abscissae`   the points of a span at which a curve is sampled.
-/

namespace CurveStudy
open Literal (ofDecimal)
open Number (ofNat clamp)

structure Span (α : Type) where
  lo : α
  hi : α

namespace Span
variable {α : Type} [Number α]

def contains (s : Span α) (v : α) : Bool := decide (s.lo ≤ v) && decide (v ≤ s.hi)

/-- the place of a number in the span, as a fraction of its width -/
def locate (s : Span α) (v : α) : α := (v - s.lo) / (s.hi - s.lo)

/-! ### The window of a plot -/

/-- the window that is shown first -/
def initial : Span α := ⟨-ofNat 5, ofNat 5⟩

/-- Bounds of a window and points of study are held within this distance from zero. -/
def bound : α := ofDecimal 1 6

/-- a number held within the bound -/
def clip (v : α) : α := clamp (-bound) bound v

/-- the smallest width of a window -/
def minWidth : α := ofDecimal 1 (-3)

/-- the window from `lo`, made wider if `hi` is too near -/
def widened (lo hi : α) : Span α := ⟨lo, if hi - lo < minWidth then lo + minWidth else hi⟩

/-- the window between two bounds in any order, held within the bound and made wide enough; the
first window if one of them is not finite -/
def window (a b : α) : Span α :=
  if Scalar.isFinite a && Scalar.isFinite b then
    if clip a ≤ clip b then widened (clip a) (clip b) else widened (clip b) (clip a)
  else initial

/-! ### Samples -/

/-- the number of points at which a curve is sampled -/
def sampleCount : Nat := 400

/-- the point `i` of the window, counted from zero -/
def abscissa (w : Span α) (i : Nat) : α :=
  w.lo + (w.hi - w.lo) / ofNat (sampleCount - 1) * ofNat i

def abscissae (w : Span α) : List α := (List.range sampleCount).map w.abscissa

@[simp] theorem length_abscissae (w : Span α) : w.abscissae.length = sampleCount := by
  rw [abscissae, List.length_map, List.length_range]

end Span

end CurveStudy
