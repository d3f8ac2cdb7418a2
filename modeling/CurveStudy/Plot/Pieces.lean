import CurveStudy.Plot.Span

/-!
# Cutting a sampled curve

A sample can be drawn if its height is finite and not too far from zero.  Where one cannot, the
curve is cut: it is drawn in pieces, and a sample alone is no piece.

* `Cutting`   a list that is being cut, member by member;
* `cut`       the parts of a list, cut where a member does not satisfy a test;
* `pieces`    the parts of a curve with at least two samples;
* `heights`   the vertical span that shows all that can be drawn, with a margin.
-/

namespace CurveStudy.Plot
open Literal (ofDecimal)
open Number (ofNat abs)

structure Cutting (β : Type) where
  /-- the parts that are complete -/
  out : List (List β)
  /-- the part that goes on -/
  current : List β

namespace Cutting
variable {β : Type}

/-- the part that goes on is complete, if it has a member -/
def flush (c : Cutting β) : Cutting β :=
  if c.current.isEmpty then c else { out := c.out ++ [c.current], current := [] }

/-- one member more: it goes on with the part if it satisfies `p`, and else completes it -/
def step (p : β → Bool) (c : Cutting β) (b : β) : Cutting β :=
  if p b then { c with current := c.current ++ [b] } else c.flush

end Cutting

/-- the parts of a list between the members that do not satisfy `p` -/
def cut {β : Type} (p : β → Bool) (bs : List β) : List (List β) :=
  (bs.foldl (Cutting.step p) ⟨[], []⟩).flush.out

variable {α : Type} [Number α]

/-- heights beyond this distance from zero are not drawn -/
def heightLimit : α := ofNat 50

/-- a sample of this height can be drawn -/
def drawable (y : α) : Bool := Scalar.isFinite y && decide (abs y ≤ heightLimit)

/-- the pieces of a curve, given by its samples -/
def pieces (samples : List (α × α)) : List (List (α × α)) :=
  (cut (fun s => drawable s.2) samples).filter fun piece => decide (2 ≤ piece.length)

/-- the smaller of two numbers -/
def lower (a b : α) : α := if b < a then b else a

/-- the larger of two numbers -/
def higher (a b : α) : α := if a < b then b else a

/-- A span around two heights: a margin of one twentieth on either side, or of one where the two
are nearly the same. -/
def around (lo hi : α) : Span α :=
  if hi - lo < ofDecimal 1 (-9) then ⟨lo - 1, hi + 1⟩
  else
    let margin := ofDecimal 5 (-2) * (hi - lo)
    ⟨lo - margin, hi + margin⟩

/-- the vertical span that shows the heights that can be drawn, from `-1` to `1` if there are
none -/
def heights (ys : List α) : Span α :=
  match ys.filter drawable with
  | [] => ⟨-1, 1⟩
  | y :: ys => around (ys.foldl lower y) (ys.foldl higher y)

end CurveStudy.Plot
