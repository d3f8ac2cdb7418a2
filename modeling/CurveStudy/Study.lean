import CurveStudy.Expr.Deriv
import CurveStudy.Expr.Read
import CurveStudy.Expr.Render

/-!
# The study of a function at a point

From the text of a function and a point: the tree, its derivative, the values of both at the point,
and the workings, which show the text of each stage.  Blanks around the text do not count, also
not for the place of a fault.
-/

namespace CurveStudy

/-- the texts of the stages of a study -/
structure Workings where
  tokens : Text
  function : Text
  derivative : Text
  note : Text

/-- nothing to show -/
def Workings.blank : Workings := ⟨[], [], [], []⟩

structure Study (α : Type) where
  function : Expr α
  derivative : Expr α
  value : α
  slope : α
  workings : Workings

namespace Study
variable {α : Type} [Scalar α] [Literal α]

/-- the stages, with the sizes of the two trees -/
def note (f d : Expr α) : Text :=
  "Pipeline: jetons → analyse → AST (".toList ++ Text.ofNat f.size
    ++ " nœuds) → dérivée (".toList ++ Text.ofNat d.size ++ " nœuds) → évaluation.".toList

/-- the study of the tree `f`, read from the tokens `ts`, at the point `x` -/
def ofExpr (ts : List (Token α)) (f : Expr α) (x : α) : Study α :=
  let d := f.deriv
  { function := f
    derivative := d
    value := f.eval x
    slope := d.eval x
    workings := ⟨Token.textOf ts, f.render, d.render, note f d⟩ }

/-- the study of a text at the point `x`, or why the text is no function -/
def ofText (t : Text) (x : α) : Except Fault (Study α) :=
  if t.trim.isEmpty then .error .empty
  else do
    let ts ← Token.scan t.trim
    let f ← Expr.ofTokens ts
    .ok (ofExpr ts f x)

end Study

end CurveStudy
