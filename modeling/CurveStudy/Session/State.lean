import CurveStudy.Entry.Erase
import CurveStudy.Plot.Picture
import CurveStudy.Study

/-!
# The state of a session

What a session keeps: the entry and the point of study, the texts of the last results, the curves
that are drawn, and the window they are drawn in.

* `clearEntry`, `clearResults`, `reset`   forget a part, or all;
* `fail`         shows why an entry cannot be studied, and keeps the curves of the last one that
                 could, so that a slip in the entry does not empty the picture;
* `accept`       shows the results of a study;
* `study`        studies the entry and shows what comes of it; nothing is left of a blank entry;
* `setPoint`, `setWindow`   set numbers, held within their bounds.
-/

namespace CurveStudy

structure Session (α : Type) where
  entry : Text
  /-- the point of study -/
  point : α
  function : Text
  derivative : Text
  value : Text
  slope : Text
  error : Text
  workings : Workings
  curves : Option (Curves α)
  window : Span α
  /-- the entry is about to take the keyboard -/
  focused : Bool

namespace Session
variable {α : Type} [Number α]

/-- the point of study at the start -/
def initialPoint : α := Number.ofNat 1

def initial : Session α :=
  { entry := [], point := initialPoint, function := [], derivative := [], value := [], slope := [],
    error := [], workings := .blank, curves := none, window := .initial, focused := true }

def clearEntry (s : Session α) : Session α := { s with entry := [], focused := true }

def clearResults (s : Session α) : Session α :=
  { s with function := [], derivative := [], value := [], slope := [], error := [],
           workings := .blank, curves := none, focused := true }

/-- forget all -/
def reset (s : Session α) : Session α :=
  { s.clearResults with entry := [], point := initialPoint, window := .initial }

/-- show why there is no result -/
def fail (message : Text) (s : Session α) : Session α :=
  { s with error := message, value := [], slope := [], workings := .blank, focused := true }

/-- show the results of a study -/
def accept (r : Study α) (s : Session α) : Session α :=
  { s with
    function := r.workings.function
    derivative := r.workings.derivative
    value := Label.text r.value
    slope := Label.text r.slope
    error := []
    workings := r.workings
    curves := some ⟨r.function, r.derivative⟩
    focused := true }

/-- study the entry at the point of study -/
def study (s : Session α) : Session α :=
  match Study.ofText s.entry s.point with
  | .ok r => s.accept r
  | .error .empty => s.clearResults
  | .error f => s.fail f.message

/-- set the point of study; what is not finite becomes the point at the start -/
def setPoint (v : α) (s : Session α) : Session α :=
  { s with point := if Scalar.isFinite v then Span.clip v else initialPoint, focused := true }

def setWindow (a b : α) (s : Session α) : Session α := { s with window := .window a b }

/-- take the last unit away from the entry -/
def eraseUnit (s : Session α) : Session α := { s with entry := Entry.eraseUnit s.entry }

/-- complete an erasure by hand, before which the entry was `before` -/
def completeErase (before : Text) (s : Session α) : Session α :=
  { s with entry := Entry.completeErase before s.entry, focused := true }

/-- another part of the window has the keyboard, or the entry has it already -/
def unfocus (s : Session α) : Session α := { s with focused := false }

end Session

end CurveStudy
