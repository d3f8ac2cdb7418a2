import CurveStudy.Session.State

/-!
# What a window shows

`Session.screen` is what is to be read in the window of a session: a fault, the texts of the
function and its derivative, a line for the value of each, the workings, and the picture with the
text in it.
-/

namespace CurveStudy

structure Screen (α : Type) where
  error : Text
  function : Text
  derivative : Text
  functionLine : Text
  derivativeLine : Text
  workings : Workings
  legend : Text
  /-- the picture, if there are curves -/
  picture : Option (Picture α)

namespace Session
variable {α : Type} [Number α]

/-- the value of the function `name` at a point -/
def valueLine (name : Text) (x : α) (value : Text) : Text :=
  name ++ (Label.text x).bracketed ++ " = ".toList ++ value

def legend (s : Session α) : Text :=
  match s.curves with
  | none => "aucune courbe".toList
  | some c => c.legend s.window

def screen (s : Session α) : Screen α :=
  { error := s.error
    function := s.function
    derivative := s.derivative
    functionLine := valueLine ['f'] s.point s.value
    derivativeLine := valueLine "f'".toList s.point s.slope
    workings := s.workings
    legend := s.legend
    picture := s.curves.map fun c => c.picture s.window s.point }

end Session

end CurveStudy
