import CurveStudy.Session.State

/-!
# What a user does

A user edits the entry, presses buttons and keys, types numbers into three fields, and looks at the
window.  `Session.step` is the session after one action, `Session.run` after several.

The window is painted after every action.  A paint gives the keyboard to an entry that is about to
take it; an action of the entry itself asks for it anew.
-/

namespace CurveStudy

/-- the buttons of the window -/
inductive Button where
  | clearEntry
  | clearResults
  | reset
  | study
  | insert (k : Key)
  deriving DecidableEq

/-- what is written on a button -/
def Button.label : Button → Text
  | clearEntry => ['C']
  | clearResults => "CLR".toList
  | reset => "AC".toList
  | study => "d/dx".toList
  | insert k => k.label

def Button.all : List Button := [clearEntry, clearResults, reset, study] ++ Key.all.map insert

/-- the button with the given label -/
def Button.ofLabel? (t : Text) : Option Button := all.find? fun b => b.label == t

inductive Action (α : Type) where
  /-- the entry becomes the text -/
  | edit (t : Text)
  | press (b : Button)
  /-- the key that ends a line, in the entry -/
  | enter
  /-- the key that erases backwards, at the end of the entry -/
  | backspace
  | escape
  /-- a number typed as the point of study -/
  | typePoint (v : α)
  /-- a number typed as the low bound of the window -/
  | typeLow (v : α)
  /-- a number typed as the high bound of the window -/
  | typeHigh (v : α)
  /-- the window is painted, and nothing else -/
  | paint

namespace Session
variable {α : Type} [Number α]

def press (s : Session α) : Button → Session α
  | .clearEntry => s.clearEntry
  | .clearResults => s.clearResults
  | .reset => s.reset
  | .study => s.study
  | .insert k => { s with entry := k.insert s.entry, focused := true }

/-- The session after an action.  A number typed as the point of study studies the entry again if
there are results.  The key that ends a line is for an entry that is about to take the keyboard:
where the entry has it already, the key takes it away. -/
def step (s : Session α) : Action α → Session α
  | .edit t => { s with entry := t }
  | .press b => s.press b
  | .enter => if s.focused then s.study else s
  | .backspace => { s with entry := Entry.erase s.entry, focused := true }
  | .escape => s.clearEntry.unfocus
  | .typePoint v =>
    let t := s.setPoint v
    if t.curves.isSome then t.study else t
  | .typeLow v => (s.setWindow v s.window.hi).unfocus
  | .typeHigh v => (s.setWindow s.window.lo v).unfocus
  | .paint => s.unfocus

/-- the session after several actions -/
def run (s : Session α) (as : List (Action α)) : Session α := as.foldl step s

end Session

end CurveStudy
