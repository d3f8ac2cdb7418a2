import CurveStudy.Entry.Key

/-!
# Erasing from the end of the entry

One step back takes a whole unit away: the name of a function with its bracket, the name `pi`, or
else one character.

* `trailingUnit?`   the longest unit of more than one character at the end of a text;
* `eraseUnit`       the text without its last unit and without the spaces around it;
* `completeErase`   what the entry becomes after its last character has been erased by hand.
-/

namespace CurveStudy.Entry

/-- the units of more than one character -/
def units : List Text := (Trig.all.map fun k => k.name ++ ['(']) ++ ["sqrt(".toList, "pi".toList]

/-- the longest of some texts, the first one of several -/
def longest? : List Text → Option Text
  | [] => none
  | t :: ts =>
    match longest? ts with
    | none => some t
    | some u => if t.length < u.length then some u else some t

/-- the longest unit of more than one character at the end of a text -/
def trailingUnit? (t : Text) : Option Text := longest? (units.filter fun u => u.isSuffixOf t)

/-- the text without its last unit, or without its last character if no unit stands there -/
def dropUnit (t : Text) : Text :=
  match trailingUnit? t with
  | some u => t.take (t.length - u.length)
  | none => t.dropLast

/-- the text without its last unit and without the spaces on both sides of it -/
def eraseUnit (t : Text) : Text := (dropUnit t.trimSpaces).trimSpaces

/-- The entry `now` after a character was erased from `before`.  If it was the last one, and the
end of a unit, then the whole unit goes. -/
def completeErase (before now : Text) : Text :=
  if now = before.dropLast ∧ (trailingUnit? before.trimEnd).isSome then eraseUnit before else now

/-- the entry after its last character was erased -/
def erase (t : Text) : Text := completeErase t t.dropLast

end CurveStudy.Entry
