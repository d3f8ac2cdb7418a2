import CurveStudy.Trig
import CurveStudy.Text.Blank

/-!
# Keys that insert a symbol

Each key adds a symbol to the end of the entry, with the spaces that keep it apart from what stands
there: a name is never run together with a name before it.

* `Key.text`     what the key inserts;
* `Key.insert`   the entry after the key.
-/

namespace CurveStudy

inductive Key where
  | opening
  | closing
  | plus
  | minus
  | times
  | slash
  | caret
  | x
  | pi
  | sqrt
  | trig (k : Trig)
  deriving DecidableEq

namespace Key

/-- what is written on the key -/
def label : Key → Text
  | opening => ['(']
  | closing => [')']
  | plus => ['+']
  | minus => ['-']
  | times => ['*']
  | slash => ['/']
  | caret => ['^']
  | x => ['x']
  | pi => "pi".toList
  | sqrt => "sqrt".toList
  | trig k => k.name

def all : List Key :=
  [opening, closing, plus, minus, times, slash, caret, x, pi, sqrt] ++ Trig.all.map trig

@[simp] theorem mem_all (k : Key) : k ∈ all := by
  cases k with
  | trig k => exact List.mem_append_right _ (List.mem_map_of_mem (Trig.mem_all k))
  | _ => decide

/-- the key with the given label -/
def ofLabel? (t : Text) : Option Key := all.find? fun k => k.label == t

/-- what the key inserts, without spaces: a function comes with its bracket -/
def text : Key → Text
  | sqrt => "sqrt(".toList
  | trig k => k.name ++ ['(']
  | k => k.label

end Key

namespace Text

/-- the last character that is not blank -/
def lastSolid? (t : Text) : Option Char := t.reverse.find? fun c => !isBlank c

/-- the text without the spaces at its end; other blanks stay -/
def trimSpaces (t : Text) : Text := trimEndWith (· == ' ') t

/-- the text, with a space after it if its last character that is not blank could be the end of a
name or is a closing bracket -/
def spaced (t : Text) : Text :=
  if t.lastSolid?.any fun c => c.isAlpha || c == ')' then t ++ [' '] else t

/-- the last character is blank -/
def endsBlank (t : Text) : Bool := t.getLast?.any isBlank

end Text

namespace Key

/-- an operator with a space on either side, but none at the start of the entry -/
def insertOperator (s : Text) (t : Text) : Text :=
  let before := t.trimSpaces
  (if before.isEmpty then before else before ++ [' ']) ++ s ++ [' ']

/-- the entry `t` after the key -/
def insert (k : Key) (t : Text) : Text :=
  match k with
  | closing => t.trimSpaces ++ k.text
  | plus | minus | times | slash | caret => insertOperator k.text t
  | x | pi => (if t.endsBlank then t else t.spaced) ++ k.text
  | opening | sqrt | trig _ => t.spaced ++ k.text

end Key

end CurveStudy
