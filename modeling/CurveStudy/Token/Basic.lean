import CurveStudy.Scalar

/-!
# Tokens

A token is a symbol with its place, in bytes from the start of the text.  A name is any run of
letters: whether it is the variable, a function or nothing at all is for the reader of an
expression to say.
-/

namespace CurveStudy

inductive Symbol (α : Type) where
  | num (v : α)
  | pi
  | name (t : Text)
  | plus
  | minus
  | times
  | slash
  | caret
  | opening
  | closing

structure Token (α : Type) where
  symbol : Symbol α
  pos : Nat

variable {α : Type} [Literal α]

def Symbol.text : Symbol α → Text
  | .num v => Literal.text v
  | .pi => ['π']
  | .name t => t
  | .plus => ['+']
  | .minus => ['-']
  | .times => ['*']
  | .slash => ['/']
  | .caret => ['^']
  | .opening => ['(']
  | .closing => [')']

/-- the texts of the symbols with a space between two of them -/
def Token.textOf (ts : List (Token α)) : Text :=
  Text.joinWith [' '] (ts.map fun t => t.symbol.text)

end CurveStudy
