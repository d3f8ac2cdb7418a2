import CurveStudy.Text.Basic

/-!
# The twenty-four trigonometric functions

Circular and hyperbolic functions, their reciprocals and their inverses.  `Trig` is the closed list
of them, `name` is how a text calls each one and `ofName?` finds a function by its name.

* `name_injective`   no two functions share a name;
* `ofName?_name`     a function is found by its own name.
-/

namespace CurveStudy

inductive Trig where
  | sin | cos | tan | csc | sec | cot
  | arcsin | arccos | arctan | arccsc | arcsec | arccot
  | sinh | cosh | tanh | csch | sech | coth
  | arcsinh | arccosh | arctanh | arccsch | arcsech | arccoth
  deriving DecidableEq

namespace Trig

def all : List Trig :=
  [sin, cos, tan, csc, sec, cot, arcsin, arccos, arctan, arccsc, arcsec, arccot,
   sinh, cosh, tanh, csch, sech, coth, arcsinh, arccosh, arctanh, arccsch, arcsech, arccoth]

@[simp] theorem mem_all (k : Trig) : k ∈ all := by cases k <;> decide

/-- the name of the function in a text, in small letters -/
def name : Trig → Text
  | sin => "sin".toList
  | cos => "cos".toList
  | tan => "tan".toList
  | csc => "csc".toList
  | sec => "sec".toList
  | cot => "cot".toList
  | arcsin => "arcsin".toList
  | arccos => "arccos".toList
  | arctan => "arctan".toList
  | arccsc => "arccsc".toList
  | arcsec => "arcsec".toList
  | arccot => "arccot".toList
  | sinh => "sinh".toList
  | cosh => "cosh".toList
  | tanh => "tanh".toList
  | csch => "csch".toList
  | sech => "sech".toList
  | coth => "coth".toList
  | arcsinh => "arcsinh".toList
  | arccosh => "arccosh".toList
  | arctanh => "arctanh".toList
  | arccsch => "arccsch".toList
  | arcsech => "arcsech".toList
  | arccoth => "arccoth".toList

/-- the function called `t` -/
def ofName? (t : Text) : Option Trig := all.find? fun k => k.name == t

theorem ofName?_name (k : Trig) : ofName? k.name = some k := by cases k <;> decide

theorem name_injective {j k : Trig} (h : j.name = k.name) : j = k :=
  Option.some.inj (by rw [← ofName?_name j, ← ofName?_name k, h])

theorem name_of_ofName? {t : Text} {k : Trig} (h : ofName? t = some k) : k.name = t := by
  have := List.find?_some h
  exact eq_of_beq this

end Trig

end CurveStudy
