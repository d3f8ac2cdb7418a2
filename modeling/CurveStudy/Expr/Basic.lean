import CurveStudy.Scalar

/-!
# Expressions in one variable

A tree over the variable `x`.  Every node but a sum and the variable carries a coefficient, so a
minus sign is a coefficient and never a node of its own; the exponent of a power is a number.

* `Expr.coeff`    the coefficient of the root, `1` where it has none;
* `Expr.scale`    a multiple of a tree without a node for the multiplication;
* `Expr.split`    the coefficient of the root and the tree at coefficient one.

`scale_sum` and `scale_of_isSum_eq_false` say what a multiple of a sum and of any other tree is.

A product of coefficients may not be finite.  It is then never formed: the factor stays apart, as a
node around the tree.
-/

namespace CurveStudy
open Scalar (isFinite)

inductive Expr (α : Type) where
  | const (c : α)
  | var
  | sum (terms : List (Expr α))
  | product (factors : List (Expr α)) (coeff : α)
  | power (base : Expr α) (exponent coeff : α)
  | quotient (num den : Expr α) (coeff : α)
  | trig (k : Trig) (arg : Expr α) (coeff : α)

namespace Expr
variable {α : Type}

def isSum : Expr α → Bool
  | .sum _ => true
  | _ => false

def isQuotient : Expr α → Bool
  | .quotient _ _ _ => true
  | _ => false

section
variable [Scalar α]

/-- the coefficient of the root, a constant being its own -/
def coeff : Expr α → α
  | .const c => c
  | .var | .sum _ => 1
  | .product _ c | .power _ _ c | .quotient _ _ c | .trig _ _ c => c

/-- `k` multiplied into the coefficient of the root; a sum has none and stays as it is -/
def scaleRoot (k : α) : Expr α → Expr α
  | .const c => .const (k * c)
  | .var => .product [.var] k
  | .sum ts => .sum ts
  | .product fs c => .product fs (k * c)
  | .power b n c => .power b n (k * c)
  | .quotient a b c => .quotient a b (k * c)
  | .trig f a c => .trig f a (k * c)

mutual
/-- `k` times the tree: term by term in a sum, else in the coefficient of the root, or around the
tree if that coefficient would not be finite -/
def scale (k : α) : Expr α → Expr α
  | .sum ts => if k == 1 then .sum ts else .sum (scaleEach k ts)
  | e => if k == 1 then e
    else if isFinite (k * e.coeff) then e.scaleRoot k
    else .product [e] k

def scaleEach (k : α) : List (Expr α) → List (Expr α)
  | [] => []
  | e :: es => scale k e :: scaleEach k es
end

@[simp] theorem scaleEach_eq_map (k : α) (es : List (Expr α)) :
    scaleEach k es = es.map (scale k) := by
  induction es with
  | nil => rfl
  | cons e es ih => rw [scaleEach, ih, List.map_cons]

@[simp] theorem scale_sum (k : α) (ts : List (Expr α)) :
    (sum ts).scale k = if k == 1 then sum ts else sum (ts.map (scale k)) := by
  rw [scale, scaleEach_eq_map]

theorem scale_of_isSum_eq_false (k : α) {e : Expr α} (h : e.isSum = false) :
    e.scale k =
      if k == 1 then e
      else if isFinite (k * e.coeff) then e.scaleRoot k
      else .product [e] k := by
  cases e with
  | sum ts => cases h
  | _ => rfl

theorem scale_of_beq_one {k : α} (h : k == 1) (e : Expr α) : e.scale k = e := by
  cases he : e.isSum with
  | false => rw [scale_of_isSum_eq_false k he, if_pos h]
  | true =>
    cases e with
    | sum ts => rw [scale_sum, if_pos h]
    | _ => cases he

/-- the coefficient of the root, and the tree at coefficient one; of a constant nothing is left -/
def split : Expr α → α × Option (Expr α)
  | .const c => (c, none)
  | .var => (1, some .var)
  | .sum ts => (1, some (.sum ts))
  | .product fs c => (c, some (.product fs 1))
  | .power b n c => (c, some (.power b n 1))
  | .quotient a b c => (c, some (.quotient a b 1))
  | .trig f a c => (c, some (.trig f a 1))

@[simp] theorem split_fst (e : Expr α) : e.split.1 = e.coeff := by cases e <;> rfl

end

end Expr

end CurveStudy
