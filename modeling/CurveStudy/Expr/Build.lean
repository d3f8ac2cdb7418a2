import CurveStudy.Expr.Basic

/-!
# Building trees

Constructors that fold what the coefficients can hold, and nothing more.

* `Expr.sumOf`       a sum without sums among its terms and without zeros;
* `Expr.productOf`   a product whose constants and coefficients are gathered in one;
* `Expr.powerOf`     a power that is not the power zero, one, or of a plain constant.

`sumOf` and `productOf` give back a single term or factor as it is; with none they are a constant.
-/

namespace CurveStudy.Expr
open Scalar (isFinite pow)

variable {α : Type} [Scalar α]

/-- the terms that a tree gives to a sum around it -/
def terms : Expr α → List (Expr α)
  | .sum ts => ts
  | .const c => if c == 0 then [] else [.const c]
  | e => [e]

/-- the sum of the trees -/
def sumOf (es : List (Expr α)) : Expr α :=
  match es.flatMap terms with
  | [] => .const 0
  | [e] => e
  | ts => .sum ts

/-- the factors that a tree at coefficient one gives to a product around it -/
def factors : Option (Expr α) → List (Expr α)
  | none => []
  | some (.product fs _) => fs
  | some e => [e]

/-- a coefficient and a tree at coefficient one, put together -/
def rejoin (k : α) : Option (Expr α) → Expr α
  | none => .const k
  | some e => e.scale k

/-- The coefficients of the trees, gathered in `c` from left to right, and their factors.  A tree
whose coefficient would make `c` infinite is a factor with its coefficient. -/
def gather : (c : α) → List (Expr α) → α × List (Expr α)
  | c, [] => (c, [])
  | c, e :: es =>
    let k := e.split.1
    let bare := e.split.2
    if isFinite (c * k) then
      let rest := gather (c * k) es
      (rest.1, factors bare ++ rest.2)
    else
      let rest := gather c es
      (rest.1, rejoin k bare :: rest.2)

@[simp] theorem gather_nil (c : α) : gather c [] = (c, []) := rfl

theorem gather_cons_of_isFinite {c : α} {e : Expr α} (h : isFinite (c * e.split.1))
    (es : List (Expr α)) :
    gather c (e :: es)
      = ((gather (c * e.split.1) es).1, factors e.split.2 ++ (gather (c * e.split.1) es).2) := by
  rw [gather, if_pos h]

theorem gather_cons_of_not_isFinite {c : α} {e : Expr α} (h : ¬ isFinite (c * e.split.1))
    (es : List (Expr α)) :
    gather c (e :: es) = ((gather c es).1, rejoin e.split.1 e.split.2 :: (gather c es).2) := by
  rw [gather, if_neg h]

/-- `c` times the product of the trees; the constant zero as soon as the coefficient is zero, also
where a factor has a pole -/
def productOf (es : List (Expr α)) (c : α) : Expr α :=
  let total := (gather c es).1
  if total == 0 then .const 0
  else
    match (gather c es).2 with
    | [] => .const total
    | [e] => e.scale total
    | fs => .product fs total

/-- `c` times the power `n` of a constant, folded if the result is finite -/
def constPower (b n c : α) : Expr α :=
  if isFinite (c * pow b n) then .const (c * pow b n) else .power (.const b) n c

/-- `c` times the power `n` of the base -/
def powerOf (base : Expr α) (n c : α) : Expr α :=
  if n == 0 then .const c
  else if n == 1 then base.scale c
  else
    match base with
    | .const b => constPower b n c
    | b => .power b n c

end CurveStudy.Expr
