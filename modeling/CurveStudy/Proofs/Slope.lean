import Mathlib.Algebra.BigOperators.Fin
import Mathlib.Tactic.Ring
import CurveStudy.Expr.Deriv
import CurveStudy.Proofs.Exact

/-!
# The derivative of a tree is its slope

`e.slope x` is the slope of the tree `e` at `x`, a number found by recursion on the tree as it is
written: no new tree is made and nothing is folded.  `k.slope y` is the slope of the function `k`
at `y`, in closed form.

* `eval_outer`            the outer derivative of a function has the value of the closed form;
* `sum_replacements`      replacing one factor at a time is the product rule;
* `eval_deriv_eq_slope`   the derivative of any tree has the slope of the tree as its value.
-/

namespace CurveStudy
open Arith (half)
open Scalar (pow apply)

/-- the slope of the function at `y` -/
def Trig.slope {α : Type} [Scalar α] : Trig → α → α
  | .sin, y => apply .cos y
  | .cos, y => -apply .sin y
  | .tan, y => pow (apply .sec y) two
  | .csc, y => -(apply .csc y * apply .cot y)
  | .sec, y => apply .sec y * apply .tan y
  | .cot, y => -pow (apply .csc y) two
  | .arcsin, y => 1 / pow (1 - pow y two) half
  | .arccos, y => -1 / pow (1 - pow y two) half
  | .arctan, y => 1 / (1 + pow y two)
  | .arccsc, y => -1 / (pow (1 - 1 / pow y two) half * pow y two)
  | .arcsec, y => 1 / (pow (1 - 1 / pow y two) half * pow y two)
  | .arccot, y => -1 / (1 + pow y two)
  | .sinh, y => apply .cosh y
  | .cosh, y => apply .sinh y
  | .tanh, y => pow (apply .sech y) two
  | .csch, y => -(apply .csch y * apply .coth y)
  | .sech, y => -(apply .sech y * apply .tanh y)
  | .coth, y => -pow (apply .csch y) two
  | .arcsinh, y => 1 / pow (pow y two + 1) half
  | .arccosh, y => 1 / pow (pow y two - 1) half
  | .arctanh, y => 1 / (1 - pow y two)
  | .arccsch, y => -1 / (pow (1 / pow y two + 1) half * pow y two)
  | .arcsech, y => -1 / (pow (1 / pow y two - 1) half * pow y two)
  | .arccoth, y => 1 / (1 - pow y two)

namespace Expr
variable {α : Type} [Exact α]

/-- the sum over all places of the slope there times the values at the other places -/
def leibniz (vs ds : List α) : α := ∑ i : Fin ds.length, ds[i] * (vs.eraseIdx i).prod

mutual
/-- the slope of the tree at `x` -/
def slope (x : α) : Expr α → α
  | .const _ => 0
  | .var => 1
  | .sum ts => (slopeEach x ts).sum
  | .product fs c => c * leibniz (fs.map (eval x)) (slopeEach x fs)
  | .power b n c => c * n * pow (b.eval x) (n - 1) * slope x b
  | .quotient a b c =>
    c * (slope x a * b.eval x - a.eval x * slope x b) / pow (b.eval x) two
  | .trig k a c => c * k.slope (a.eval x) * slope x a

def slopeEach (x : α) : List (Expr α) → List α
  | [] => []
  | e :: es => slope x e :: slopeEach x es
end

@[simp] theorem slopeEach_eq_map (x : α) (es : List (Expr α)) :
    slopeEach x es = es.map (slope x) := by
  induction es with
  | nil => rfl
  | cons e es ih => rw [slopeEach, ih, List.map_cons]

/-! ## the product rule -/

@[simp] theorem leibniz_cons (v d : α) (vs ds : List α) :
    leibniz (v :: vs) (d :: ds) = d * vs.prod + v * leibniz vs ds := by
  show ∑ i : Fin (ds.length + 1), (d :: ds)[i] * ((v :: vs).eraseIdx i).prod = _
  rw [Fin.sum_univ_succ, leibniz, Finset.mul_sum]
  congr 1
  refine Finset.sum_congr rfl fun i _ => ?_
  show ds[i] * (v :: vs.eraseIdx i).prod = _
  rw [List.prod_cons, mul_left_comm]

theorem sum_replacements (x : α) (es ds : List (Expr α)) (h : es.length = ds.length) :
    ((replacements es ds).map fun fs => (fs.map (eval x)).prod).sum
      = leibniz (es.map (eval x)) (ds.map (eval x)) := by
  induction es generalizing ds with
  | nil =>
    obtain rfl := List.eq_nil_of_length_eq_zero h.symm
    rfl
  | cons e es ih =>
    cases ds with
    | nil => exact absurd h (Nat.succ_ne_zero _)
    | cons d ds =>
      simp [replacements, ← ih ds (Nat.succ.inj h), ← List.sum_map_mul_left, Function.comp_def]

/-! ## the outer derivatives -/

@[simp] theorem eval_square (x : α) (e : Expr α) (c : α) :
    (square e c).eval x = c * pow (e.eval x) two := eval_powerOf x e two c

@[simp] theorem eval_root (x : α) (e : Expr α) : (root e).eval x = pow (e.eval x) half := by
  simp [root]

@[simp] theorem eval_reciprocal (x : α) (e : Expr α) (c : α) :
    (reciprocal e c).eval x = c / e.eval x := by
  simp [reciprocal]

@[simp] theorem eval_oneMinusSquare (x : α) (y : Expr α) :
    (oneMinusSquare y).eval x = 1 - pow (y.eval x) two := by
  simp [oneMinusSquare, sub_eq_add_neg]

@[simp] theorem eval_onePlusSquare (x : α) (y : Expr α) :
    (onePlusSquare y).eval x = 1 + pow (y.eval x) two := by
  simp [onePlusSquare]

@[simp] theorem eval_reciprocalRoot (x : α) (e y : Expr α) (c : α) :
    (reciprocalRoot e y c).eval x = c / (pow (e.eval x) half * pow (y.eval x) two) := by
  simp [reciprocalRoot]

@[simp] theorem eval_oneMinusInverse (x : α) (y : Expr α) :
    (oneMinusInverse y).eval x = 1 - 1 / pow (y.eval x) two := by
  simp [oneMinusInverse, sub_eq_add_neg]

@[simp] theorem eval_inversePlus (x : α) (y : Expr α) (k : α) :
    (inversePlus y k).eval x = 1 / pow (y.eval x) two + k := by
  simp [inversePlus]

@[simp] theorem eval_outer (x : α) (k : Trig) (y : Expr α) :
    (outer k y).eval x = k.slope (y.eval x) := by
  cases k <;> simp [outer, Trig.slope, sub_eq_add_neg]

/-! ## the rules -/

theorem eval_of_isZero (x : α) {e : Expr α} (h : e.isZero) : e.eval x = 0 := by
  cases e with
  | const c => exact eq_of_beq h
  | _ => cases h

@[simp] theorem eval_quotientRule (x : α) (a a' b b' : Expr α) (c : α) :
    (quotientRule a a' b b' c).eval x
      = c * (a'.eval x * b.eval x - a.eval x * b'.eval x) / pow (b.eval x) two := by
  have h : (sumOf [productOf [a', b] 1, productOf [a, b'] (-1)]).eval x
      = a'.eval x * b.eval x - a.eval x * b'.eval x := by
    rw [eval_sumOf_pair, eval_productOf_pair, eval_productOf_pair]
    ring
  rw [← h]
  unfold quotientRule
  dsimp only
  split
  · rename_i h0
    rw [eval_of_isZero x h0, mul_zero, Exact.zero_div]
    rfl
  · simp

@[simp] theorem eval_powerRule (x : α) (b b' : Expr α) (n c : α) :
    (powerRule b b' n c).eval x = c * n * pow (b.eval x) (n - 1) * b'.eval x := by
  simp [powerRule]
  ring

theorem eval_deriv_eq_slope (e : Expr α) (x : α) : e.deriv.eval x = e.slope x := by
  induction e with
  | const c => rfl
  | var => rfl
  | sum ts ih =>
    rw [deriv, slope, eval_sumOf, derivEach_eq_map, slopeEach_eq_map, List.map_map]
    exact congrArg List.sum (List.map_congr_left ih)
  | product fs c ih =>
    have hp : ∀ gs : List (Expr α), (productOf gs 1).eval x = (gs.map (eval x)).prod := by
      intro gs
      rw [eval_productOf, one_mul]
    have hd : (derivEach fs).map (eval x) = slopeEach x fs := by
      rw [derivEach_eq_map, slopeEach_eq_map, List.map_map]
      exact List.map_congr_left ih
    have hl : fs.length = (derivEach fs).length := by simp
    rw [deriv, slope, eval_scale, eval_sumOf, List.map_map, ← hd, ← sum_replacements x fs _ hl]
    exact congrArg (fun vs => c * List.sum vs) (List.map_congr_left fun gs _ => hp gs)
  | power b n c ih => rw [deriv, slope, eval_powerRule, ih]
  | quotient a b c iha ihb => rw [deriv, slope, eval_quotientRule, iha, ihb]
  | trig k a c ih =>
    rw [deriv, slope, eval_productOf_pair, eval_outer, ih, mul_assoc]

end Expr

end CurveStudy
