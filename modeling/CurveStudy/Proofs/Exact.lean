import Mathlib.Algebra.BigOperators.Group.List.Basic
import Mathlib.Algebra.BigOperators.Ring.List
import Mathlib.Tactic.Ring
import CurveStudy.Expr.Build
import CurveStudy.Expr.Eval
import CurveStudy.Proofs.Induction

/-!
# Trees over exact numbers

Exact numbers are a commutative ring with a division where `c * a / b = c * (a / b)` and with
powers where `b ^ 0 = 1` and `b ^ 1 = b`.  Nothing is known of the twenty-four functions, nor of
which numbers count as finite: a coefficient may be kept apart anywhere.

Over exact numbers a tree made by a constructor has the value that the constructor is named for.

* `eval_scale`       `k` times the value;
* `eval_sumOf`       the sum of the values;
* `eval_productOf`   `c` times the product of the values;
* `eval_powerOf`     `c` times a power of the value;
* `eval_constructors`   all of them.
-/

namespace CurveStudy
open Scalar (pow apply)

class Exact (α : Type) extends Scalar α, CommRing α where
  [lawfulBEq : LawfulBEq α]
  mul_div (c a b : α) : c * a / b = c * (a / b)
  pow_zero (b : α) : pow b 0 = 1
  pow_one (b : α) : pow b 1 = b

attribute [instance] Exact.lawfulBEq

/-- the numbers are exact -/
def IsExact (α : Type) [S : Scalar α] : Prop := ∃ E : Exact α, E.toScalar = S

namespace Exact
variable {α : Type} [Exact α]

@[simp] theorem zero_div (b : α) : 0 / b = 0 := by
  have h : (0 * 0 : α) / b = 0 * (0 / b) := mul_div 0 0 b
  rwa [zero_mul, zero_mul] at h

@[simp] theorem neg_div (a b : α) : -a / b = -(a / b) := by
  rw [← neg_one_mul a, mul_div, neg_one_mul]

end Exact

namespace Expr
variable {α : Type} [Exact α]

@[simp high] theorem eval_sum_eq (x : α) (ts : List (Expr α)) :
    (sum ts).eval x = (ts.map (eval x)).sum := by
  rw [eval_sum, ← List.sum_eq_foldl]

@[simp high] theorem eval_product_eq (x : α) (fs : List (Expr α)) (c : α) :
    (product fs c).eval x = c * (fs.map (eval x)).prod := by
  rw [eval_product, ← List.prod_eq_foldl]

/-! ## multiples -/

theorem eval_scaleRoot (x k : α) {e : Expr α} (h : e.isSum = false) :
    (e.scaleRoot k).eval x = k * e.eval x := by
  cases e with
  | const c => rfl
  | var => simp [scaleRoot]
  | sum ts => cases h
  | product fs c => simp [scaleRoot, mul_assoc]
  | power b n c => simp [scaleRoot, mul_assoc]
  | quotient a b c => simp [scaleRoot, mul_assoc, Exact.mul_div]
  | trig f a c => simp [scaleRoot, mul_assoc]

theorem eval_scale_of_isSum_eq_false (x k : α) {e : Expr α} (h : e.isSum = false) :
    (e.scale k).eval x = k * e.eval x := by
  rw [scale_of_isSum_eq_false k h]
  split
  · rename_i hk
    rw [eq_of_beq hk, one_mul]
  · split
    · exact eval_scaleRoot x k h
    · simp

@[simp] theorem eval_scale (x k : α) (e : Expr α) : (e.scale k).eval x = k * e.eval x := by
  induction e with
  | sum ts ih =>
    rw [scale_sum]
    split
    · rename_i hk
      rw [eq_of_beq hk, one_mul]
    · rw [eval_sum_eq, eval_sum_eq, List.map_map, ← List.sum_map_mul_left]
      exact congrArg List.sum (List.map_congr_left ih)
  | _ => exact eval_scale_of_isSum_eq_false x k rfl

/-! ## sums -/

@[simp] theorem sum_eval_terms (x : α) (e : Expr α) : (e.terms.map (eval x)).sum = e.eval x := by
  cases e with
  | const c =>
    rw [terms]
    split
    · rename_i hc
      rw [eval_const, eq_of_beq hc]
      rfl
    · exact List.sum_singleton
  | sum ts => simp [terms]
  | _ => exact List.sum_singleton

theorem sum_eval_flatMap_terms (x : α) (es : List (Expr α)) :
    ((es.flatMap terms).map (eval x)).sum = (es.map (eval x)).sum := by
  induction es with
  | nil => rfl
  | cons e es ih => simp [ih]

@[simp] theorem eval_sumOf (x : α) (es : List (Expr α)) :
    (sumOf es).eval x = (es.map (eval x)).sum := by
  rw [← sum_eval_flatMap_terms, sumOf]
  split
  · rename_i h
    rw [h]
    rfl
  · rename_i e h
    simp [h]
  · simp

theorem eval_sumOf_pair (x : α) (a b : Expr α) : (sumOf [a, b]).eval x = a.eval x + b.eval x := by
  simp

/-! ## products -/

/-- the coefficient of the root and the factors that are left make up the value -/
theorem split_mul_prod_factors (x : α) (e : Expr α) :
    e.split.1 * ((factors e.split.2).map (eval x)).prod = e.eval x := by
  cases e with
  | const c => exact mul_one c
  | var => exact (one_mul _).trans List.prod_singleton
  | sum ts => exact (one_mul _).trans List.prod_singleton
  | product fs c => exact (eval_product_eq x fs c).symm
  | power b n c =>
    show c * ([power b n 1].map (eval x)).prod = (power b n c).eval x
    simp
  | quotient a b c =>
    show c * ([quotient a b 1].map (eval x)).prod = (quotient a b c).eval x
    simp [Exact.mul_div]
  | trig k a c =>
    show c * ([trig k a 1].map (eval x)).prod = (trig k a c).eval x
    simp

@[simp] theorem eval_rejoin_split (x : α) (e : Expr α) :
    (rejoin e.split.1 e.split.2).eval x = e.eval x := by
  cases e with
  | const c => rfl
  | var => exact (eval_scale x 1 _).trans (one_mul _)
  | sum ts => exact (eval_scale x 1 _).trans (one_mul _)
  | product fs c =>
    show ((product fs 1).scale c).eval x = _
    simp
  | power b n c =>
    show ((power b n 1).scale c).eval x = _
    simp
  | quotient a b c =>
    show ((quotient a b 1).scale c).eval x = _
    simp [Exact.mul_div]
  | trig k a c =>
    show ((trig k a 1).scale c).eval x = _
    simp

/-- gathering coefficients keeps the product, whichever of them stay with their factor -/
theorem gather_mul_prod (x c : α) (es : List (Expr α)) :
    (gather c es).1 * ((gather c es).2.map (eval x)).prod = c * (es.map (eval x)).prod := by
  induction es generalizing c with
  | nil => rfl
  | cons e es ih =>
    rw [List.map_cons, List.prod_cons]
    by_cases h : Scalar.isFinite (c * e.split.1)
    · rw [gather_cons_of_isFinite h, List.map_append, List.prod_append,
        ← split_mul_prod_factors x e]
      have h' := ih (c * e.split.1)
      calc _ = ((factors e.split.2).map (eval x)).prod * ((gather (c * e.split.1) es).1
              * ((gather (c * e.split.1) es).2.map (eval x)).prod) := by ring
        _ = _ := by rw [h']; ring
    · rw [gather_cons_of_not_isFinite h, List.map_cons, List.prod_cons, eval_rejoin_split,
        mul_left_comm, ih c, mul_left_comm]

@[simp] theorem eval_productOf (x : α) (es : List (Expr α)) (c : α) :
    (productOf es c).eval x = c * (es.map (eval x)).prod := by
  rw [← gather_mul_prod, productOf]
  split
  · rename_i h0
    rw [eq_of_beq h0, zero_mul, eval_const]
  · split
    · rename_i h
      simp [h]
    · rename_i e h
      simp [h]
    · simp

theorem eval_productOf_pair (x : α) (a b : Expr α) (c : α) :
    (productOf [a, b] c).eval x = c * (a.eval x * b.eval x) := by
  simp

/-! ## powers -/

@[simp] theorem eval_constPower (x b n c : α) : (constPower b n c).eval x = c * pow b n := by
  rw [constPower]
  split <;> rfl

@[simp] theorem eval_powerOf (x : α) (b : Expr α) (n c : α) :
    (powerOf b n c).eval x = c * pow (b.eval x) n := by
  unfold powerOf
  split
  · rename_i h0
    rw [eq_of_beq h0, Exact.pow_zero, mul_one, eval_const]
  · split
    · rename_i h1
      rw [eq_of_beq h1, Exact.pow_one, eval_scale]
    · split
      · exact eval_constPower x _ n c
      · rfl

/-- A tree made by a constructor has the value that the constructor is named for: for all trees,
lists of trees and numbers, at every number, and whatever numbers count as finite. -/
theorem eval_constructors (x : α) :
    (∀ es : List (Expr α), (sumOf es).eval x = (es.map (eval x)).sum)
    ∧ (∀ (es : List (Expr α)) (c : α), (productOf es c).eval x = c * (es.map (eval x)).prod)
    ∧ (∀ (b : Expr α) (n c : α), (powerOf b n c).eval x = c * pow (b.eval x) n)
    ∧ ∀ (e : Expr α) (k : α), (e.scale k).eval x = k * e.eval x :=
  ⟨eval_sumOf x, eval_productOf x, eval_powerOf x, fun e k => eval_scale x k e⟩

end Expr

end CurveStudy
