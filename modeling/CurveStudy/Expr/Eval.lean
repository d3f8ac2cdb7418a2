import CurveStudy.Expr.Basic

/-!
# The value of a tree

`e.eval x` is the value of the tree `e` at `x`.  Evaluation is total: a division by zero or a
function outside its domain has the value that the arithmetic of the number type gives it.

Terms and factors are taken from left to right, and a coefficient is multiplied in last, but for a
quotient, where it multiplies the numerator.
-/

namespace CurveStudy.Expr
open Scalar (pow apply)

variable {α : Type} [Scalar α]

mutual
def eval (x : α) : Expr α → α
  | .const c => c
  | .var => x
  | .sum ts => (evalEach x ts).foldl (· + ·) 0
  | .product fs c => c * (evalEach x fs).foldl (· * ·) 1
  | .power b n c => c * pow (eval x b) n
  | .quotient a b c => c * eval x a / eval x b
  | .trig k a c => c * apply k (eval x a)

def evalEach (x : α) : List (Expr α) → List α
  | [] => []
  | e :: es => eval x e :: evalEach x es
end

@[simp] theorem evalEach_eq_map (x : α) (es : List (Expr α)) : evalEach x es = es.map (eval x) := by
  induction es with
  | nil => rfl
  | cons e es ih => rw [evalEach, ih, List.map_cons]

@[simp] theorem eval_const (x c : α) : (const c).eval x = c := rfl
@[simp] theorem eval_var (x : α) : var.eval x = x := rfl
@[simp] theorem eval_sum (x : α) (ts : List (Expr α)) :
    (sum ts).eval x = (ts.map (eval x)).foldl (· + ·) 0 := by simp [eval]
@[simp] theorem eval_product (x : α) (fs : List (Expr α)) (c : α) :
    (product fs c).eval x = c * (fs.map (eval x)).foldl (· * ·) 1 := by simp [eval]
@[simp] theorem eval_power (x : α) (b : Expr α) (n c : α) :
    (power b n c).eval x = c * pow (b.eval x) n := rfl
@[simp] theorem eval_quotient (x : α) (a b : Expr α) (c : α) :
    (quotient a b c).eval x = c * a.eval x / b.eval x := rfl
@[simp] theorem eval_trig (x : α) (k : Trig) (a : Expr α) (c : α) :
    (trig k a c).eval x = c * apply k (a.eval x) := rfl

end CurveStudy.Expr
