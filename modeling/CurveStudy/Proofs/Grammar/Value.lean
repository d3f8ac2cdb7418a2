import Mathlib.Tactic.Ring
import CurveStudy.Proofs.Exact
import CurveStudy.Proofs.Grammar.Basic

/-!
# The value of a derivation

What a derivation stands for, without a tree: sums and products are taken from left to right, a
minus in front is the opposite of the whole power behind it, and an exponent is the number that it
is at zero.

* `Sum.value`       this for a sum, and so on for the other lines;
* `Sum.eval_tree`   over exact numbers it is the value of the tree.
-/

namespace CurveStudy.Grammar
open CurveStudy.Expr
open Arith (half)
open Scalar (pow apply pi)

variable {α : Type}

section
variable [Scalar α]

def Callee.value : Callee → α → α
  | .trig k, y => apply k y
  | .sqrt, y => pow y half

mutual
def Sum.value (x : α) : Sum α → α
  | .mk p ts => ts.value x (p.value x)

/-- the terms added to `a` -/
def Terms.value (x a : α) : Terms α → α
  | .nil => a
  | .plus p ts => ts.value x (a + p.value x)
  | .minus p ts => ts.value x (a - p.value x)

def Product.value (x : α) : Product α → α
  | .mk s fs => fs.value x (s.value x)

/-- `a` multiplied and divided by the operands -/
def Factors.value (x a : α) : Factors α → α
  | .nil => a
  | .times s fs => fs.value x (a * s.value x)
  | .slash s fs => fs.value x (a / s.value x)
  | .next p fs => fs.value x (a * p.value x)

def Signed.value (x : α) : Signed α → α
  | .plus p => p.value x
  | .minus p => -p.value x

def Power.value (x : α) : Power α → α
  | .atom a => a.value x
  | .raised a n => pow (a.value x) (n.value 0)

def Atom.value (x : α) : Atom α → α
  | .num v => v
  | .pi => pi
  | .var => x
  | .call f s => f.value (s.value x)
  | .brackets s => s.value x
end

end

section
variable [Exact α]

@[simp] theorem eval_join_product (x : α) (e f : Expr α) :
    (join e f .product).eval x = e.eval x * f.eval x := by
  rw [join, eval_productOf_pair, one_mul]

@[simp] theorem eval_join_quotient (x : α) (e f : Expr α) :
    (join e f .quotient).eval x = e.eval x / f.eval x := by
  rw [join, eval_quotient, one_mul]

theorem Callee.eval_tree (x : α) (f : Callee) (e : Expr α) :
    (f.tree e).eval x = f.value (e.eval x) := by
  cases f with
  | trig k => exact one_mul _
  | sqrt =>
    show (powerOf e half 1).eval x = _
    rw [eval_powerOf, one_mul]
    rfl

mutual
theorem Sum.eval_tree (d : Sum α) (x : α) : d.tree.eval x = d.value x := by
  cases d with
  | mk p ts =>
    show (sumOf (p.tree :: ts.trees)).eval x = ts.value x (p.value x)
    rw [eval_sumOf, List.map_cons, List.sum_cons, p.eval_tree x, ts.add_sum_trees x]
termination_by structural d

theorem Terms.add_sum_trees (d : Terms α) (x : α) (a : α) :
    a + (d.trees.map (eval x)).sum = d.value x a := by
  cases d with
  | nil => exact add_zero a
  | plus p ts =>
    show a + ((p.tree :: ts.trees).map (eval x)).sum = ts.value x (a + p.value x)
    rw [List.map_cons, List.sum_cons, ← add_assoc, p.eval_tree x, ts.add_sum_trees x]
  | minus p ts =>
    show a + ((p.tree.scale (-1) :: ts.trees).map (eval x)).sum = ts.value x (a - p.value x)
    rw [List.map_cons, List.sum_cons, ← add_assoc, eval_scale, neg_one_mul, ← sub_eq_add_neg,
      p.eval_tree x, ts.add_sum_trees x]
termination_by structural d

theorem Product.eval_tree (d : Product α) (x : α) : d.tree.eval x = d.value x := by
  cases d with
  | mk s fs =>
    show (fs.tree s.tree).eval x = fs.value x (s.value x)
    rw [fs.eval_tree x, s.eval_tree x]
termination_by structural d

theorem Factors.eval_tree (d : Factors α) (x : α) (e : Expr α) :
    (d.tree e).eval x = d.value x (e.eval x) := by
  cases d with
  | nil => rfl
  | times s fs =>
    show (fs.tree (join e s.tree .product)).eval x = fs.value x (e.eval x * s.value x)
    rw [fs.eval_tree x, eval_join_product, s.eval_tree x]
  | slash s fs =>
    show (fs.tree (join e s.tree .quotient)).eval x = fs.value x (e.eval x / s.value x)
    rw [fs.eval_tree x, eval_join_quotient, s.eval_tree x]
  | next p fs =>
    show (fs.tree (join e p.tree .product)).eval x = fs.value x (e.eval x * p.value x)
    rw [fs.eval_tree x, eval_join_product, p.eval_tree x]
termination_by structural d

theorem Signed.eval_tree (d : Signed α) (x : α) : d.tree.eval x = d.value x := by
  cases d with
  | plus p => exact p.eval_tree x
  | minus p =>
    show (p.tree.scale (-1)).eval x = -p.value x
    rw [eval_scale, neg_one_mul, p.eval_tree x]
termination_by structural d

theorem Signed.number_eq (d : Signed α) : d.number = d.value 0 := by
  cases d with
  | plus p => exact p.eval_tree 0
  | minus p => exact congrArg Neg.neg (p.eval_tree 0)
termination_by structural d

theorem Power.eval_tree (d : Power α) (x : α) : d.tree.eval x = d.value x := by
  cases d with
  | atom a => exact a.eval_tree x
  | raised a n =>
    show (powerOf a.tree n.number 1).eval x = pow (a.value x) (n.value 0)
    rw [eval_powerOf, one_mul, a.eval_tree x, n.number_eq]
termination_by structural d

theorem Atom.eval_tree (d : Atom α) (x : α) : d.tree.eval x = d.value x := by
  cases d with
  | num v => rfl
  | pi => rfl
  | var => rfl
  | call f s =>
    show (f.tree s.tree).eval x = f.value (s.value x)
    rw [f.eval_tree, s.eval_tree x]
  | brackets s => exact s.eval_tree x
termination_by structural d
end

/-- a number in front of a product can be taken out of it -/
theorem Factors.value_mul (d : Factors α) (x c a : α) :
    d.value x (c * a) = c * d.value x a := by
  cases d with
  | nil => rfl
  | times s fs =>
    show fs.value x (c * a * s.value x) = c * fs.value x (a * s.value x)
    rw [mul_assoc, fs.value_mul]
  | slash s fs =>
    show fs.value x (c * a / s.value x) = c * fs.value x (a / s.value x)
    rw [Exact.mul_div, fs.value_mul]
  | next p fs =>
    show fs.value x (c * a * p.value x) = c * fs.value x (a * p.value x)
    rw [mul_assoc, fs.value_mul]
termination_by structural d

end

end CurveStudy.Grammar
