import Mathlib
import CurveStudy.Proofs.Slope

/-!
# The outer derivatives over the real numbers

The real numbers as exact numbers with the real elementary functions.  The twenty-four functions are
those that `Elementary.value` gives: a reciprocal is one over its primary function, an inverse
reciprocal is the inverse at one over the argument, and an inverse hyperbolic function is a
logarithm.

* `Trig.Interior`      the interior of the domain of a function;
* `hasDerivAt_one_div`, `hasDerivAt_inverse`   reciprocals, and functions of reciprocals;
* `hasDerivAt_slope`   the closed form of the slope is the derivative there;
* `hasDerivAt_outer`   so is the value of the outer derivative as a tree.
-/

namespace CurveStudy
open Arith (half)
open Scalar (pow apply)

noncomputable instance : Elementary ℝ where
  half := 1 / 2
  sin := Real.sin
  cos := Real.cos
  tan := Real.tan
  arcsin := Real.arcsin
  arccos := Real.arccos
  arctan := Real.arctan
  sinh := Real.sinh
  cosh := Real.cosh
  tanh := Real.tanh
  log := Real.log
  sqrt := Real.sqrt

noncomputable instance : Scalar ℝ where
  beq x y := decide (x = y)
  pi := Real.pi
  pow := Real.rpow
  apply := Elementary.value
  isFinite _ := true

noncomputable instance : Exact ℝ where
  __ := (inferInstance : Scalar ℝ)
  __ := (inferInstance : CommRing ℝ)
  lawfulBEq := inferInstanceAs (@LawfulBEq ℝ instBEqOfDecidableEq)
  mul_div c a b := mul_div_assoc c a b
  pow_zero b := Real.rpow_zero b
  pow_one b := Real.rpow_one b

/-- the interior of the domain of the function -/
def Trig.Interior : Trig → ℝ → Prop
  | .sin, _ | .cos, _ | .arctan, _ | .sinh, _ | .cosh, _ | .tanh, _ | .sech, _ | .arcsinh, _ => True
  | .tan, y | .sec, y => Real.cos y ≠ 0
  | .csc, y | .cot, y => Real.sin y ≠ 0 ∧ Real.cos y ≠ 0
  | .arcsin, y | .arccos, y | .arctanh, y => |y| < 1
  | .arccsc, y | .arcsec, y | .arccoth, y => 1 < |y|
  | .arccot, y | .csch, y | .coth, y | .arccsch, y => y ≠ 0
  | .arccosh, y => 1 < y
  | .arcsech, y => 0 < y ∧ y < 1

namespace Trig

theorem pow_two_eq (y : ℝ) : pow y two = y ^ 2 := by
  show y ^ (1 + 1 : ℝ) = y ^ 2
  rw [one_add_one_eq_two, Real.rpow_two]

theorem pow_half_eq (y : ℝ) : pow y half = √y := (Real.sqrt_eq_rpow y).symm

section
variable {f : ℝ → ℝ} {f' y : ℝ}

theorem hasDerivAt_one_div (h : HasDerivAt f f' y) (h0 : f y ≠ 0) :
    HasDerivAt (fun y => 1 / f y) (-f' / f y ^ 2) y := by
  simp only [one_div]
  exact h.fun_inv h0

theorem hasDerivAt_inverse (h0 : y ≠ 0) (h : HasDerivAt f f' (1 / y)) :
    HasDerivAt (fun y => f (1 / y)) (-f' / y ^ 2) y := by
  refine (h.comp y (hasDerivAt_one_div (hasDerivAt_id y) h0)).congr_deriv ?_
  show f' * (-1 / y ^ 2) = -f' / y ^ 2
  ring

end

theorem ne_zero_of_one_lt_abs {y : ℝ} (h : 1 < |y|) : y ≠ 0 :=
  abs_pos.1 (one_pos.trans h)

theorem abs_one_div_lt_one {y : ℝ} (h : 1 < |y|) : |1 / y| < 1 := by
  rw [abs_one_div]
  exact (div_lt_one (one_pos.trans h)).2 h

/-! ## circular functions -/

section
variable {y : ℝ}

theorem hasDerivAt_tan (h : Real.cos y ≠ 0) : HasDerivAt (apply .tan) (slope .tan y) y := by
  refine (Real.hasDerivAt_tan h).congr_deriv ?_
  show 1 / Real.cos y ^ 2 = pow (1 / Real.cos y) two
  rw [pow_two_eq, one_div_pow]

theorem hasDerivAt_csc (hs : Real.sin y ≠ 0) (hc : Real.cos y ≠ 0) :
    HasDerivAt (apply .csc) (slope .csc y) y := by
  refine (hasDerivAt_one_div (Real.hasDerivAt_sin y) hs).congr_deriv ?_
  show -Real.cos y / Real.sin y ^ 2 = -(1 / Real.sin y * (1 / Real.tan y))
  rw [Real.tan_eq_sin_div_cos]
  field_simp

theorem hasDerivAt_sec (hc : Real.cos y ≠ 0) : HasDerivAt (apply .sec) (slope .sec y) y := by
  refine (hasDerivAt_one_div (Real.hasDerivAt_cos y) hc).congr_deriv ?_
  show -(-Real.sin y) / Real.cos y ^ 2 = 1 / Real.cos y * Real.tan y
  rw [Real.tan_eq_sin_div_cos]
  field_simp

theorem hasDerivAt_cot (hs : Real.sin y ≠ 0) (hc : Real.cos y ≠ 0) :
    HasDerivAt (apply .cot) (slope .cot y) y := by
  have ht : Real.tan y ≠ 0 := by
    rw [Real.tan_eq_sin_div_cos]
    exact div_ne_zero hs hc
  refine (hasDerivAt_one_div (Real.hasDerivAt_tan hc) ht).congr_deriv ?_
  show -(1 / Real.cos y ^ 2) / Real.tan y ^ 2 = -pow (1 / Real.sin y) two
  rw [pow_two_eq, Real.tan_eq_sin_div_cos]
  field_simp

/-! ## inverse circular functions -/

theorem hasDerivAt_arcsin (h : |y| < 1) : HasDerivAt (apply .arcsin) (slope .arcsin y) y := by
  obtain ⟨h1, h2⟩ := abs_lt.1 h
  refine (Real.hasDerivAt_arcsin h1.ne' h2.ne).congr_deriv ?_
  show 1 / √(1 - y ^ 2) = 1 / pow (1 - pow y two) half
  rw [pow_half_eq, pow_two_eq]

theorem hasDerivAt_arccos (h : |y| < 1) : HasDerivAt (apply .arccos) (slope .arccos y) y := by
  obtain ⟨h1, h2⟩ := abs_lt.1 h
  refine (Real.hasDerivAt_arccos h1.ne' h2.ne).congr_deriv ?_
  show -(1 / √(1 - y ^ 2)) = -1 / pow (1 - pow y two) half
  rw [pow_half_eq, pow_two_eq, neg_div]

theorem hasDerivAt_arctan (y : ℝ) : HasDerivAt (apply .arctan) (slope .arctan y) y := by
  refine (Real.hasDerivAt_arctan y).congr_deriv ?_
  show 1 / (1 + y ^ 2) = 1 / (1 + pow y two)
  rw [pow_two_eq]

/-- the square root in a slope is that of an even function, so it has no sign to lose -/
theorem hasDerivAt_arccsc (h : 1 < |y|) : HasDerivAt (apply .arccsc) (slope .arccsc y) y := by
  have hi := hasDerivAt_arcsin (abs_one_div_lt_one h)
  refine (hasDerivAt_inverse (ne_zero_of_one_lt_abs h) hi).congr_deriv ?_
  show -(1 / pow (1 - pow (1 / y) two) half) / y ^ 2
    = -1 / (pow (1 - 1 / pow y two) half * pow y two)
  rw [pow_two_eq, pow_two_eq, one_div_pow]
  ring

theorem hasDerivAt_arcsec (h : 1 < |y|) : HasDerivAt (apply .arcsec) (slope .arcsec y) y := by
  have hi := hasDerivAt_arccos (abs_one_div_lt_one h)
  refine (hasDerivAt_inverse (ne_zero_of_one_lt_abs h) hi).congr_deriv ?_
  show -(-1 / pow (1 - pow (1 / y) two) half) / y ^ 2
    = 1 / (pow (1 - 1 / pow y two) half * pow y two)
  rw [pow_two_eq, pow_two_eq, one_div_pow]
  ring

theorem hasDerivAt_arccot (h : y ≠ 0) : HasDerivAt (apply .arccot) (slope .arccot y) y := by
  refine (hasDerivAt_inverse h (hasDerivAt_arctan (1 / y))).congr_deriv ?_
  show -(1 / (1 + pow (1 / y) two)) / y ^ 2 = -1 / (1 + pow y two)
  rw [pow_two_eq, pow_two_eq]
  field_simp
  ring

/-! ## hyperbolic functions -/

theorem hasDerivAt_tanh (y : ℝ) : HasDerivAt (apply .tanh) (slope .tanh y) y := by
  have hc : Real.cosh y ≠ 0 := (Real.cosh_pos y).ne'
  have h := (Real.hasDerivAt_sinh y).fun_div (Real.hasDerivAt_cosh y) hc
  simp only [← Real.tanh_eq_sinh_div_cosh] at h
  refine h.congr_deriv ?_
  show _ = pow (1 / Real.cosh y) two
  rw [pow_two_eq, one_div_pow, ← sq, ← sq, Real.cosh_sq_sub_sinh_sq]

theorem hasDerivAt_csch (h : y ≠ 0) : HasDerivAt (apply .csch) (slope .csch y) y := by
  have hs : Real.sinh y ≠ 0 := Real.sinh_ne_zero.2 h
  refine (hasDerivAt_one_div (Real.hasDerivAt_sinh y) hs).congr_deriv ?_
  show -Real.cosh y / Real.sinh y ^ 2 = -(1 / Real.sinh y * (1 / Real.tanh y))
  rw [Real.tanh_eq_sinh_div_cosh]
  field_simp

theorem hasDerivAt_sech (y : ℝ) : HasDerivAt (apply .sech) (slope .sech y) y := by
  have hc : Real.cosh y ≠ 0 := (Real.cosh_pos y).ne'
  refine (hasDerivAt_one_div (Real.hasDerivAt_cosh y) hc).congr_deriv ?_
  show -Real.sinh y / Real.cosh y ^ 2 = -(1 / Real.cosh y * Real.tanh y)
  rw [Real.tanh_eq_sinh_div_cosh]
  field_simp

theorem hasDerivAt_coth (h : y ≠ 0) : HasDerivAt (apply .coth) (slope .coth y) y := by
  have hc : Real.cosh y ≠ 0 := (Real.cosh_pos y).ne'
  have hs : Real.sinh y ≠ 0 := Real.sinh_ne_zero.2 h
  have ht : Real.tanh y ≠ 0 := by
    rw [Real.tanh_eq_sinh_div_cosh]
    exact div_ne_zero hs hc
  refine (hasDerivAt_one_div (hasDerivAt_tanh y) ht).congr_deriv ?_
  show -pow (1 / Real.cosh y) two / Real.tanh y ^ 2 = -pow (1 / Real.sinh y) two
  rw [pow_two_eq, pow_two_eq, Real.tanh_eq_sinh_div_cosh]
  field_simp

/-! ## inverse hyperbolic functions -/

theorem hasDerivAt_arcsinh (y : ℝ) : HasDerivAt (apply .arcsinh) (slope .arcsinh y) y := by
  have h : (apply .arcsinh : ℝ → ℝ) = Real.arsinh := by
    funext y
    show Real.log (y + √(y * y + 1)) = Real.log (y + √(1 + y ^ 2))
    rw [← sq, add_comm 1]
  rw [h]
  refine (Real.hasDerivAt_arsinh y).congr_deriv ?_
  show (√(1 + y ^ 2))⁻¹ = 1 / pow (pow y two + 1) half
  rw [pow_half_eq, pow_two_eq, add_comm 1, one_div]

theorem hasDerivAt_arccosh (h : 1 < y) : HasDerivAt (apply .arccosh) (slope .arccosh y) y := by
  have he : (apply .arccosh : ℝ → ℝ) = Real.arcosh := by
    funext y
    show Real.log (y + √(y * y - 1)) = Real.log (y + √(y ^ 2 - 1))
    rw [← sq]
  rw [he]
  refine (Real.hasDerivAt_arcosh h).congr_deriv ?_
  show (√(y ^ 2 - 1))⁻¹ = 1 / pow (pow y two - 1) half
  rw [pow_half_eq, pow_two_eq, one_div]

/-- the slope of half the logarithm of `(1 + y) / (1 - y)`, on either side of one -/
theorem hasDerivAt_arctanh (h1 : y ≠ 1) (h2 : y ≠ -1) :
    HasDerivAt (apply .arctanh) (slope .arctanh y) y := by
  have hn : 1 + y ≠ 0 := fun h => h2 (by linarith)
  have hd : 1 - y ≠ 0 := fun h => h1 (by linarith)
  have hs : 1 - y ^ 2 ≠ 0 := by
    rw [show 1 - y ^ 2 = (1 + y) * (1 - y) by ring]
    exact mul_ne_zero hn hd
  have h := ((hasDerivAt_id y).const_add 1).fun_div ((hasDerivAt_id y).const_sub 1) hd
  refine ((h.log (div_ne_zero hn hd)).const_mul (1 / 2)).congr_deriv ?_
  show _ = 1 / (1 - pow y two)
  rw [pow_two_eq]
  simp only [id]
  field_simp
  ring

theorem hasDerivAt_arccsch (h : y ≠ 0) : HasDerivAt (apply .arccsch) (slope .arccsch y) y := by
  have he : (apply .arccsch : ℝ → ℝ) = fun y => apply .arcsinh (1 / y) := by
    funext y
    show Real.log (1 / y + √(1 / (y * y) + 1)) = Real.log (1 / y + √(1 / y * (1 / y) + 1))
    rw [one_div_mul_one_div]
  rw [he]
  refine (hasDerivAt_inverse h (hasDerivAt_arcsinh (1 / y))).congr_deriv ?_
  show -(1 / pow (pow (1 / y) two + 1) half) / y ^ 2
    = -1 / (pow (1 / pow y two + 1) half * pow y two)
  rw [pow_two_eq, pow_two_eq, one_div_pow]
  ring

theorem hasDerivAt_arcsech (h0 : 0 < y) (h1 : y < 1) :
    HasDerivAt (apply .arcsech) (slope .arcsech y) y := by
  have he : (apply .arcsech : ℝ → ℝ) = fun y => apply .arccosh (1 / y) := by
    funext y
    show Real.log (1 / y + √(1 / (y * y) - 1)) = Real.log (1 / y + √(1 / y * (1 / y) - 1))
    rw [one_div_mul_one_div]
  have hi := hasDerivAt_arccosh ((lt_div_iff₀ h0).2 (by rwa [one_mul]))
  rw [he]
  refine (hasDerivAt_inverse h0.ne' hi).congr_deriv ?_
  show -(1 / pow (pow (1 / y) two - 1) half) / y ^ 2
    = -1 / (pow (1 / pow y two - 1) half * pow y two)
  rw [pow_two_eq, pow_two_eq, one_div_pow]
  ring

/-- the logarithm does not see the sign of its argument -/
theorem hasDerivAt_arccoth (h1 : y ≠ 1) (h2 : y ≠ -1) :
    HasDerivAt (apply .arccoth) (slope .arccoth y) y := by
  have he : (apply .arccoth : ℝ → ℝ) = apply .arctanh := by
    funext y
    show 1 / 2 * Real.log ((y + 1) / (y - 1)) = 1 / 2 * Real.log ((1 + y) / (1 - y))
    rw [← Real.log_neg_eq_log, ← div_neg, neg_sub, add_comm y]
  rw [he]
  exact hasDerivAt_arctanh h1 h2

end

/-- the closed form of the slope of a function is its derivative in the interior of its domain -/
theorem hasDerivAt_slope (k : Trig) {y : ℝ} (h : k.Interior y) :
    HasDerivAt (apply k) (k.slope y) y := by
  cases k with
  | sin => exact Real.hasDerivAt_sin y
  | cos => exact Real.hasDerivAt_cos y
  | tan => exact hasDerivAt_tan h
  | csc => exact hasDerivAt_csc h.1 h.2
  | sec => exact hasDerivAt_sec h
  | cot => exact hasDerivAt_cot h.1 h.2
  | arcsin => exact hasDerivAt_arcsin h
  | arccos => exact hasDerivAt_arccos h
  | arctan => exact hasDerivAt_arctan y
  | arccsc => exact hasDerivAt_arccsc h
  | arcsec => exact hasDerivAt_arcsec h
  | arccot => exact hasDerivAt_arccot h
  | sinh => exact Real.hasDerivAt_sinh y
  | cosh => exact Real.hasDerivAt_cosh y
  | tanh => exact hasDerivAt_tanh y
  | csch => exact hasDerivAt_csch h
  | sech => exact hasDerivAt_sech y
  | coth => exact hasDerivAt_coth h
  | arcsinh => exact hasDerivAt_arcsinh y
  | arccosh => exact hasDerivAt_arccosh h
  | arctanh =>
    obtain ⟨h1, h2⟩ := abs_lt.1 h
    exact hasDerivAt_arctanh h2.ne h1.ne'
  | arccsch => exact hasDerivAt_arccsch h
  | arcsech => exact hasDerivAt_arcsech h.1 h.2
  | arccoth =>
    have h' : 1 < |y| := h
    refine hasDerivAt_arccoth ?_ ?_ <;> rintro rfl <;> norm_num at h'

end Trig

namespace Expr

/-- In the interior of its domain each of the twenty-four functions, as it is evaluated, is
differentiable, and its derivative is the value of its outer derivative, taken as a tree in the
variable. -/
theorem hasDerivAt_outer (k : Trig) {y : ℝ} (h : k.Interior y) :
    HasDerivAt (Elementary.value k) ((outer k .var).eval y) y := by
  rw [eval_outer, eval_var]
  exact Trig.hasDerivAt_slope k h

/-- the inverse secant at a negative number, where its slope is positive -/
theorem hasDerivAt_outer_arcsec : Trig.Interior .arcsec (-2)
    ∧ HasDerivAt (fun y : ℝ => Real.arccos (1 / y)) ((outer .arcsec .var).eval (-2 : ℝ)) (-2)
    ∧ 0 < (outer .arcsec .var).eval (-2 : ℝ) := by
  have h : Trig.Interior .arcsec (-2) := by
    show 1 < |(-2 : ℝ)|
    norm_num
  refine ⟨h, hasDerivAt_outer .arcsec h, ?_⟩
  rw [eval_outer, eval_var]
  show 0 < 1 / (pow (1 - 1 / pow (-2 : ℝ) two) half * pow (-2 : ℝ) two)
  rw [Trig.pow_half_eq, Trig.pow_two_eq]
  have : 0 < √(1 - 1 / (-2 : ℝ) ^ 2) := Real.sqrt_pos.2 (by norm_num)
  positivity

end Expr

end CurveStudy
