import CurveStudy.Proofs.Grammar.Meaning
import CurveStudy.Proofs.OfText

/-!
# Trees without the variable

A tree without the variable has one value, and its derivative is the constant zero.  The zero is
there at the leaves.  A product absorbs it wherever it stands among the factors: what is gathered is
zero from there on, and a coefficient that cannot be gathered stays apart.  So it is a zero that a
rule hands on, and never a product of zero and something infinite.

* `AbsorbingZero`   zero times a finite number is zero, as it is in double precision;
* `Expr.sumOf_of_isZero`, `Expr.productOf_of_isZero`   the constructors with zeros;
* `Expr.isZero_deriv`   by one case for each rule of differentiation;
* `Expr.constant_of_hasVar`   value, exponent and derivative of a tree without the variable.
-/

namespace CurveStudy
open Scalar (isFinite)

/-- A number that is equal to zero is finite, and so are its products with finite numbers, which
are zero again.  From zero times anything else nothing finite comes but zero. -/
class AbsorbingZero (α : Type) [Scalar α] : Prop where
  zero : (0 : α) == 0
  isFinite_of_beq {z : α} : z == 0 → isFinite z
  mul_zero {k z : α} : isFinite k → z == 0 → k * z == 0
  zero_mul {z k : α} : z == 0 → isFinite (z * k) → z * k == 0

namespace Expr
variable {α : Type}

/-! ## the coefficients of a tree -/

mutual
/-- all coefficients in the tree, the constants among them; exponents are none -/
def coeffs : Expr α → List α
  | .const c => [c]
  | .var => []
  | .sum ts => coeffsEach ts
  | .product fs c => c :: coeffsEach fs
  | .power b _ c => c :: coeffs b
  | .quotient a b c => c :: (coeffs a ++ coeffs b)
  | .trig _ a c => c :: coeffs a

def coeffsEach : List (Expr α) → List α
  | [] => []
  | e :: es => coeffs e ++ coeffsEach es
end

@[simp] theorem coeffsEach_eq_flatMap (es : List (Expr α)) : coeffsEach es = es.flatMap coeffs := by
  induction es with
  | nil => rfl
  | cons e es ih => rw [coeffsEach, ih, List.flatMap_cons]

theorem forall_mem_coeffsEach {p : α → Prop} {es : List (Expr α)} :
    (∀ c ∈ coeffsEach es, p c) ↔ ∀ e ∈ es, ∀ c ∈ e.coeffs, p c := by
  rw [coeffsEach_eq_flatMap]
  exact List.forall_mem_flatMap

theorem hasVarAny_eq_false {es : List (Expr α)} :
    hasVarAny es = false ↔ ∀ e ∈ es, e.hasVar = false := by
  rw [hasVarAny_eq_any]
  simp

theorem exists_mem_of_mem_replacements {es ds r : List (Expr α)} (hr : r ∈ replacements es ds) :
    ∃ d ∈ r, d ∈ ds := by
  induction es generalizing ds r with
  | nil => cases hr
  | cons e es ih =>
    cases ds with
    | nil => cases hr
    | cons d ds =>
      rw [replacements, List.mem_cons] at hr
      rcases hr with rfl | hr
      · exact ⟨d, List.mem_cons_self .., List.mem_cons_self ..⟩
      · obtain ⟨r', hr', rfl⟩ := List.mem_map.1 hr
        obtain ⟨d', hd', hds⟩ := ih hr'
        exact ⟨d', List.mem_cons_of_mem _ hd', List.mem_cons_of_mem _ hds⟩

variable [Scalar α]

theorem eq_const_of_isZero {e : Expr α} (h : e.isZero) : ∃ z, e = .const z ∧ z == 0 := by
  cases e with
  | const z => exact ⟨z, rfl, h⟩
  | _ => cases h

theorem isFinite_of_mem_coeffs {e : Expr α} (h : e.isFinite) :
    ∀ c ∈ e.coeffs, Scalar.isFinite c := by
  induction e with
  | const c => exact List.forall_mem_singleton.2 h
  | var => exact nofun
  | sum ts ih =>
    rw [isFinite, isFiniteAll_eq_all] at h
    exact forall_mem_coeffsEach.2 fun t ht => ih t ht (List.all_eq_true.1 h t ht)
  | product fs c ih =>
    rw [isFinite, isFiniteAll_eq_all, Bool.and_eq_true] at h
    refine List.forall_mem_cons.2 ⟨h.1, forall_mem_coeffsEach.2 fun f hf => ?_⟩
    exact ih f hf (List.all_eq_true.1 h.2 f hf)
  | power b n c ih =>
    rw [isFinite, Bool.and_eq_true, Bool.and_eq_true] at h
    exact List.forall_mem_cons.2 ⟨h.1.2, ih h.2⟩
  | quotient a b c iha ihb =>
    rw [isFinite, Bool.and_eq_true, Bool.and_eq_true] at h
    exact List.forall_mem_cons.2 ⟨h.1.1, List.forall_mem_append.2 ⟨iha h.1.2, ihb h.2⟩⟩
  | trig k a c ih =>
    rw [isFinite, Bool.and_eq_true] at h
    exact List.forall_mem_cons.2 ⟨h.1, ih h.2⟩

variable [AbsorbingZero α]

theorem isZero_const_zero : (.const 0 : Expr α).isZero := AbsorbingZero.zero

/-! ## the constructors with zeros -/

theorem isZero_scale {e : Expr α} {k : α} (hk : Scalar.isFinite k) (h : e.isZero) :
    (e.scale k).isZero := by
  obtain ⟨z, rfl, hz⟩ := eq_const_of_isZero h
  have hkz : k * z == 0 := AbsorbingZero.mul_zero hk hz
  rw [scale_of_isSum_eq_false k rfl]
  split
  · exact hz
  · have hf : Scalar.isFinite (k * (const z).coeff) := AbsorbingZero.isFinite_of_beq hkz
    rw [if_pos hf]
    exact hkz

omit [AbsorbingZero α] in
theorem sumOf_of_isZero {es : List (Expr α)} (h : ∀ e ∈ es, e.isZero) : sumOf es = .const 0 := by
  have hts : es.flatMap terms = [] := by
    refine List.flatMap_eq_nil_iff.2 fun e he => ?_
    obtain ⟨z, rfl, hz⟩ := eq_const_of_isZero (h e he)
    exact if_pos hz
  rw [sumOf, hts]

/-- what is gathered stays zero -/
theorem gather_fst_of_beq_zero {c : α} (hc : c == 0) (es : List (Expr α)) :
    (gather c es).1 == 0 := by
  induction es generalizing c with
  | nil => exact hc
  | cons e es ih =>
    by_cases hk : Scalar.isFinite (c * e.split.1)
    · rw [gather_cons_of_isFinite hk]
      exact ih (AbsorbingZero.zero_mul hc hk)
    · rw [gather_cons_of_not_isFinite hk]
      exact ih hc

theorem gather_fst_of_isZero {es : List (Expr α)} {d : Expr α} (hd : d ∈ es) (h : d.isZero)
    {c : α} (hc : Scalar.isFinite c) : (gather c es).1 == 0 := by
  induction es generalizing c with
  | nil => cases hd
  | cons e es ih =>
    rcases List.mem_cons.1 hd with rfl | hd
    · obtain ⟨z, rfl, hz⟩ := eq_const_of_isZero h
      have hcz : c * z == 0 := AbsorbingZero.mul_zero hc hz
      rw [gather_cons_of_isFinite (AbsorbingZero.isFinite_of_beq hcz)]
      exact gather_fst_of_beq_zero hcz es
    · by_cases hk : Scalar.isFinite (c * e.split.1)
      · rw [gather_cons_of_isFinite hk]
        exact ih hd hk
      · rw [gather_cons_of_not_isFinite hk]
        exact ih hd hc

/-- a product is zero as soon as one of its factors is, whatever the others are -/
theorem productOf_of_isZero {es : List (Expr α)} {d : Expr α} (hd : d ∈ es) (h : d.isZero)
    {c : α} (hc : Scalar.isFinite c) : productOf es c = .const 0 :=
  if_pos (gather_fst_of_isZero hd h hc)

theorem isZero_productOf {es : List (Expr α)} {d : Expr α} (hd : d ∈ es) (h : d.isZero)
    {c : α} (hc : Scalar.isFinite c) : (productOf es c).isZero := by
  rw [productOf_of_isZero hd h hc]
  exact isZero_const_zero

/-! ## the rules with zeros -/

variable [FiniteLiterals α]

theorem quotientRule_of_isZero (a b : Expr α) {a' b' : Expr α} (ha : a'.isZero) (hb : b'.isZero)
    (c : α) : quotientRule a a' b b' c = .const 0 := by
  have h1 := isZero_productOf (List.mem_cons_self : a' ∈ [a', b]) ha FiniteLiterals.one
  have h2 := isZero_productOf (List.mem_cons_of_mem a (List.mem_singleton_self b')) hb
    FiniteLiterals.neg_one
  refine if_pos ?_
  rw [sumOf_of_isZero (forall_mem_pair h1 h2)]
  exact isZero_const_zero

theorem powerRule_of_isZero (b : Expr α) {b' : Expr α} (hb : b'.isZero) (n c : α) :
    powerRule b b' n c = .const 0 :=
  productOf_of_isZero (List.mem_cons_of_mem _ (List.mem_singleton_self b')) hb FiniteLiterals.one

/-- The derivative of a tree without the variable is zero.  It is the coefficients in front of a
product and of a function that must be finite for it. -/
theorem isZero_deriv {e : Expr α} (hv : e.hasVar = false)
    (hc : ∀ c ∈ e.coeffs, Scalar.isFinite c) : e.deriv.isZero := by
  induction e with
  | const c => exact isZero_const_zero
  | var => cases hv
  | sum ts ih =>
    have hts : ∀ t ∈ ts, t.deriv.isZero := fun t ht =>
      ih t ht (hasVarAny_eq_false.1 hv t ht) (forall_mem_coeffsEach.1 hc t ht)
    rw [deriv, derivEach_eq_map, sumOf_of_isZero (List.forall_mem_map.2 hts)]
    exact isZero_const_zero
  | product fs c ih =>
    obtain ⟨hc, hcs⟩ := List.forall_mem_cons.1 hc
    have hds : ∀ d ∈ fs.map deriv, d.isZero := List.forall_mem_map.2 fun f hf =>
      ih f hf (hasVarAny_eq_false.1 hv f hf) (forall_mem_coeffsEach.1 hcs f hf)
    have hsum : sumOf ((replacements fs (fs.map deriv)).map (productOf · 1)) = .const 0 := by
      refine sumOf_of_isZero (List.forall_mem_map.2 fun r hr => ?_)
      obtain ⟨d, hdr, hd⟩ := exists_mem_of_mem_replacements hr
      exact isZero_productOf hdr (hds d hd) FiniteLiterals.one
    rw [deriv, derivEach_eq_map, hsum]
    exact isZero_scale hc isZero_const_zero
  | power b n c ih =>
    rw [deriv, powerRule_of_isZero b (ih hv (List.forall_mem_cons.1 hc).2)]
    exact isZero_const_zero
  | quotient a b c iha ihb =>
    obtain ⟨hva, hvb⟩ := Bool.or_eq_false_iff.1 hv
    obtain ⟨ha, hb⟩ := List.forall_mem_append.1 (List.forall_mem_cons.1 hc).2
    rw [deriv, quotientRule_of_isZero a b (iha hva ha) (ihb hvb hb)]
    exact isZero_const_zero
  | trig k a c ih =>
    obtain ⟨hc, ha⟩ := List.forall_mem_cons.1 hc
    exact isZero_productOf (List.mem_cons_of_mem _ (List.mem_singleton_self _)) (ih hv ha) hc

/-- Without the variable, a tree has one value, also where the value is used as an exponent.  If its
coefficients are finite, its derivative is the constant zero, whatever overflows and whatever is
not a number on the way. -/
theorem constant_of_hasVar {e : Expr α} (hv : e.hasVar = false) :
    (∀ x y, e.eval x = e.eval y)
    ∧ (∀ (pos : Nat) (b : Bool) (v : α), exponentValue pos b e = .ok v →
      ∀ x, v = if b then -e.eval x else e.eval x)
    ∧ ((∀ c ∈ e.coeffs, Scalar.isFinite c) → ∃ z, e.deriv = .const z ∧ z == 0) := by
  refine ⟨eval_eq_eval_of_hasVar hv, fun pos b v h x => ?_, fun hc =>
    eq_const_of_isZero (isZero_deriv hv hc)⟩
  obtain ⟨-, hval, -⟩ := Grammar.exponentValue_eq_ok h
  rw [hval, eval_eq_eval_of_hasVar hv x 0]

end Expr

/-! ## double precision -/

namespace Double
open Float.Model Float.Model.UnpackedFloat

theorem unpack_zero : (0 : Float).toModel.unpack = .zero .positive := by
  have h : (0 : Float).toModel.toBits = 0 := by decide +kernel
  unfold Float.Model.unpack
  rw [h]
  rfl

theorem unpack_pack_zero (s : Sign) : (Float.Model.pack (.zero s)).unpack = .zero s := by
  cases s <;> rfl

theorem beq_zero_iff {z : Float} : z == 0 ↔ ∃ s, z.toModel.unpack = .zero s := by
  show UnpackedFloat.beq z.toModel.unpack (0 : Float).toModel.unpack = true ↔ _
  rw [unpack_zero]
  cases z.toModel.unpack with
  | zero s => exact iff_of_true rfl ⟨s, rfl⟩
  | infinity s => cases s <;> exact iff_of_false Bool.false_ne_true nofun
  | finite s m e hm => cases s <;> exact iff_of_false Bool.false_ne_true nofun
  | notANumber => exact iff_of_false Bool.false_ne_true nofun

/-- a product that is zero before it is packed -/
theorem mul_beq_zero {v w : Float} {s : Sign}
    (h : UnpackedFloat.mul Format.binary64 v.toModel.unpack w.toModel.unpack = .zero s) :
    v * w == 0 := by
  refine beq_zero_iff.2 ⟨s, ?_⟩
  show (Float.Model.pack (UnpackedFloat.mul Format.binary64 _ _)).unpack = _
  rw [h, unpack_pack_zero]

theorem isFinite_mul_eq_false {v w : Float}
    (h : UnpackedFloat.mul Format.binary64 v.toModel.unpack w.toModel.unpack = .notANumber) :
    Scalar.isFinite (v * w) = false := by
  show (Float.Model.pack (UnpackedFloat.mul Format.binary64 _ _)).unpack.isFinite = false
  rw [h]
  rfl

instance : AbsorbingZero Float where
  zero := by decide +kernel
  isFinite_of_beq {z} hz := by
    obtain ⟨s, hs⟩ := beq_zero_iff.1 hz
    show z.toModel.unpack.isFinite = true
    rw [hs]
    rfl
  mul_zero {k z} hk hz := by
    obtain ⟨s, hs⟩ := beq_zero_iff.1 hz
    have hf : k.toModel.unpack.isFinite = true := hk
    cases hu : k.toModel.unpack with
    | zero s' => exact mul_beq_zero (s := s' * s) (by rw [hu, hs]; rfl)
    | finite s' m e hm => exact mul_beq_zero (s := s' * s) (by rw [hu, hs]; rfl)
    | infinity s' => rw [hu] at hf; cases hf
    | notANumber => rw [hu] at hf; cases hf
  zero_mul {z k} hz hf := by
    obtain ⟨s, hs⟩ := beq_zero_iff.1 hz
    -- what is not finite itself gives something that is not a number
    have hn (h : UnpackedFloat.mul Format.binary64 z.toModel.unpack k.toModel.unpack
        = .notANumber) : z * k == 0 := by
      rw [isFinite_mul_eq_false h] at hf
      cases hf
    cases hu : k.toModel.unpack with
    | zero s' => exact mul_beq_zero (s := s * s') (by rw [hu, hs]; rfl)
    | finite s' m e hm => exact mul_beq_zero (s := s * s') (by rw [hu, hs]; rfl)
    | infinity s' => exact hn (by rw [hu, hs]; rfl)
    | notANumber => exact hn (by rw [hu, hs]; rfl)

end Double

namespace Expr

/-- `1e200 · 1e200 · (0 / 0)`, which overflows and is not a number -/
def overflowNaN : Expr Float :=
  .product [.const (Numeral.value large), .quotient (.const 0) (.const 0) 1] (Numeral.value large)

/-- its derivative is zero all the same -/
theorem constant_of_hasVar_overflowNaN :
    overflowNaN.hasVar = false
    ∧ (∀ c ∈ overflowNaN.coeffs, Scalar.isFinite c)
    ∧ Scalar.isFinite (overflowNaN.eval 0) = false
    ∧ (∀ x y, overflowNaN.eval x = overflowNaN.eval y)
    ∧ ∃ z, overflowNaN.deriv = .const z ∧ z == 0 := by
  have hv : overflowNaN.hasVar = false := rfl
  have hc : ∀ c ∈ overflowNaN.coeffs, Scalar.isFinite c :=
    isFinite_of_mem_coeffs (by decide +kernel)
  exact ⟨hv, hc, by decide +kernel, (constant_of_hasVar hv).1, (constant_of_hasVar hv).2.2 hc⟩

end Expr

end CurveStudy
