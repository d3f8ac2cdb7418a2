import Mathlib.Tactic.Ring
import CurveStudy.Expr.Deriv
import CurveStudy.Expr.Measure
import CurveStudy.Proofs.Induction

/-!
# The shape of the trees that are made

A tree that the constructors have made has finite coefficients and exponents, no power zero or one,
no product of nothing, and in a sum at least two terms, none of them a sum.  Of its constants one
knows what one knows of the constants it was made from: `p` in `Formed p` is any property of numbers
that finite numbers have.

* `FiniteLiterals`   the numbers that the constructors and the rules of differentiation write down
  are finite; in `FiniteNumbers` the exponents that they count down to and the opposites are too;
* `Expr.Formed`      the shape;
* `Formed.scale`, `formed_sumOf`, `formed_productOf`, `formed_powerOf`   the constructors keep it;
* `Formed.deriv`, `Formed.iterate_deriv`   and so does differentiation, any number of times.
-/

set_option linter.unusedSectionVars false

namespace CurveStudy
open Arith (half)

/-- the numbers that are written down in trees are finite -/
class FiniteLiterals (α : Type) [Scalar α] : Prop where
  zero : Scalar.isFinite (0 : α)
  one : Scalar.isFinite (1 : α)
  neg_one : Scalar.isFinite (-1 : α)
  two : Scalar.isFinite (two : α)
  half : Scalar.isFinite (half : α)
  pi : Scalar.isFinite (Scalar.pi : α)

/-- opposites and predecessors of finite numbers are finite -/
class FiniteNumbers (α : Type) [Scalar α] : Prop extends FiniteLiterals α where
  neg {v : α} : Scalar.isFinite v → Scalar.isFinite (-v)
  sub_one {v : α} : Scalar.isFinite v → Scalar.isFinite (v - 1)

namespace Expr
variable {α : Type} [Scalar α] {p : α → Prop}

inductive Formed (p : α → Prop) : Expr α → Prop where
  | const {c : α} (hc : p c) : Formed p (.const c)
  | var : Formed p .var
  | sum {ts : List (Expr α)} (hl : 2 ≤ ts.length) (hs : ∀ t ∈ ts, t.isSum = false)
      (h : ∀ t ∈ ts, Formed p t) : Formed p (.sum ts)
  | product {fs : List (Expr α)} {c : α} (hc : Scalar.isFinite c) (hl : fs ≠ [])
      (h : ∀ f ∈ fs, Formed p f) : Formed p (.product fs c)
  | power {b : Expr α} {n c : α} (hc : Scalar.isFinite c) (hn : Scalar.isFinite n)
      (h0 : (n == 0) = false) (h1 : (n == 1) = false) (hb : Formed p b) : Formed p (.power b n c)
  | quotient {a b : Expr α} {c : α} (hc : Scalar.isFinite c) (ha : Formed p a) (hb : Formed p b) :
      Formed p (.quotient a b c)
  | trig {k : Trig} {a : Expr α} {c : α} (hc : Scalar.isFinite c) (ha : Formed p a) :
      Formed p (.trig k a c)

/-! ## members of lists -/

theorem forall_mem_pair {q : Expr α → Prop} {a b : Expr α} (ha : q a) (hb : q b) :
    ∀ e ∈ [a, b], q e :=
  List.forall_mem_cons.2 ⟨ha, List.forall_mem_singleton.2 hb⟩

theorem mem_of_mem_replacements {es ds r : List (Expr α)} (hr : r ∈ replacements es ds) :
    ∀ e ∈ r, e ∈ es ∨ e ∈ ds := by
  induction es generalizing ds r with
  | nil => cases hr
  | cons e es ih =>
    cases ds with
    | nil => cases hr
    | cons d ds =>
      rw [replacements, List.mem_cons] at hr
      rcases hr with rfl | hr
      · intro e' he
        rcases List.mem_cons.1 he with rfl | he
        · exact .inr (List.mem_cons_self ..)
        · exact .inl (List.mem_cons_of_mem _ he)
      · obtain ⟨r', hr', rfl⟩ := List.mem_map.1 hr
        intro e' he
        rcases List.mem_cons.1 he with rfl | he
        · exact .inl (List.mem_cons_self ..)
        · exact (ih hr' e' he).imp (List.mem_cons_of_mem _) (List.mem_cons_of_mem _)

/-! ## multiples -/

@[simp] theorem isSum_scaleRoot (k : α) (e : Expr α) : (e.scaleRoot k).isSum = e.isSum := by
  cases e <;> rfl

theorem isSum_scale {e : Expr α} (k : α) (h : e.isSum = false) : (e.scale k).isSum = false := by
  rw [scale_of_isSum_eq_false k h]
  split
  · exact h
  · split
    · rw [isSum_scaleRoot, h]
    · rfl

section
variable (hp : ∀ v : α, Scalar.isFinite v → p v)
include hp

theorem Formed.scaleRoot {e : Expr α} (h : Formed p e) {k : α} (hk : Scalar.isFinite k)
    (hc : Scalar.isFinite (k * e.coeff)) : Formed p (e.scaleRoot k) := by
  cases h with
  | const _ => exact .const (hp _ hc)
  | var => exact .product hk (List.cons_ne_nil _ _) (List.forall_mem_singleton.2 .var)
  | sum hl hs h => exact .sum hl hs h
  | product _ hl h => exact .product hc hl h
  | power _ hn h0 h1 hb => exact .power hc hn h0 h1 hb
  | quotient _ ha hb => exact .quotient hc ha hb
  | trig _ ha => exact .trig hc ha

theorem Formed.scale {e : Expr α} (h : Formed p e) {k : α} (hk : Scalar.isFinite k) :
    Formed p (e.scale k) := by
  -- a term of a sum is not a sum, so one case needs no induction
  have single : ∀ {e : Expr α}, e.isSum = false → Formed p e → Formed p (e.scale k) := by
    intro e he h
    rw [scale_of_isSum_eq_false k he]
    split
    · exact h
    · split
      · rename_i hc
        exact h.scaleRoot hp hk hc
      · exact .product hk (List.cons_ne_nil _ _) (List.forall_mem_singleton.2 h)
  by_cases he : e.isSum = false
  · exact single he h
  · cases h with
    | sum hl hs h =>
      rw [scale_sum]
      split
      · exact .sum hl hs h
      · refine .sum (by rw [List.length_map]; exact hl) ?_ ?_
        · intro t ht
          obtain ⟨t', ht', rfl⟩ := List.mem_map.1 ht
          exact isSum_scale k (hs t' ht')
        · intro t ht
          obtain ⟨t', ht', rfl⟩ := List.mem_map.1 ht
          exact single (hs t' ht') (h t' ht')
    | _ => exact absurd rfl he

end

/-! ## sums -/

theorem Formed.terms {e : Expr α} (h : Formed p e) :
    ∀ t ∈ e.terms, t.isSum = false ∧ Formed p t := by
  intro t ht
  cases h with
  | sum _ hs h => exact ⟨hs t ht, h t ht⟩
  | const hc =>
    rw [Expr.terms] at ht
    split at ht
    · cases ht
    · rw [List.mem_singleton.1 ht]
      exact ⟨rfl, .const hc⟩
  | var => rw [List.mem_singleton.1 ht]; exact ⟨rfl, .var⟩
  | product hc hl h => rw [List.mem_singleton.1 ht]; exact ⟨rfl, .product hc hl h⟩
  | power hc hn h0 h1 hb => rw [List.mem_singleton.1 ht]; exact ⟨rfl, .power hc hn h0 h1 hb⟩
  | quotient hc ha hb => rw [List.mem_singleton.1 ht]; exact ⟨rfl, .quotient hc ha hb⟩
  | trig hc ha => rw [List.mem_singleton.1 ht]; exact ⟨rfl, .trig hc ha⟩

theorem formed_sumOf {es : List (Expr α)} (h0 : p 0) (h : ∀ e ∈ es, Formed p e) :
    Formed p (sumOf es) := by
  have hts : ∀ t ∈ es.flatMap terms, t.isSum = false ∧ Formed p t := by
    intro t ht
    obtain ⟨e, he, hte⟩ := List.mem_flatMap.1 ht
    exact (h e he).terms t hte
  rw [sumOf]
  split
  · exact .const h0
  · rename_i e he
    exact (hts e (he ▸ List.mem_singleton_self e)).2
  · rename_i h1 h2
    refine .sum ?_ (fun t ht => (hts t ht).1) (fun t ht => (hts t ht).2)
    match hl : es.flatMap terms with
    | [] => exact absurd hl h1
    | [e] => exact absurd hl (h2 e)
    | _ :: _ :: ts => exact Nat.le_add_left 2 ts.length

/-! ## products -/

section
variable (hp : ∀ v : α, Scalar.isFinite v → p v)

theorem Formed.split_none {e : Expr α} (h : Formed p e) (he : e.split.2 = none) : p e.split.1 := by
  cases h with
  | const hc => exact hc
  | _ => cases he

variable [FiniteLiterals α]

theorem Formed.split_some {e b : Expr α} (h : Formed p e) (he : e.split.2 = some b) :
    Formed p b ∧ Scalar.isFinite e.split.1 := by
  cases h with
  | const _ => cases he
  | var => cases he; exact ⟨.var, FiniteLiterals.one⟩
  | sum hl hs h => cases he; exact ⟨.sum hl hs h, FiniteLiterals.one⟩
  | product hc hl h => cases he; exact ⟨.product FiniteLiterals.one hl h, hc⟩
  | power hc hn h0 h1 hb => cases he; exact ⟨.power FiniteLiterals.one hn h0 h1 hb, hc⟩
  | quotient hc ha hb => cases he; exact ⟨.quotient FiniteLiterals.one ha hb, hc⟩
  | trig hc ha => cases he; exact ⟨.trig FiniteLiterals.one ha, hc⟩

include hp

theorem Formed.factors {b : Option (Expr α)} (h : ∀ e, b = some e → Formed p e) :
    ∀ f ∈ Expr.factors b, Formed p f := by
  intro f hf
  cases b with
  | none => cases hf
  | some e =>
    have he := h e rfl
    cases e with
    | product fs c =>
      cases he with
      | product _ _ hfs => exact hfs f hf
    | _ => rwa [List.mem_singleton.1 hf]

theorem formed_gather {es : List (Expr α)} {c : α} (hc : Scalar.isFinite c)
    (h : ∀ e ∈ es, Formed p e) :
    Scalar.isFinite (gather c es).1 ∧ ∀ f ∈ (gather c es).2, Formed p f := by
  induction es generalizing c with
  | nil => exact ⟨hc, nofun⟩
  | cons e es ih =>
    obtain ⟨he, hes⟩ := List.forall_mem_cons.1 h
    by_cases hk : Scalar.isFinite (c * e.split.1)
    · rw [gather_cons_of_isFinite hk]
      obtain ⟨h1, h2⟩ := ih hk hes
      refine ⟨h1, fun f hf => ?_⟩
      rcases List.mem_append.1 hf with hf | hf
      · exact Formed.factors hp (fun b hb => (he.split_some hb).1) f hf
      · exact h2 f hf
    · rw [gather_cons_of_not_isFinite hk]
      obtain ⟨h1, h2⟩ := ih hc hes
      refine ⟨h1, List.forall_mem_cons.2 ⟨?_, h2⟩⟩
      cases hb : e.split.2 with
      | none => exact .const (he.split_none hb)
      | some b =>
        obtain ⟨hb, hk⟩ := he.split_some hb
        exact hb.scale hp hk

theorem formed_productOf {es : List (Expr α)} {c : α} (hc : Scalar.isFinite c)
    (h : ∀ e ∈ es, Formed p e) : Formed p (productOf es c) := by
  obtain ⟨ht, hf⟩ := formed_gather hp hc h
  unfold productOf
  dsimp only
  split
  · exact .const (hp _ FiniteLiterals.zero)
  · split
    · exact .const (hp _ ht)
    · rename_i e he
      exact (hf e (he ▸ List.mem_singleton_self e)).scale hp ht
    · rename_i hn _
      exact .product ht hn hf

/-! ## powers -/

theorem formed_powerOf {b : Expr α} {n c : α} (hc : Scalar.isFinite c) (hn : Scalar.isFinite n)
    (hb : Formed p b) : Formed p (powerOf b n c) := by
  unfold powerOf
  split
  · exact .const (hp _ hc)
  · rename_i h0
    split
    · exact hb.scale hp hc
    · rename_i h1
      split
      · rw [constPower]
        split
        · rename_i hf
          exact .const (hp _ hf)
        · exact .power hc hn (Bool.eq_false_iff.2 h0) (Bool.eq_false_iff.2 h1) hb
      · exact .power hc hn (Bool.eq_false_iff.2 h0) (Bool.eq_false_iff.2 h1) hb

/-! ## derivatives -/

theorem formed_square {e : Expr α} (h : Formed p e) {c : α} (hc : Scalar.isFinite c) :
    Formed p (square e c) :=
  formed_powerOf hp hc FiniteLiterals.two h

theorem formed_root {e : Expr α} (h : Formed p e) : Formed p (root e) :=
  formed_powerOf hp FiniteLiterals.one FiniteLiterals.half h

theorem formed_reciprocal {e : Expr α} (h : Formed p e) {c : α} (hc : Scalar.isFinite c) :
    Formed p (reciprocal e c) :=
  .quotient hc (.const (hp _ FiniteLiterals.one)) h

theorem formed_sumOf_pair {a b : Expr α} (ha : Formed p a) (hb : Formed p b) :
    Formed p (sumOf [a, b]) :=
  formed_sumOf (hp _ FiniteLiterals.zero) (forall_mem_pair ha hb)

theorem formed_reciprocalRoot {e y : Expr α} (he : Formed p e) (hy : Formed p y) {c : α}
    (hc : Scalar.isFinite c) : Formed p (reciprocalRoot e y c) :=
  formed_reciprocal hp (formed_productOf hp FiniteLiterals.one
    (forall_mem_pair (formed_root hp he) (formed_square hp hy FiniteLiterals.one))) hc

theorem formed_outer (k : Trig) {y : Expr α} (h : Formed p y) : Formed p (outer k y) := by
  have h1 : Formed p (.const (1 : α)) := .const (hp _ FiniteLiterals.one)
  have hn : Formed p (.const (-1 : α)) := .const (hp _ FiniteLiterals.neg_one)
  have trig : ∀ j, Formed p (.trig j y 1) := fun _ => .trig FiniteLiterals.one h
  have y1 : Formed p (square y 1) := formed_square hp h FiniteLiterals.one
  have yn : Formed p (square y (-1)) := formed_square hp h FiniteLiterals.neg_one
  have minus : Formed p (oneMinusSquare y) := formed_sumOf_pair hp h1 yn
  have plus : Formed p (onePlusSquare y) := formed_sumOf_pair hp h1 y1
  have inverse : ∀ {c : α}, Scalar.isFinite c → Formed p (inversePlus y c) := fun hc =>
    formed_sumOf_pair hp (formed_reciprocal hp y1 FiniteLiterals.one) (.const (hp _ hc))
  have one_minus : Formed p (oneMinusInverse y) :=
    formed_sumOf_pair hp h1 (formed_reciprocal hp y1 FiniteLiterals.neg_one)
  cases k with
  | sin | sinh | cosh => exact trig _
  | cos => exact .trig FiniteLiterals.neg_one h
  | tan | tanh => exact formed_square hp (trig _) FiniteLiterals.one
  | cot | coth => exact formed_square hp (trig _) FiniteLiterals.neg_one
  | sec => exact formed_productOf hp FiniteLiterals.one (forall_mem_pair (trig _) (trig _))
  | csc | csch | sech =>
    exact formed_productOf hp FiniteLiterals.neg_one (forall_mem_pair (trig _) (trig _))
  | arcsin => exact formed_reciprocal hp (formed_root hp minus) FiniteLiterals.one
  | arccos => exact formed_reciprocal hp (formed_root hp minus) FiniteLiterals.neg_one
  | arctan => exact formed_reciprocal hp plus FiniteLiterals.one
  | arccot => exact formed_reciprocal hp plus FiniteLiterals.neg_one
  | arctanh | arccoth => exact formed_reciprocal hp minus FiniteLiterals.one
  | arccsc => exact formed_reciprocalRoot hp one_minus h FiniteLiterals.neg_one
  | arcsec => exact formed_reciprocalRoot hp one_minus h FiniteLiterals.one
  | arcsinh =>
    exact formed_reciprocal hp (formed_root hp (formed_sumOf_pair hp y1 h1)) FiniteLiterals.one
  | arccosh =>
    exact formed_reciprocal hp (formed_root hp (formed_sumOf_pair hp y1 hn)) FiniteLiterals.one
  | arccsch =>
    exact formed_reciprocalRoot hp (inverse FiniteLiterals.one) h FiniteLiterals.neg_one
  | arcsech =>
    exact formed_reciprocalRoot hp (inverse FiniteLiterals.neg_one) h FiniteLiterals.neg_one

theorem formed_quotientRule {a a' b b' : Expr α} {c : α} (hc : Scalar.isFinite c) (ha : Formed p a)
    (ha' : Formed p a') (hb : Formed p b) (hb' : Formed p b') :
    Formed p (quotientRule a a' b b' c) := by
  unfold quotientRule
  dsimp only
  split
  · exact .const (hp _ FiniteLiterals.zero)
  · exact .quotient hc
      (formed_sumOf_pair hp (formed_productOf hp FiniteLiterals.one (forall_mem_pair ha' hb))
        (formed_productOf hp FiniteLiterals.neg_one (forall_mem_pair ha hb')))
      (formed_powerOf hp FiniteLiterals.one FiniteLiterals.two hb)

theorem Formed.deriv (hsub : ∀ n : α, Scalar.isFinite n → Scalar.isFinite (n - 1)) {e : Expr α}
    (h : Formed p e) : Formed p e.deriv := by
  induction h with
  | const _ => exact .const (hp _ FiniteLiterals.zero)
  | var => exact .const (hp _ FiniteLiterals.one)
  | sum _ _ _ ih =>
    rw [Expr.deriv, derivEach_eq_map]
    exact formed_sumOf (hp _ FiniteLiterals.zero) (List.forall_mem_map.2 ih)
  | product hc _ h ih =>
    rw [Expr.deriv, derivEach_eq_map]
    refine Formed.scale hp (formed_sumOf (hp _ FiniteLiterals.zero) ?_) hc
    refine List.forall_mem_map.2 fun r hr => formed_productOf hp FiniteLiterals.one fun e he => ?_
    rcases mem_of_mem_replacements hr e he with he | he
    · exact h e he
    · exact List.forall_mem_map.2 ih e he
  | power hc hn _ _ hb ih =>
    rw [Expr.deriv, powerRule]
    refine formed_productOf hp FiniteLiterals.one (forall_mem_pair ?_ ih)
    exact formed_productOf hp FiniteLiterals.one
      (forall_mem_pair (.const (hp _ hn)) (formed_powerOf hp hc (hsub _ hn) hb))
  | quotient hc ha hb iha ihb => exact formed_quotientRule hp hc ha iha hb ihb
  | trig hc ha ih => exact formed_productOf hp hc (forall_mem_pair (formed_outer hp _ ha) ih)

theorem Formed.iterate_deriv (hsub : ∀ n : α, Scalar.isFinite n → Scalar.isFinite (n - 1))
    {e : Expr α} (h : Formed p e) (n : Nat) : Formed p (Expr.deriv^[n] e) := by
  induction n with
  | zero => exact h
  | succ n ih =>
    rw [Function.iterate_succ_apply']
    exact ih.deriv hp hsub

end

/-! ## the test of finiteness -/

theorem Formed.isFinite {e : Expr α} (h : Formed (fun v => Scalar.isFinite v) e) : e.isFinite := by
  induction h with
  | const hc => exact hc
  | var => rfl
  | sum _ _ _ ih =>
    rw [Expr.isFinite, isFiniteAll_eq_all]
    exact List.all_eq_true.2 ih
  | product hc _ _ ih =>
    rw [Expr.isFinite, isFiniteAll_eq_all, hc]
    exact List.all_eq_true.2 ih
  | power hc hn _ _ _ ih => rw [Expr.isFinite, hc, hn, ih]; rfl
  | quotient hc _ _ iha ihb => rw [Expr.isFinite, hc, iha, ihb]; rfl
  | trig hc _ ih => rw [Expr.isFinite, hc, ih]; rfl

end Expr

end CurveStudy
