import Mathlib.Tactic.Ring
import CurveStudy.Proofs.Half
import CurveStudy.Proofs.OfText

/-!
# Reading what was written

The text of a tree of the shape that the constructors make is read by the grammar, and what is read
has the value of the tree.  It need not be the tree: `(x/3)/2` is written `x/3/2`, and a coefficient
in front of a product becomes a factor.

* `Expr.Printed`     what the text of a tree is read as;
* `Formed.printed`   this for every tree of the shape;
* `ofText_render`    a tree that was read, or a derivative of it of any order, is written as a text
                     that reads back to the same value, or has too many levels.
-/

set_option linter.unusedSectionVars false

namespace CurveStudy
open Scalar (pow apply)

namespace Expr
open CurveStudy.Grammar

variable {α : Type} [Scalar α] [Literal α]

/-- what the text of the tree is read as -/
structure Printed (e : Expr α) : Prop where
  sum : SumText e.render (fun x => e.eval x) e.extent.levels
  product : e.isSum = false → SignedText e.render (fun x => e.eval x) e.extent
  divisor : e.isDivisor → PowerText e.render (fun x => e.eval x) e.extent
  atom : e.isAtom → AtomText e.render (fun x => e.eval x) e.extent

variable [FiniteNumbers α] [PlainText α]

namespace Printed
variable {e : Expr α}

theorem of_product (h : SignedText e.render (fun x => e.eval x) e.extent)
    (hd : e.isDivisor → PowerText e.render (fun x => e.eval x) e.extent)
    (ha : e.isAtom → AtomText e.render (fun x => e.eval x) e.extent) : Printed e :=
  ⟨h.sum, fun _ => h, hd, ha⟩

theorem of_atom (h : AtomText e.render (fun x => e.eval x) e.extent) : Printed e :=
  of_product (.inl h.power.unsigned) (fun _ => h.power) fun _ => h

/-! ## brackets -/

theorem base (h : Printed e) : AtomText (bracketIf (!e.isAtom) e.render) (fun x => e.eval x)
    (e.extent.bracketIf (!e.isAtom)) := by
  cases ha : e.isAtom with
  | false => exact .brackets h.sum
  | true => exact h.atom ha

theorem denominator (h : Printed e) :
    PowerText (bracketIf (!e.isDivisor) e.render) (fun x => e.eval x)
      (e.extent.bracketIf (!e.isDivisor)) := by
  cases hd : e.isDivisor with
  | false => exact (AtomText.brackets h.sum).power
  | true => exact h.divisor hd

theorem unsigned (h : Printed e) {b : Bool}
    (hb : b = false → e.isSum = false ∧ e.render.isSigned = false) :
    UnsignedText (bracketIf b e.render) (fun x => e.eval x) (e.extent.bracketIf b) := by
  cases b with
  | true => exact (AtomText.brackets h.sum).power.unsigned
  | false => exact (h.product (hb rfl).1).unsigned (hb rfl).2

theorem signed (h : Printed e) : SignedText (bracketIf e.isSum e.render) (fun x => e.eval x)
    (e.extent.bracketIf e.isSum) := by
  cases hs : e.isSum with
  | true => exact .inl (AtomText.brackets h.sum).power.unsigned
  | false => exact h.product hs

end Printed

/-! ## one node -/

theorem printed_const {c : α} (hc : Scalar.isFinite c) : Printed (.const c) := by
  have ha : (const c).isAtom → AtomText (const c).render (fun _ => c) .atom := by
    intro h
    have hs : !(Literal.text c).isSigned := (Bool.and_eq_true_iff.1 h).2
    rw [Bool.not_eq_true'] at hs
    obtain ⟨hn, hv⟩ := PlainText.unsigned hc hs
    exact .num hn hv hc
  exact .of_product (.num hc) (fun h => (ha h).power) ha

theorem printed_sum {ts : List (Expr α)} (hl : ts ≠ []) (hs : ∀ t ∈ ts, t.isSum = false)
    (h : ∀ t ∈ ts, Printed t) : Printed (.sum ts) := by
  refine ⟨?_, nofun, nofun, nofun⟩
  obtain ⟨t, ts, rfl⟩ := List.exists_cons_of_ne_nil hl
  obtain ⟨ht, hts⟩ := List.forall_mem_cons.1 fun t ht => (h t ht).product (hs t ht)
  have hv : IsExact α → ∀ x,
      (evalEach x ts).foldl (· + ·) (t.eval x) = (sum (t :: ts)).eval x := by
    rintro ⟨E, rfl⟩ x
    show _ = (evalEach x ts).foldl (· + ·) (0 + t.eval x)
    rw [zero_add]
  exact (ht.sumText hts).congr hv

/-- the text of a list of factors -/
theorem unsigned_factors {fs : List (Expr α)} (hl : fs ≠ []) (h : ∀ f ∈ fs, Printed f) :
    UnsignedText (Text.joinWith ['*'] (renderFactors fs))
      (fun x => (evalEach x fs).foldl (· * ·) 1) (.product (extentFactors fs)) := by
  have one : ∀ f : Expr α, Printed f →
      UnsignedText (bracketIf (f.isSum || f.isQuotient || f.render.isSigned) f.render)
        (fun x => f.eval x)
        (f.extent.bracketIf (f.isSum || f.isQuotient || f.render.isSigned)) := by
    intro f hf
    refine hf.unsigned fun hb => ?_
    obtain ⟨hb, hs⟩ := Bool.or_eq_false_iff.1 hb
    exact ⟨(Bool.or_eq_false_iff.1 hb).1, hs⟩
  induction fs with
  | nil => exact absurd rfl hl
  | cons f fs ih =>
    obtain ⟨hf, hfs⟩ := List.forall_mem_cons.1 h
    cases fs with
    | nil =>
      refine (one f hf).congr ?_
      rintro ⟨E, rfl⟩ x
      exact (one_mul (f.eval x)).symm
    | cons g gs =>
      have ht : Text.joinWith ['*'] (renderFactors (f :: g :: gs))
          = bracketIf (f.isSum || f.isQuotient || f.render.isSigned) f.render
            ++ '*' :: Text.joinWith ['*'] (renderFactors (g :: gs)) :=
        List.append_assoc _ ['*'] _
      rw [ht]
      refine ((one f hf).times (ih (List.cons_ne_nil _ _) hfs)).congr ?_
      rintro ⟨E, rfl⟩ x
      show f.eval x * (evalEach x (g :: gs)).foldl (· * ·) 1
        = (evalEach x (f :: g :: gs)).foldl (· * ·) 1
      rw [← List.prod_eq_foldl, ← List.prod_eq_foldl]
      exact List.prod_cons.symm

theorem printed_product {fs : List (Expr α)} {c : α} (hc : Scalar.isFinite c) (hl : fs ≠ [])
    (h : ∀ f ∈ fs, Printed f) : Printed (.product fs c) :=
  .of_product (.withCoeff hc (unsigned_factors hl h)) nofun nofun

theorem printed_power {b : Expr α} {n c : α} (hc : Scalar.isFinite c) (hn : Scalar.isFinite n)
    (h : Printed b) : Printed (.power b n c) := by
  have hp := h.base.raised hn
  refine .of_product (.withCoeff hc hp.unsigned) (fun hd => ?_) nofun
  have h1 : c == 1 := (Bool.and_eq_true_iff.1 hd).1
  rw [render, withCoeff, if_pos h1, extent, Extent.withCoeff_of_beq_one h1]
  refine hp.congr ?_
  rintro ⟨E, rfl⟩ x
  rw [eval_power, eq_of_beq h1, one_mul]

theorem printed_quotient {a b : Expr α} {c : α} (hc : Scalar.isFinite c) (ha : Printed a)
    (hb : Printed b) : Printed (.quotient a b c) := by
  refine .of_product ?_ nofun nofun
  rw [render, extent]
  by_cases h1 : c == 1
  · have hn : (a.isSum || c != 1 && a.render.isSigned) = a.isSum := by
      rw [bne, h1, Bool.not_true, Bool.false_and, Bool.or_false]
    rw [hn, withCoeff, if_pos h1, Extent.withCoeff_of_beq_one h1]
    refine (ha.signed.slash hb.denominator).congr ?_
    rintro ⟨E, rfl⟩ x
    rw [eval_quotient, eq_of_beq h1, one_mul]
  · have hn : c != 1 := by rw [bne, Bool.not_eq_true', Bool.eq_false_iff.2 h1]
    rw [hn, Bool.true_and]
    refine (SignedText.withCoeff hc
      ((ha.unsigned Bool.or_eq_false_iff.1).slash hb.denominator)).congr ?_
    rintro ⟨E, rfl⟩ x
    exact (Exact.mul_div c (a.eval x) (b.eval x)).symm

theorem printed_trig {k : Trig} {a : Expr α} {c : α} (hc : Scalar.isFinite c) (h : Printed a) :
    Printed (.trig k a c) := by
  have ha := AtomText.call k h.sum
  have hone : c == 1 →
      AtomText (trig k a c).render (fun x => (trig k a c).eval x) (trig k a c).extent := by
    intro h1
    rw [render, withCoeff, if_pos h1, extent, Extent.withCoeff_of_beq_one h1]
    refine ha.congr ?_
    rintro ⟨E, rfl⟩ x
    rw [eval_trig, eq_of_beq h1, one_mul]
  exact .of_product (.withCoeff hc ha.power.unsigned) (fun h1 => (hone h1).power) hone

/-! ## all trees -/

theorem Formed.printed {e : Expr α} (h : Formed (fun v => Scalar.isFinite v) e) : Printed e := by
  induction h with
  | const hc => exact printed_const hc
  | var => exact .of_atom .var
  | sum hl hs _ ih => exact printed_sum (List.ne_nil_of_length_pos (Nat.lt_of_succ_lt hl)) hs ih
  | product hc hl _ ih => exact printed_product hc hl ih
  | power hc hn _ _ _ ih => exact printed_power hc hn ih
  | quotient hc _ _ iha ihb => exact printed_quotient hc iha ihb
  | trig hc _ ih => exact printed_trig hc ih

/-! ## reading -/

/-- The text of a tree that was read, and of its derivatives of all orders, has too many levels or
is read as a tree.  Where numbers are exact, that tree has the value of the one that was written at
every place. -/
theorem ofText_render {t : Text} {e : Expr α} (h : ofText t = .ok e) (n : Nat) :
    (∃ pos, ofText (deriv^[n] e).render = (.error (.tooDeep pos) : Except Fault (Expr α)))
    ∨ ∃ e', ofText (deriv^[n] e).render = .ok e'
      ∧ (IsExact α → ∀ x, e'.eval x = (deriv^[n] e).eval x) := by
  have hp : Printed (deriv^[n] e) :=
    ((formed_of_ofText h).iterate_deriv (fun _ h => h) (fun _ => FiniteNumbers.sub_one) n).printed
  exact ofText_of_sumText hp.sum

/-- the derivation of `1.5x^2` over the rational numbers -/
def monomial : Grammar.Sum Rat :=
  .mk (.mk (.plus (.atom (.num (3 / 2)))) (.next (.raised .var (.plus (.atom (.num 2)))) .nil)) .nil

theorem lexes_monomial : Token.Lexes ends "1.5x^2".toList monomial.symbols := by
  have h2 : Token.Lexes ends ['2'] [.num (2 : Rat)] :=
    (Token.Lexes.numeral (.whole (by decide) (List.forall_mem_singleton.2 rfl)) (by decide +kernel)
      (by decide +kernel)).mono fun _ => endsNumeral_of_ends
  have hx : Token.Lexes (α := Rat) (fun c => !c.isAlpha) ['x'] [.name ['x']] :=
    Token.Lexes.word (List.forall_mem_singleton.2 rfl)
  have h15 : Token.Lexes Numeral.endsNumeral "1.5".toList [.num (3 / 2 : Rat)] :=
    Token.Lexes.numeral (.decimal (w := ['1']) (d := ['5']) (by decide)
      (List.forall_mem_singleton.2 rfl) (List.forall_mem_singleton.2 rfl))
      (by decide +kernel) (by decide +kernel)
  have hx2 : Token.Lexes ends "x^2".toList [.name ['x'], .caret, .num (2 : Rat)] :=
    hx.append (h2.char rfl rfl) (by rintro c ⟨⟩; rfl) fun _ => not_isAlpha_of_ends
  exact h15.append hx2 (by rintro c ⟨⟩; rfl) fun _ => endsNumeral_of_ends

theorem ofText_monomial : ofText "1.5x^2".toList = .ok monomial.tree := by
  have hk : monomial.Constant :=
    ⟨⟨trivial, ⟨trivial, trivial, rfl, by decide +kernel⟩, trivial⟩, trivial⟩
  exact ofText_eq_tree (Text.trim_cons_ne_nil rfl _) lexes_monomial hk (by decide)

/-- the text `1.5x^2` and the derivative of its tree, with rational numbers, which are exact -/
theorem ofText_render_monomial : IsExact Rat ∧ ofText "1.5x^2".toList = .ok monomial.tree
    ∧ ((∃ pos, ofText (deriv^[1] monomial.tree).render
        = (.error (.tooDeep pos) : Except Fault (Expr Rat)))
      ∨ ∃ e', ofText (deriv^[1] monomial.tree).render = .ok e'
        ∧ (IsExact Rat → ∀ x, e'.eval x = (deriv^[1] monomial.tree).eval x)) :=
  ⟨⟨inferInstance, rfl⟩, ofText_monomial, ofText_render ofText_monomial 1⟩

end Expr

end CurveStudy
