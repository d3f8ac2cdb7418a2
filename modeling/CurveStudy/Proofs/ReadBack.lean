import Mathlib.Tactic.Ring
import CurveStudy.Proofs.Double.Text
import CurveStudy.Proofs.RoundTrip

/-!
# When a text can be read back

The text of a tree has brackets that the text it was read from need not have had, and a product
without brackets has a level for each of its operators.  So it may have more levels than there are,
and that is all that can go wrong.

* `Formed.ofText_render_iff`   the trees whose texts are read again;
* `ofText_render_ok_iff`       this for a tree that was read;
* `not_ofText_render_ok`       a tree that was read, and its text is not.
-/

set_option linter.unusedSectionVars false

namespace CurveStudy.Expr
open CurveStudy.Grammar

section
variable {α : Type} [Scalar α] [Literal α] [FiniteNumbers α] [PlainText α] {e : Expr α}

theorem Formed.ofText_render_tooDeep (h : Formed (fun v => Scalar.isFinite v) e)
    (hl : maxDepth < e.extent.levels) :
    ∃ pos, ofText e.render = (.error (.tooDeep pos) : Except Fault (Expr α)) :=
  ofText_tooDeep_of_sumText h.printed.sum hl

theorem Formed.ofText_render_iff (h : Formed (fun v => Scalar.isFinite v) e) :
    (∃ e' : Expr α, ofText e.render = .ok e') ↔ e.extent.levels ≤ maxDepth := by
  constructor
  · rintro ⟨e', he⟩
    by_contra hl
    obtain ⟨pos, hp⟩ := h.ofText_render_tooDeep (Nat.lt_of_not_le hl)
    rw [hp] at he
    cases he
  · intro hl
    obtain ⟨e', he, -⟩ := ofText_ok_of_sumText h.printed.sum hl
    exact ⟨e', he⟩

end

/-! ## sines of sines

In the sine of the sine of `x / -x`, and so on, the denominator is a level less than in the text of
the tree, where it is in brackets. -/

section
variable {α : Type}

def sineText (t : Text) : Text := Trig.sin.name ++ t.bracketed

def sineSum (d : Grammar.Sum α) : Grammar.Sum α :=
  .mk (.mk (.plus (.atom (.call (.trig .sin) d))) .nil) .nil

theorem depth_sineSum (d : Grammar.Sum α) (n : Nat) : (sineSum^[n] d).depth = n + d.depth := by
  induction n with
  | zero => exact (Nat.zero_add _).symm
  | succ n ih =>
    rw [Function.iterate_succ_apply', sineSum]
    show max (max (1 + (sineSum^[n] d).depth) 0) 0 = n + 1 + d.depth
    omega

variable [Scalar α]

def sine (e : Expr α) : Expr α := .trig .sin e 1

theorem constant_sineSum {d : Grammar.Sum α} (h : d.Constant) (n : Nat) :
    (sineSum^[n] d).Constant := by
  induction n with
  | zero => exact h
  | succ n ih =>
    rw [Function.iterate_succ_apply']
    exact ⟨⟨ih, trivial⟩, trivial⟩

theorem tree_sineSum (d : Grammar.Sum α) (n : Nat) :
    (sineSum^[n] d).tree = sine^[n] d.tree := by
  induction n with
  | zero => rfl
  | succ n ih =>
    rw [Function.iterate_succ_apply', Function.iterate_succ_apply', ← ih]
    rfl

variable [Literal α]

theorem lexes_sineText {t : Text} {d : Grammar.Sum α} (h : Token.Lexes ends t d.symbols)
    (n : Nat) : Token.Lexes ends (sineText^[n] t) (sineSum^[n] d).symbols := by
  induction n with
  | zero => exact h
  | succ n ih =>
    rw [Function.iterate_succ_apply', Function.iterate_succ_apply']
    show Token.Lexes ends _ ((_ ++ []) ++ [])
    rw [List.append_nil, List.append_nil]
    exact lexes_call .sin ih

theorem levels_sine (h1 : (1 : α) == 1) (e : Expr α) (n : Nat) :
    (sine^[n] e).extent.levels = e.extent.levels + n := by
  induction n with
  | zero => rfl
  | succ n ih =>
    rw [Function.iterate_succ_apply', sine, extent, Extent.withCoeff_of_beq_one h1]
    exact congrArg (· + 1) ih

end

/-- the derivation of `x / -x` -/
def opposite : Grammar.Sum Float :=
  .mk (.mk (.plus (.atom .var)) (.slash (.minus (.atom .var)) .nil)) .nil

theorem lexes_opposite : Token.Lexes ends "x/-x".toList opposite.symbols := by
  have hx : Token.Lexes (α := Float) ends ['x'] [.name ['x']] :=
    (Token.Lexes.word (List.forall_mem_singleton.2 rfl)).mono fun _ => not_isAlpha_of_ends
  exact lexes_operator rfl rfl rfl hx (hx.char rfl rfl)

/-- in the text of the tree the denominator is in brackets -/
theorem levels_opposite : opposite.tree.extent.levels = 2 := by
  have hs : (Expr.var : Expr Float).scale (-1) = .product [.var] (-1) := by
    rw [scale_of_isSum_eq_false (-1) rfl, if_neg (by decide +kernel), if_pos (by decide +kernel)]
    rfl
  show (sumOf [.quotient .var ((Expr.var : Expr Float).scale (-1)) 1]).extent.levels = 2
  rw [hs]
  decide +kernel

theorem ofText_sines {n : Nat} (hn : n + 1 ≤ maxDepth) :
    ofText (sineText^[n] "x/-x".toList) = .ok (sine^[n] opposite.tree) := by
  have ht : (sineText^[n] "x/-x".toList).trim ≠ [] := by
    cases n with
    | zero => exact Text.trim_cons_ne_nil rfl _
    | succ n =>
      rw [Function.iterate_succ_apply']
      exact Text.trim_cons_ne_nil rfl _
  have hk : opposite.Constant := ⟨⟨trivial, trivial, trivial⟩, trivial⟩
  rw [← tree_sineSum]
  refine ofText_eq_tree ht (lexes_sineText lexes_opposite n) (constant_sineSum hk n) ?_
  rw [depth_sineSum]
  exact hn

/-! ## what is read back -/

/-- The text of a tree that was read is read again if and only if it has no more levels than there
are.  A tree with at most half as many nodes as there are levels, and one more, is small enough. -/
theorem ofText_render_ok_iff {t : Text} {e : Expr Float} (h : ofText t = .ok e) :
    ((∃ e' : Expr Float, ofText e.render = .ok e') ↔ e.extent.levels ≤ maxDepth)
    ∧ (maxDepth < e.extent.levels →
      ∃ pos, ofText e.render = (.error (.tooDeep pos) : Except Fault (Expr Float)))
    ∧ (2 * e.size ≤ maxDepth + 2 → ∃ e' : Expr Float, ofText e.render = .ok e') := by
  have hf := formed_of_ofText h
  refine ⟨hf.ofText_render_iff, hf.ofText_render_tooDeep, fun hs => hf.ofText_render_iff.2 ?_⟩
  have := hf.fits.levels
  omega

/-- the text of `x / -x` without blanks, whose tree is small enough -/
theorem ofText_render_ok_opposite : ofText "x/-x".toList = .ok opposite.tree
    ∧ ((∃ e' : Expr Float, ofText opposite.tree.render = .ok e')
      ↔ opposite.tree.extent.levels ≤ maxDepth)
    ∧ ∃ e' : Expr Float, ofText opposite.tree.render = .ok e' :=
  have h := ofText_sines (n := 0) (by decide)
  have h' := ofText_render_ok_iff h
  ⟨h, h'.1, h'.2.2 (by decide +kernel)⟩

/-- with a sine for each level but one, the text is read and that of the tree is not -/
theorem not_ofText_render_ok : ¬ ∀ (t : Text) (e : Expr Float), ofText t = .ok e →
    ∃ e' : Expr Float, ofText e.render = .ok e' := by
  intro h
  have ht := ofText_sines (n := 255) (Nat.le_refl maxDepth)
  have hl := (formed_of_ofText ht).ofText_render_iff.1 (h _ _ ht)
  rw [levels_sine (by decide +kernel), levels_opposite] at hl
  exact absurd hl (by decide)

end CurveStudy.Expr
