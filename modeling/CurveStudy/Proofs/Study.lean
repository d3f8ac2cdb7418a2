import CurveStudy.Proofs.OfText
import CurveStudy.Proofs.Trim
import CurveStudy.Study

/-!
# The study of a text and its tree

A study reads what trimming leaves of a text, and `Expr.ofText` reads the text itself.  The tokens
are the same but for their places, and the reader of tokens takes no decision by them, so that a
text has a study at a point if and only if it has a tree, and the two faults are the same but for
their places.

* `exists_eq_ofExpr`        a study is that of a tree;
* `map_function_ofText`     the tree of a study, out of its tokens;
* `ofText_shifted`          the tree of a study next to that of the text;
* `ofText_iff_expr_ofText`  a text has both or none, and the faults if it has none.
-/

namespace CurveStudy.Study
open Grammar (exists_of_bind_eq_ok)

variable {α : Type} [Scalar α] [Literal α] {t : Text} {x : α} {r : Study α}

/-- the tree of a study is that of the tokens of what trimming leaves -/
theorem map_function_ofText (t : Text) (x : α) :
    (ofText t x).map function
      = if t.trim.isEmpty then .error .empty else Token.scan t.trim >>= Expr.ofTokens := by
  rw [ofText]
  split
  · rfl
  · cases Token.scan (α := α) t.trim with
    | error f => rfl
    | ok ts =>
      show Except.map function (Expr.ofTokens ts >>= _) = Expr.ofTokens ts
      cases Expr.ofTokens ts <;> rfl

/-- a study is that of a tree, with the tokens it is read from -/
theorem exists_eq_ofExpr (h : ofText t x = .ok r) : ∃ ts f, r = ofExpr ts f x := by
  rw [ofText] at h
  split at h
  · cases h
  · obtain ⟨ts, -, h⟩ := exists_of_bind_eq_ok h
    obtain ⟨f, -, h⟩ := exists_of_bind_eq_ok h
    cases h
    exact ⟨ts, f, rfl⟩

theorem derivative_of_ofText (h : ofText t x = .ok r) : r.derivative = r.function.deriv := by
  obtain ⟨ts, f, rfl⟩ := exists_eq_ofExpr h
  rfl

variable [FiniteLiterals α]

theorem ofText_shifted (t : Text) (x : α) :
    Shifted t.indent id ((ofText t x).map function) (Expr.ofText t) := by
  rw [map_function_ofText, Expr.ofText]
  by_cases ht : t.trim.isEmpty
  · rw [if_pos ht, if_pos ht]
    exact .fault .empty
  · rw [if_neg ht, if_neg ht]
    refine (Token.scan_trim t).bind fun ts hs => ?_
    exact Expr.ofTokens_shift t.indent (Expr.ofTokens_ne_nonFiniteNumber hs)

theorem exists_ofText_of_expr {f : Expr α} (h : Expr.ofText t = .ok f) (x : α) :
    ∃ r, ofText t x = .ok r ∧ r.function = f := by
  have hs := ofText_shifted t x
  rw [h] at hs
  cases hr : ofText t x with
  | error g =>
    rw [hr] at hs
    cases hs
  | ok r =>
    rw [hr] at hs
    cases hs
    exact ⟨r, rfl, rfl⟩

/-- A text has a study at a point if and only if it has a tree, which is then the tree of the study,
and the derivative of the study is that of the tree.  If it has none, the two faults are the same,
with the same names, characters and texts, and that of the study stands nearer to the front by the
bytes of the blanks there; only for too many levels where the tokens end both places are zero. -/
theorem ofText_iff_expr_ofText (t : Text) (x : α) :
    (∀ r, ofText t x = .ok r →
      Expr.ofText t = .ok r.function ∧ r.derivative = r.function.deriv)
    ∧ (∀ f, Expr.ofText t = .ok f → ∃ r, ofText t x = .ok r ∧ r.function = f)
    ∧ (∀ f, ofText t x = .error f →
      ∃ g, (Expr.ofText t : Except Fault (Expr α)) = .error g ∧ f.Moved t.indent g) := by
  have hs := ofText_shifted t x
  refine ⟨fun r hr => ⟨?_, derivative_of_ofText hr⟩, fun f hf => exists_ofText_of_expr hf x,
    fun f hf => ?_⟩
  · rw [hr] at hs
    exact hs.eq_ok
  · rw [hf] at hs
    exact hs.eq_error

/-- `x` behind an ideographic space, which takes three bytes -/
theorem scan_indent_var : Token.scan ['\u3000', 'x'] = .ok [(⟨.name ['x'], 3⟩ : Token Float)] := by
  have hb : Token.front '\u3000' ['x'] = (.blank : Token.Front Float) := Token.front_blank rfl _
  have hx : Token.front 'x' [] = (.token (.name ['x']) ['x'] [] : Token.Front Float) := rfl
  simp [Token.scan, hb, hx, Except.map, Char.utf8Size]

theorem scan_closing : Token.scan [')'] = .ok [(⟨.closing, 0⟩ : Token Float)] := by
  have hc : Token.front ')' [] = (.token .closing [')'] [] : Token.Front Float) :=
    Token.front_char rfl rfl _
  simp [Token.scan, hc, Except.map]

/-- an ideographic space in front of `x`, and of a bracket that nothing opens -/
theorem ofText_iff_expr_ofText_indent :
    FiniteLiterals Float
    ∧ (∃ r : Study Float, ofText ['\u3000', 'x'] 2 = .ok r ∧ r.function = .var)
    ∧ ∃ g, (Expr.ofText ['\u3000', ')'] : Except Fault (Expr Float)) = .error g
      ∧ (Fault.unmatchedBracket 0).Moved 3 g := by
  refine ⟨inferInstance, ?_, ?_⟩
  · refine (ofText_iff_expr_ofText ['\u3000', 'x'] (2 : Float)).2.1 .var ?_
    rw [Expr.ofText_eq_ofTokens (by decide) scan_indent_var]
    rfl
  · refine (ofText_iff_expr_ofText ['\u3000', ')'] (2 : Float)).2.2 (.unmatchedBracket 0) ?_
    have ht : Text.trim ['\u3000', ')'] = [')'] := by decide
    rw [ofText, ht, scan_closing]
    rfl

end CurveStudy.Study
