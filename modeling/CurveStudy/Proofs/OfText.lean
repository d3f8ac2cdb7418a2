import Mathlib.Data.List.TakeWhile
import Mathlib.Tactic.Ring
import CurveStudy.Proofs.Double
import CurveStudy.Proofs.Grammar.Place
import CurveStudy.Proofs.Grammar.Shape
import CurveStudy.Proofs.Grammar.Text

/-!
# From a text to its tree

A scan gives finite numbers, so the tree of a text and all its derivatives have the shape of the
trees that the constructors make, with finite numbers at every node, and the test of finiteness at
the end of `Expr.ofTokens` never fails on the tokens of a scan.

* `ofText_eq_tree`, `ofText_tooDeep`   the text of a derivation, within the levels or too deep;
* `formed_of_readSum`   what is read from the tokens of a scan, with all of them or not;
* `ofText_formed`   the shape of the tree of a text and of its derivatives.
-/

set_option linter.unusedSectionVars false

namespace CurveStudy

theorem Text.trim_cons_ne_nil {c : Char} (h : isBlank c = false) (t : Text) :
    trim (c :: t) ≠ [] := by
  intro h'
  rw [trim, trimStart_cons, h, if_neg Bool.false_ne_true] at h'
  have hb := List.dropWhile_eq_nil_iff.1 (List.reverse_eq_nil_iff.1 h') c
    (List.mem_reverse.2 (List.mem_cons_self ..))
  rw [h] at hb
  cases hb

namespace Expr
open CurveStudy.Grammar
variable {α : Type} [Scalar α] [Literal α]

theorem ofText_eq_ofTokens {t : Text} (ht : t.trim ≠ []) {ts : List (Token α)}
    (hs : Token.scan t = .ok ts) : ofText t = ofTokens ts := by
  rw [ofText, if_neg (by rwa [List.isEmpty_iff]), hs]
  rfl

variable [FiniteLiterals α]

/-- what is read from the tokens of a scan has the shape, also if there is something behind it -/
theorem formed_of_readSum {t : Text} {ts : List (Token α)} (hs : Token.scan t = .ok ts) {n : Nat}
    {e : Expr α} {c : Cursor α} (h : readSum n ⟨ts, 0⟩ = .ok (e, c)) :
    Formed (fun v => Scalar.isFinite v) e := by
  obtain ⟨d, hd, rfl, hk⟩ := readSum_derived (Nat.zero_le _) h
  refine d.formed (fun _ h => h) hk fun v hv => Token.isFinite_of_scanFrom hs ?_
  have hts : ts.map Token.symbol = d.symbols ++ c.symbols := hd.symbols_eq
  rw [hts]
  exact List.mem_append_left _ hv

/-- the tree of a text has the shape, and its numbers are finite -/
theorem formed_of_ofText {t : Text} {e : Expr α} (h : ofText t = .ok e) :
    Formed (fun v => Scalar.isFinite v) e := by
  rw [ofText] at h
  split at h
  · cases h
  · obtain ⟨ts, hs, h⟩ := exists_of_bind_eq_ok h
    obtain ⟨-, d, hd, -, hk, rfl, -⟩ := ofTokens_derived h
    exact d.formed (fun _ h => h) hk fun v hv => Token.isFinite_of_scanFrom hs (hd ▸ hv)

/-! ## the text of a derivation -/

section
variable {t : Text} {f : Char → Bool} {d : Grammar.Sum α}

/-- a text that lexes to the symbols of a derivation within the levels that there are -/
theorem ofText_eq_tree (ht : t.trim ≠ []) (h : Token.Lexes f t d.symbols) (hk : d.Constant)
    (hd : d.depth ≤ maxDepth) : ofText t = .ok d.tree := by
  obtain ⟨ts, hs, hts⟩ := h.scan_eq_ok
  have hf : d.tree.isFinite := by
    refine (d.formed (fun _ h => h) hk fun v hv => ?_).isFinite
    exact Token.isFinite_of_scanFrom hs (hts ▸ hv)
  rw [ofText_eq_ofTokens ht hs, ofTokens_of_depth_le hts hk hd, if_pos hf]

theorem ofText_tooDeep (ht : t.trim ≠ []) (h : Token.Lexes f t d.symbols) (hk : d.Constant)
    (hd : maxDepth < d.depth) :
    ∃ pos, ofText t = (.error (.tooDeep pos) : Except Fault (Expr α)) := by
  obtain ⟨ts, hs, hts⟩ := h.scan_eq_ok
  rw [ofText_eq_ofTokens ht hs]
  exact ofTokens_of_lt_depth hts hk hd

end

section
variable {t : Text} {f : α → α} {n : Nat}

/-- a text that the grammar reads, within the levels that there are -/
theorem ofText_ok_of_sumText (h : SumText t f n) (hn : n ≤ maxDepth) :
    ∃ e, ofText t = .ok e ∧ (IsExact α → ∀ x, e.eval x = f x) := by
  obtain ⟨⟨c, u, rfl, hc⟩, d, rfl, h⟩ := h
  have ht := Text.trim_cons_ne_nil hc u
  refine ⟨d.tree, ofText_eq_tree ht h.lexes h.constant hn, fun E x => ?_⟩
  have hv := h.value E x
  obtain ⟨E, rfl⟩ := E
  rw [d.eval_tree x, hv]

theorem ofText_tooDeep_of_sumText (h : SumText t f n) (hn : maxDepth < n) :
    ∃ pos, ofText t = (.error (.tooDeep pos) : Except Fault (Expr α)) := by
  obtain ⟨⟨c, u, rfl, hc⟩, d, rfl, h⟩ := h
  exact ofText_tooDeep (Text.trim_cons_ne_nil hc u) h.lexes h.constant hn

/-- a text that the grammar reads has too many levels, or a tree of the value it is read as -/
theorem ofText_of_sumText (h : SumText t f n) :
    (∃ pos, ofText t = (.error (.tooDeep pos) : Except Fault (Expr α)))
    ∨ ∃ e, ofText t = .ok e ∧ (IsExact α → ∀ x, e.eval x = f x) := by
  rcases Nat.lt_or_ge maxDepth n with hn | hn
  · exact .inl (ofText_tooDeep_of_sumText h hn)
  · exact .inr (ofText_ok_of_sumText h hn)

end

/-! ## no number that is not finite -/

/-- an exponent never starts where the text starts -/
theorem readSum_ne_nonFiniteNumber {t : Text} {ts : List (Token α)} (hs : Token.scan t = .ok ts)
    (n : Nat) : readSum n ⟨ts, 0⟩ ≠ .error (.nonFiniteNumber 0) := by
  intro h
  obtain ⟨u, hu, hp⟩ := (readSum_keeps n ⟨ts, 0⟩).place 0 h
  have hlt : 0 < u.pos := (Token.le_pos_of_scanFrom hs).2 u hu
  exact Nat.ne_of_gt hlt hp

theorem ofTokens_ne_nonFiniteNumber {t : Text} {ts : List (Token α)}
    (hs : Token.scan t = .ok ts) : ofTokens ts ≠ .error (.nonFiniteNumber 0) := by
  rw [ofTokens]
  split
  · intro hf
    cases hf
  · cases h : readSum (fuelFor ts) ⟨ts, 0⟩ with
    | error f =>
      intro hf
      obtain rfl : f = .nonFiniteNumber 0 := Except.error.inj hf
      exact readSum_ne_nonFiniteNumber hs _ h
    | ok p =>
      obtain ⟨e, ⟨us, l⟩⟩ := p
      cases us with
      | nil =>
        show (if e.isFinite then Except.ok e else _) ≠ _
        rw [if_pos (formed_of_readSum hs h).isFinite]
        intro hf
        cases hf
      | cons u us =>
        show Except.error (leftover u) ≠ _
        unfold leftover
        split <;> (intro hf; cases hf)

theorem ofText_ne_nonFiniteNumber (t : Text) :
    ofText t ≠ (.error (.nonFiniteNumber 0) : Except Fault (Expr α)) := by
  rw [ofText]
  split
  · intro hf
    cases hf
  · cases hs : Token.scan (α := α) t with
    | ok ts => exact ofTokens_ne_nonFiniteNumber hs
    | error f =>
      rcases Token.scan_eq_error hs with ⟨n, pos, rfl⟩ | ⟨c, pos, rfl⟩ <;> (intro hf; cases hf)

/-- In the tree of a text and in its derivatives of all orders, every number is finite, a sum has
at least two terms, none of them a sum, a product has a factor and no exponent is zero or one.  So
the test at the end of `Expr.ofTokens` succeeds on the tokens of every text, and no text is refused
for a number that is not finite at the place zero. -/
theorem ofText_formed (hsub : ∀ n : α, Scalar.isFinite n → Scalar.isFinite (n - 1)) (t : Text) :
    (∀ e : Expr α, ofText t = .ok e → ∀ n,
      Formed (fun v => Scalar.isFinite v) (deriv^[n] e) ∧ (deriv^[n] e).isFinite)
    ∧ (∀ ts : List (Token α), Token.scan t = .ok ts →
      ∀ e c, readSum (fuelFor ts) ⟨ts, 0⟩ = .ok (e, c) → e.isFinite)
    ∧ ofText t ≠ (.error (.nonFiniteNumber 0) : Except Fault (Expr α)) := by
  refine ⟨fun e he n => ?_, fun ts hs e c h => (formed_of_readSum hs h).isFinite,
    ofText_ne_nonFiniteNumber t⟩
  have h := (formed_of_ofText he).iterate_deriv (fun _ h => h) hsub n
  exact ⟨h, h.isFinite⟩

/-- ten to the power two hundred, written out -/
def large : Text := '1' :: List.replicate 200 '0'

/-- the derivation of two large numerals, the first of them with an operator behind it, and `x`:
the product of the numerals is infinite in double precision -/
def overflow : Grammar.Sum Float :=
  .mk (.mk (.plus (.atom (.num (Numeral.value large))))
    (.times (.plus (.atom (.num (Numeral.value large)))) (.next (.atom .var) .nil))) .nil

theorem isFinite_large : Scalar.isFinite (Numeral.value large : Float) := by decide +kernel

theorem lexes_large :
    Token.Lexes Numeral.endsNumeral large [.num (Numeral.value large : Float)] := by
  refine Token.Lexes.numeral (.whole (List.cons_ne_nil _ _) ?_) rfl isFinite_large
  refine List.forall_mem_cons.2 ⟨rfl, fun c hc => ?_⟩
  rw [List.eq_of_mem_replicate hc]
  rfl

theorem ofText_overflow : ofText (large ++ '*' :: (large ++ ['x'])) = .ok overflow.tree := by
  have hx : Token.Lexes (α := Float) ends ['x'] [.name ['x']] :=
    (Token.Lexes.word (List.forall_mem_singleton.2 rfl)).mono fun _ => not_isAlpha_of_ends
  have hlx : Token.Lexes ends (large ++ ['x']) [.num (Numeral.value large), .name ['x']] :=
    lexes_large.append hx (by rintro c ⟨⟩; rfl) fun _ => endsNumeral_of_ends
  have hs : Token.Lexes ends (large ++ '*' :: (large ++ ['x'])) overflow.symbols :=
    lexes_large.append (hlx.char rfl rfl) (by rintro c ⟨⟩; rfl) fun _ => endsNumeral_of_ends
  exact ofText_eq_tree (Text.trim_cons_ne_nil rfl _) hs (by repeat constructor) (by decide)

/-- two large numerals, whose product is infinite: the tree and its third derivative -/
theorem ofText_formed_overflow :
    FiniteLiterals Float ∧ (∀ n : Float, Scalar.isFinite n → Scalar.isFinite (n - 1))
    ∧ Scalar.isFinite ((Numeral.value large : Float) * Numeral.value large) = false
    ∧ ofText (large ++ '*' :: (large ++ ['x'])) = .ok overflow.tree
    ∧ (deriv^[3] overflow.tree).isFinite :=
  ⟨inferInstance, Double.isFinite_sub_one, by decide +kernel, ofText_overflow,
    ((ofText_formed (Double.isFinite_sub_one) _).1 _ ofText_overflow 3).2⟩

end Expr

end CurveStudy
