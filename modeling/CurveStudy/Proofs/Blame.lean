import CurveStudy.Proofs.Grammar.Blame
import CurveStudy.Proofs.Relex

/-!
# Where a fault of a text stands

The place of a fault is where the piece of the text starts that the fault is about: a character, a
numeral or the slice of a token.  There is one exception.  An exponent that is missing at the end of
a text, if there are too many levels already, is refused at the place zero and not at the end.

* `Token.StandsIn`   a token stands where its slice starts;
* `Expr.Blames`      a fault stands at what it is about;
* `Expr.ofText_blames`   the faults of texts, with the exception;
* `Expr.not_ofText_blames`   a text of the exception.
-/

namespace CurveStudy

/-- the token stands where its slice starts -/
def Token.StandsIn {α : Type} [Scalar α] [Literal α] (t : Text) (k : Token α) : Prop :=
  ∃ u w rest, t = u ++ (w ++ rest) ∧ k.pos = u.byteSize ∧ Token.Slice w k.symbol rest

namespace Expr
open CurveStudy.Grammar

section
variable (α : Type) [Scalar α] [Literal α]

/-- The fault stands at what it is about: at what stops the scan, at a token, or at the end of the
text if it is about an exponent that is missing there. -/
inductive Blames (t : Text) : Fault → Prop where
  | scan {u v : Text} {f : Fault} (h : t = u ++ v)
      (hs : Token.Stops (fun x : α => Scalar.isFinite x = false) u.byteSize v f) : Blames t f
  | token {ts : List (Token α)} {f : Fault} (hs : Token.scan t = .ok ts)
      (hk : ∀ k ∈ ts, Token.StandsIn t k) (h : Culprit ts f) : Blames t f
  | atEnd {ts : List (Token α)} (hs : Token.scan t = .ok ts) (h : OpenEnd ts) :
      Blames t (.tooDeep t.byteSize)

end

variable {α : Type}

/-- one symbol opens no level above the limit -/
theorem level_levels_singleton (s : Symbol α) : (levels [s]).frame.level ≤ maxDepth := by
  cases s with
  | opening =>
    show 1 ≤ 256
    decide
  | _ => exact Nat.zero_le _

variable [Scalar α] [Literal α]

theorem standsIn_of_scan {t : Text} {ts : List (Token α)} (hs : Token.scan t = .ok ts) :
    ∀ k ∈ ts, Token.StandsIn t k := by
  intro k hk
  obtain ⟨u, w, rest, ht, hp, hw⟩ := (Token.scanFrom_eq_ok_iff.1 hs).slice hk
  exact ⟨u, w, rest, ht, hp.trans (Nat.zero_add _), hw⟩

/-- no level above the limit is opened where the text starts -/
theorem not_blames_tooDeep_zero (t : Text) : ¬Blames α t (.tooDeep 0) := by
  intro h
  generalize hf : Fault.tooDeep 0 = f at h
  cases h with
  | scan _ hs => cases hs <;> cases hf
  | @atEnd ts hs h =>
    have ht : t = [] := by
      by_contra ht
      exact Nat.ne_of_lt (Text.byteSize_pos ht) (Fault.tooDeep.inj hf)
    subst ht
    rw [Token.scan, Token.scanFrom_nil] at hs
    cases hs
    cases h.last
  | @token ts _ hs _ h =>
    cases h with
    | @tooDeep us vs k hts _ hk =>
      cases us with
      | nil => exact absurd (level_levels_singleton k.symbol) (Nat.not_le.2 hk)
      | cons u us =>
        have hlt : 0 < k.pos := (Token.le_pos_of_scanFrom hs).2 k (by
          rw [hts]
          exact List.mem_append_right us (List.mem_cons_self ..))
        exact Nat.ne_of_lt hlt (Fault.tooDeep.inj hf)
    | _ => cases hf

variable [FiniteLiterals α]

/-- A fault of a text stands at what it is about if and only if it is not the one of too many levels
at the place zero.  That one is about an exponent that is missing at the end of the text. -/
theorem ofText_blames {t : Text} {f : Fault} (h : ofText t = (.error f : Except Fault (Expr α))) :
    (Blames α t f ↔ f ≠ .tooDeep 0)
    ∧ (f = .tooDeep 0 → ∃ ts : List (Token α), Token.scan t = .ok ts ∧ OpenEnd ts) := by
  have hne : Blames α t f → f ≠ .tooDeep 0 := by
    rintro hb rfl
    exact not_blames_tooDeep_zero t hb
  have hb : Blames α t f
      ∨ f = .tooDeep 0 ∧ ∃ ts : List (Token α), Token.scan t = .ok ts ∧ OpenEnd ts := by
    rw [ofText_eq_bind] at h
    rcases cases_of_bind_eq_error h with h | ⟨ts, hs, h⟩
    · obtain ⟨u, v, -, ht, -, hs⟩ := Token.scan_eq_error_cut h
      exact .inl (.scan ht hs)
    · have h0 : f ≠ .nonFiniteNumber 0 := by
        rintro rfl
        exact ofTokens_ne_nonFiniteNumber hs h
      rcases ofTokens_blames h0 h with hc | ⟨hf, he⟩
      · exact .inl (.token hs (standsIn_of_scan hs) hc)
      · exact .inr ⟨hf, ts, hs, he⟩
  refine ⟨⟨hne, fun hf => hb.resolve_right fun h => hf h.1⟩, fun hf => ?_⟩
  exact (hb.resolve_left fun h => hne h hf).2

/-- a bracket that nothing opens, behind an operand -/
theorem ofText_blames_closing :
    FiniteLiterals Float
    ∧ ofText ['x', ')'] = (.error (.unmatchedBracket 1) : Except Fault (Expr Float))
    ∧ (Blames Float ['x', ')'] (.unmatchedBracket 1)
      ↔ Fault.unmatchedBracket 1 ≠ .tooDeep 0) := by
  have hx : Token.front 'x' [')'] = (.token (.name ['x']) ['x'] [')'] : Token.Front Float) := rfl
  have hc : Token.front ')' [] = (.token .closing [')'] [] : Token.Front Float) :=
    Token.front_char rfl rfl _
  have hs : Token.scan ['x', ')']
      = .ok ([⟨.name ['x'], 0⟩, ⟨.closing, 1⟩] : List (Token Float)) := by
    simp [Token.scan, hx, hc, Except.map, Char.utf8Size]
  have h : ofText ['x', ')'] = (.error (.unmatchedBracket 1) : Except Fault (Expr Float)) := by
    rw [ofText_eq_bind, hs]
    rfl
  exact ⟨inferInstance, h, (ofText_blames h).1⟩

/-! ## an exponent that is missing -/

/-- brackets, and in them a power without its exponent -/
def openEnd (n : Nat) : Text := List.replicate n '(' ++ ['x', '^']

def openEndSymbols (α : Type) (n : Nat) : List (Symbol α) :=
  List.replicate n .opening ++ [.name ['x'], .caret]

section
omit [FiniteLiterals α]

theorem lexes_openEnd (n : Nat) :
    Token.Lexes (fun d => !d.isAlpha) (openEnd n) (openEndSymbols α n) := by
  induction n with
  | zero =>
    have hx : Token.Lexes (α := α) (fun d => !d.isAlpha) ['x'] [.name ['x']] :=
      Token.Lexes.word (List.forall_mem_singleton.2 rfl)
    exact hx.append (Token.Lexes.nil.char rfl rfl) (by rintro c ⟨⟩; rfl) fun _ h => h
  | succ n ih => exact ih.char rfl rfl

/-- the fault of the first operand is that of the sum -/
theorem readSum_of_readPower {n : Nat} {c : Cursor α} {f : Fault} {s : Symbol α}
    {σ : List (Symbol α)} (hs : startsOperand s) (hc : c.symbols = s :: σ)
    (h : readPower n c = .error f) : readSum (n + 3) c = .error f := by
  rw [readSum, readProduct, readSigned_operand hs hc, h]
  rfl

/-- the power is read inside all the brackets, where its exponent would be one level too many -/
theorem readSum_openEnd {n m : Nat} {c : Cursor α} (hc : c.symbols = openEndSymbols α n)
    (hd : c.depth + n = maxDepth) : readSum (6 * n + 5 + m) c = .error (.tooDeep 0) := by
  induction n generalizing c with
  | zero =>
    have hc : c.symbols = [.name ['x'], .caret] := hc
    rw [show 6 * 0 + 5 + m = m + 1 + 1 + 3 by omega]
    refine readSum_of_readPower rfl hc ?_
    obtain ⟨t, ts, hr, ht, hs⟩ := Cursor.rest_of_symbols hc
    have ha : readAtom (m + 1) c = .ok (.var, c.skip) := by
      rw [readAtom, hr]
      dsimp only
      rw [ht]
      rfl
    have hskip : c.skip.skip.rest = [] := by
      have h : c.skip.skip.symbols = [] := by simp [hs]
      exact List.map_eq_nil_iff.1 h
    have he : readExponent (m + 1) c.skip.skip = .error (.tooDeep 0) := by
      rw [readExponent, Cursor.enter, if_neg (by
        show ¬c.depth < maxDepth
        omega), Cursor.pos, hskip]
      rfl
    have hl : c.skip.look = some .caret := by rw [Cursor.look_eq_head?, hs]; rfl
    rw [readPower]
    refine bind_eq_error_of_ok ha ?_
    dsimp only
    rw [hl]
    dsimp only
    rw [he]
    rfl
  | succ n ih =>
    have hc : c.symbols = .opening :: openEndSymbols α n := hc
    rw [show 6 * (n + 1) + 5 + m = 6 * n + 5 + m + 1 + 1 + 1 + 3 by omega]
    refine readSum_of_readPower rfl hc ?_
    obtain ⟨t, ts, hr, ht, hs⟩ := Cursor.rest_of_symbols hc
    have hskip : c.skip.depth + 1 + n = maxDepth := by
      show c.depth + 1 + n = maxDepth
      omega
    have hlt : c.skip.depth < maxDepth := by omega
    have hb : readBrackets (6 * n + 5 + m + 1) c = .error (.tooDeep 0) := by
      rw [readBrackets]
      refine bind_eq_error_of_ok (Cursor.enter_eq_ok_iff.2 ⟨hlt, rfl⟩) ?_
      rw [ih (c := ⟨c.skip.rest, c.skip.depth + 1⟩) hs hskip]
      rfl
    have ha : readAtom (6 * n + 5 + m + 1 + 1) c = .error (.tooDeep 0) := by
      rw [readAtom, hr]
      dsimp only
      rw [ht]
      exact hb
    rw [readPower, ha]
    rfl

/-- inside as many brackets as there can be levels -/
theorem ofText_openEnd :
    ofText (openEnd maxDepth) = (.error (.tooDeep 0) : Except Fault (Expr α)) := by
  obtain ⟨ts, hs, hts⟩ := (lexes_openEnd (α := α) maxDepth).scan_eq_ok
  have hlen : ts.length = maxDepth + 2 := by
    rw [← List.length_map (f := Token.symbol), hts, openEndSymbols, List.length_append,
      List.length_replicate]
    rfl
  have hne : ¬ts.isEmpty := by
    rw [List.isEmpty_iff_length_eq_zero, hlen]
    exact Nat.succ_ne_zero _
  have hfuel : fuelFor ts = 6 * maxDepth + 5 + 531 := by
    rw [fuelFor, hlen]
    rfl
  have hr := readSum_openEnd (m := 531) (c := ⟨ts, 0⟩) hts (Nat.zero_add maxDepth)
  rw [ofText_eq_bind, hs]
  show ofTokens ts = _
  rw [ofTokens, if_neg hne, hfuel, hr]
  rfl

end

/-- Not every fault stands at what it is about.  An exponent that is missing at the end of the text,
inside as many brackets as there can be levels, is refused where the text starts. -/
theorem not_ofText_blames :
    ¬∀ (t : Text) (f : Fault), ofText t = (.error f : Except Fault (Expr Float)) →
      Blames Float t f :=
  fun h => not_blames_tooDeep_zero _ (h _ _ ofText_openEnd)

end Expr

end CurveStudy
