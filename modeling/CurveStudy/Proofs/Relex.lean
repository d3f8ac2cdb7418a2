import CurveStudy.Proofs.Double.Unsigned
import CurveStudy.Proofs.Grammar.Relocate
import CurveStudy.Proofs.OfText

/-!
# The tokens of a list of tokens written out

The texts of tokens with a space between two of them have the same tokens, but for their places:
a space ends words and numerals, names are in small letters already, and a number is written as a
plain numeral that reads back to it.  So they have the same tree too, or the same fault but for its
place.

* `Token.Lexeme.lexes_text`   the text of the symbol of a lexeme;
* `Token.exists_scan_textOf`   the texts of the tokens of a scan, scanned again;
* `Expr.ofText_eq_bind`   a text is scanned and then read, blank or not;
* `Expr.ofTokens_congr`   tokens with the same symbols have the same tree, or the same fault.
-/

namespace CurveStudy

/-! ## small letters -/

theorem toLower_of_isLower {c : Char} (h : c.isLower) : c.toLower = c := by
  obtain ⟨h1, -⟩ := Bool.and_eq_true_iff.1 h
  have h1 : 97 ≤ c.val.toNat := UInt32.le_iff_toNat_le.1 (of_decide_eq_true h1)
  refine dif_neg fun h' => ?_
  have h2 : c.val.toNat ≤ 90 := UInt32.le_iff_toNat_le.1 h'.2
  omega

theorem isLower_toLower {c : Char} (h : c.isAlpha) : c.toLower.isLower := by
  rcases Bool.or_eq_true_iff.1 h with hu | hl
  · have hu := of_decide_eq_true hu
    have h1 : 65 ≤ c.val.toNat := UInt32.le_iff_toNat_le.1 hu.1
    have h2 : c.val.toNat ≤ 90 := UInt32.le_iff_toNat_le.1 hu.2
    have hv : c.toLower.val.toNat = c.val.toNat + 32 := by
      have hl : c.toLower.val = c.val + 32 := congrArg Char.val (dif_pos hu)
      rw [hl]
      refine (UInt32.toNat_add ..).trans (Nat.mod_eq_of_lt ?_)
      show c.val.toNat + 32 < 2 ^ 32
      omega
    refine Bool.and_eq_true_iff.2 ⟨decide_eq_true ?_, decide_eq_true ?_⟩
    · refine UInt32.le_iff_toNat_le.2 ?_
      rw [hv]
      show 97 ≤ _
      omega
    · refine UInt32.le_iff_toNat_le.2 ?_
      rw [hv]
      show _ ≤ 122
      omega
  · rwa [toLower_of_isLower hl]

namespace Token
open CurveStudy.Grammar (ends not_isAlpha_of_ends endsNumeral_of_ends)
variable {α : Type}

/-! ## the text of a symbol -/

section
variable {w : Text}

theorem map_toLower_idem (hw : ∀ c ∈ w, c.isAlpha) :
    (w.map Char.toLower).map Char.toLower = w.map Char.toLower := by
  rw [List.map_map]
  exact List.map_congr_left fun c hc => toLower_of_isLower (isLower_toLower (hw c hc))

theorem ofWord_cases (w : Text) : (ofWord w : Symbol α) = .pi
    ∨ w.map Char.toLower ≠ "pi".toList ∧ (ofWord w : Symbol α) = .name (w.map Char.toLower) := by
  rw [ofWord]
  by_cases h : w.map Char.toLower = "pi".toList
  · exact .inl (if_pos h)
  · exact .inr ⟨h, if_neg h⟩

variable [Scalar α] [Literal α]

theorem lexes_pi : Lexes ends ['π'] [(.pi : Symbol α)] := Lexes.nil.char rfl rfl

/-- the text of a word lexes to the word -/
theorem lexes_text_ofWord (h : w ≠ []) (hw : ∀ c ∈ w, c.isAlpha) :
    Lexes ends (ofWord w : Symbol α).text [(ofWord w : Symbol α)] := by
  rcases ofWord_cases (α := α) w with hs | ⟨hpi, hs⟩
  · rw [hs]
    exact lexes_pi
  · have hv : (ofWord (w.map Char.toLower) : Symbol α) = .name (w.map Char.toLower) := by
      rw [ofWord, map_toLower_idem hw]
      exact if_neg hpi
    have hl : ∀ c ∈ w.map Char.toLower, c.isAlpha := by
      intro c hc
      obtain ⟨d, hd, rfl⟩ := List.mem_map.1 hc
      exact Bool.or_eq_true_iff.2 (.inr (isLower_toLower (hw d hd)))
    have hne : w.map Char.toLower ≠ [] := fun h' => h (List.map_eq_nil_iff.1 h')
    rw [hs, ← hv]
    generalize w.map Char.toLower = v at hl hne hv
    rw [hv, Symbol.text, ← hv]
    obtain ⟨c, v, rfl⟩ := List.exists_cons_of_ne_nil hne
    exact (Lexes.word hl).mono fun _ => not_isAlpha_of_ends

/-- what the symbol of a lexeme is written as lexes to the symbol -/
theorem Lexeme.lexes_text [PlainText α] [UnsignedLiterals α] {s : Symbol α} (h : Lexeme w s)
    (hf : s.IsFinite) : Lexes ends s.text [s] := by
  cases h with
  | @char c s hc =>
    unfold ofChar? at hc
    split at hc <;> cases hc
    case h_9 => exact lexes_text_ofWord (w := "sqrt".toList) (by decide) (List.all_eq_true.1 rfl)
    all_goals exact Lexes.nil.char rfl rfl
  | word h hw => exact lexes_text_ofWord h hw
  | numeral hn =>
    obtain ⟨ht, hv⟩ := PlainText.unsigned hf (UnsignedLiterals.isSigned_text _ _ hf)
    exact (Lexes.numeral ht hv hf).mono fun _ => endsNumeral_of_ends

/-! ## the texts of the tokens of a scan -/

/-- a space between two texts -/
theorem lexes_joinWith {σ : List (Symbol α)} (h : ∀ s ∈ σ, Lexes ends s.text [s]) :
    Lexes ends (Text.joinWith [' '] (σ.map Symbol.text)) σ := by
  induction σ with
  | nil => exact .nil
  | cons s σ ih =>
    obtain ⟨hs, hσ⟩ := List.forall_mem_cons.1 h
    cases σ with
    | nil => exact hs
    | cons r σ =>
      have hr := (ih hσ).blank (c := ' ') rfl
      rw [List.map_cons, List.map_cons, Text.joinWith_cons_cons, List.append_assoc]
      exact hs.append hr (by rintro c ⟨⟩; rfl) fun _ h => h

/-- the tokens of a text, written out and scanned again: the same symbols -/
theorem exists_scan_textOf [PlainText α] [UnsignedLiterals α] {t : Text} {ts : List (Token α)}
    (h : scan t = .ok ts) : ∃ us : List (Token α), scan (textOf ts) = .ok us
      ∧ us.map Token.symbol = ts.map Token.symbol := by
  have hl : Lexes ends (textOf ts) (ts.map Token.symbol) := by
    have ht : textOf ts = Text.joinWith [' '] ((ts.map Token.symbol).map Symbol.text) := by
      rw [textOf, List.map_map]
      rfl
    rw [ht]
    refine lexes_joinWith fun s hs => ?_
    obtain ⟨k, hk, rfl⟩ := List.mem_map.1 hs
    obtain ⟨u, w, rest, -, -, hw⟩ := (scanFrom_eq_ok_iff.1 h).slice hk
    exact hw.lexeme.lexes_text hw.isFinite
  exact hl.scan_eq_ok

end

end Token

/-! ## tokens in other places -/

namespace Expr
variable {α : Type} [Scalar α] [Literal α]

/-- a text is scanned and then read, blank or not -/
theorem ofText_eq_bind (t : Text) :
    (ofText t : Except Fault (Expr α)) = Token.scan t >>= ofTokens := by
  rw [ofText]
  by_cases ht : t.trim.isEmpty
  · obtain ⟨v, hv, hu⟩ := t.exists_trim
    rw [List.isEmpty_iff.1 ht, List.nil_append] at hu
    have hb : ∀ c ∈ t.takeWhile isBlank, isBlank c := fun c hc => List.mem_takeWhile_imp hc
    have hs : Token.scan (α := α) t = .ok [] := by
      rw [Token.scan, hu, Token.scanFrom_blanks hb, ← List.append_nil v, Token.scanFrom_blanks hv,
        Token.scanFrom_nil]
    rw [if_pos ht, hs]
    rfl
  · rw [if_neg ht]

end Expr

/-- the fault without its place -/
def Fault.unplaced (f : Fault) : Fault := f.relocate fun _ => 0

theorem Fault.Follows.unplaced_eq {f g : Fault} (h : f.Follows (fun _ => 0) g) :
    g.unplaced = f.unplaced := by
  rcases h with rfl | ⟨rfl, -⟩
  · cases f <;> rfl
  · rfl

namespace Expr
variable {α : Type} [Scalar α] [Literal α]

theorem mapError_ofTokens_relocate (ts : List (Token α)) :
    (ofTokens (ts.map (Token.relocate fun _ => 0))).mapError Fault.unplaced
      = (ofTokens ts).mapError Fault.unplaced := by
  have h := ofTokens_relocate (fun _ => 0) ts
  generalize ofTokens ts = r at h
  generalize ofTokens (ts.map (Token.relocate fun _ => 0)) = s at h
  cases h with
  | ok e => rfl
  | error hf => exact congrArg Except.error hf.unplaced_eq

/-- tokens with the same symbols have the same tree, or the same fault but for its place -/
theorem ofTokens_congr {ts us : List (Token α)} (h : us.map Token.symbol = ts.map Token.symbol) :
    (ofTokens us).mapError Fault.unplaced = (ofTokens ts).mapError Fault.unplaced := by
  have hp : ∀ vs : List (Token α), vs.map (Token.relocate fun _ => 0)
      = (vs.map Token.symbol).map fun s => ⟨s, 0⟩ := by
    intro vs
    rw [List.map_map]
    rfl
  rw [← mapError_ofTokens_relocate us, ← mapError_ofTokens_relocate ts, hp, hp, h]

variable [PlainText α] [UnsignedLiterals α]

/-- The tokens of a text, written out with a space between two of them, have the same symbols when
they are scanned again, and then the same tree, or the same fault but for its place. -/
theorem ofText_textOf {t : Text} {ts : List (Token α)} (h : Token.scan t = .ok ts) :
    (∃ us : List (Token α), Token.scan (Token.textOf ts) = .ok us
      ∧ us.map Token.symbol = ts.map Token.symbol)
    ∧ (ofText (Token.textOf ts) : Except Fault (Expr α)).mapError Fault.unplaced
      = (ofText t).mapError Fault.unplaced := by
  obtain ⟨us, hus, hs⟩ := Token.exists_scan_textOf h
  refine ⟨⟨us, hus, hs⟩, ?_⟩
  rw [ofText_eq_bind, ofText_eq_bind, hus, h]
  exact ofTokens_congr hs

/-- `2πX`, where the name is not in small letters and nothing stands between the tokens -/
theorem ofText_textOf_two_pi_var :
    PlainText Float ∧ UnsignedLiterals Float
    ∧ ∃ ts : List (Token Float), Token.scan ['2', 'π', 'X'] = .ok ts
      ∧ (∃ us : List (Token Float), Token.scan (Token.textOf ts) = .ok us
        ∧ us.map Token.symbol = ts.map Token.symbol)
      ∧ (ofText (Token.textOf ts) : Except Fault (Expr Float)).mapError Fault.unplaced
        = (ofText ['2', 'π', 'X']).mapError Fault.unplaced := by
  have h2 : Token.front '2' ['π', 'X']
      = .token (.num (Numeral.value ['2'] : Float)) ['2'] ['π', 'X'] :=
    Token.front_numeral (n := []) (.whole (by decide) (List.forall_mem_singleton.2 rfl))
      (by decide +kernel) (by rintro d ⟨⟩; rfl)
  have hp : Token.front 'π' ['X'] = (.token .pi ['π'] ['X'] : Token.Front Float) :=
    Token.front_char rfl rfl _
  have hx : Token.front 'X' [] = (.token (.name ['x']) ['X'] [] : Token.Front Float) := rfl
  have h : Token.scan ['2', 'π', 'X'] = .ok ([⟨.num (Numeral.value ['2']), 0⟩, ⟨.pi, 1⟩,
      ⟨.name ['x'], 3⟩] : List (Token Float)) := by
    simp [Token.scan, h2, hp, hx, Except.map, Char.utf8Size]
  exact ⟨inferInstance, inferInstance, _, h, ofText_textOf h⟩

end Expr

end CurveStudy
