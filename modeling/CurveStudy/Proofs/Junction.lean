import CurveStudy.Proofs.Cut

/-!
# Where two texts meet

A text is put behind another one.  If no token goes on across the junction, then the tokens are
those of the first text and those of the second, in their places.

* `Numeral.inNumeral`, `Numeral.Shape.inNumeral`   the characters of numerals;
* `Token.Parted`   two characters that no token has side by side;
* `Token.Slice.append`, `Token.Cut.append`   what is cut into tokens in front of the junction;
* `Token.scan_append`   the tokens of the two texts together.
-/

namespace CurveStudy

/-- a prefix that the first character of the second text is not part of, ends in the first text -/
theorem isPrefix_of_isPrefix_append {n t u : Text} (h : n <+: t ++ u)
    (hu : ∀ c ∈ u.head?, t <+: n → c ∉ n) : n <+: t := by
  rcases Nat.le_total n.length t.length with hl | hl
  · exact List.prefix_of_prefix_length_le h (List.prefix_append t u) hl
  · have hn := List.prefix_of_prefix_length_le (List.prefix_append t u) h hl
    obtain ⟨v, rfl⟩ := hn
    cases v with
    | nil => exact (List.append_nil t).symm ▸ List.prefix_rfl
    | cons c v =>
      obtain ⟨w, rfl⟩ := (List.prefix_append_right_inj t).1 h
      exact absurd (by simp) (hu c rfl (List.prefix_append ..))

theorem exists_getLast? {t : Text} (h : t ≠ []) : ∃ d ∈ t.getLast?, d ∈ t :=
  ⟨t.getLast h, List.getLast?_eq_some_getLast h, List.getLast_mem h⟩

namespace Numeral

/-- the characters of numerals -/
def inNumeral (c : Char) : Bool :=
  c.isDigit || c == '.' || c == 'e' || c == 'E' || c == '+' || c == '-'

theorem inNumeral_of_isDigit {c : Char} (h : c.isDigit) : inNumeral c := by
  simp [inNumeral, h]

theorem inNumeral_of_isBlank {c : Char} (h : isBlank c) : inNumeral c = false := by
  simp [inNumeral, isDigit_of_isBlank h, ne_of_isBlank h (d := '.') rfl,
    ne_of_isBlank h (d := 'e') rfl, ne_of_isBlank h (d := 'E') rfl,
    ne_of_isBlank h (d := '+') rfl, ne_of_isBlank h (d := '-') rfl]

theorem Mantissa.inNumeral {m : Text} (h : Mantissa m) : ∀ c ∈ m, inNumeral c := by
  intro c hc
  cases h with
  | plain h =>
    cases h with
    | whole _ hw => exact inNumeral_of_isDigit (hw c hc)
    | decimal _ hw hd =>
      rcases List.mem_append.1 hc with hc | hc
      · exact inNumeral_of_isDigit (hw c hc)
      · rcases List.mem_cons.1 hc with rfl | hc
        · rfl
        · exact inNumeral_of_isDigit (hd c hc)
  | point _ hd =>
    rcases List.mem_cons.1 hc with rfl | hc
    · rfl
    · exact inNumeral_of_isDigit (hd c hc)

theorem Power.inNumeral {p : Text} (h : Power p) : ∀ c ∈ p, inNumeral c := by
  obtain ⟨he, hs, -, hd⟩ := h
  intro c hc
  rcases List.mem_append.1 hc with hc | hc
  · rcases List.mem_cons.1 hc with rfl | hc
    · rcases he with rfl | rfl <;> rfl
    · rcases hs with rfl | rfl | rfl
      · cases hc
      · obtain rfl := List.mem_singleton.1 hc
        rfl
      · obtain rfl := List.mem_singleton.1 hc
        rfl
  · exact inNumeral_of_isDigit (hd c hc)

theorem Shape.inNumeral {n : Text} (h : Shape n) : ∀ c ∈ n, inNumeral c := by
  intro c hc
  cases h with
  | plain hm => exact hm.inNumeral c hc
  | scientific hm hp =>
    rcases List.mem_append.1 hc with hc | hc
    · exact hm.inNumeral c hc
    · exact hp.inNumeral c hc

end Numeral

namespace Token
variable {α : Type}

/-- The two characters stand side by side in no token: the first one is blank, or the second one is
in no numeral, and they are not both letters. -/
def Parted (d c : Char) : Prop :=
  isBlank d ∨ Numeral.inNumeral c = false ∧ (d.isAlpha → c.isAlpha = false)

/-- no token goes on from the first text into the second -/
def Apart (t u : Text) : Prop := ∀ d ∈ t.getLast?, ∀ c ∈ u.head?, Parted d c

theorem Apart.of_append {s t u : Text} (h : Apart (s ++ t) u) : Apart t u := by
  intro d hd
  exact h d (by rw [List.getLast?_append, hd]; rfl)

theorem Lexeme.ne_nil [Literal α] {w : Text} {s : Symbol α} (h : Lexeme w s) : w ≠ [] := by
  obtain ⟨c, t, rfl, -⟩ := h.exists_cons
  exact List.cons_ne_nil c t

variable [Scalar α] [Literal α]

/-- what is cut off in front of a text is cut off there too if the text goes on -/
theorem Slice.append {w rest u : Text} {s : Symbol α} (h : Slice w s rest)
    (hu : Apart (w ++ rest) u) : Slice w s (rest ++ u) where
  lexeme := h.lexeme
  alone := h.alone
  word hw c hc := by
    cases rest with
    | cons a rest => exact h.word hw c hc
    | nil =>
      obtain ⟨d, hd, hm⟩ := exists_getLast? h.lexeme.ne_nil
      rw [List.append_nil] at hu
      rcases hu d hd c hc with hb | hp
      · rw [isBlank_of_isAlphanum (isAlphanum_of_isAlpha (hw d hm))] at hb
        cases hb
      · exact hp.2 (hw d hm)
  numeral hw n hn hp := by
    rw [← List.append_assoc] at hp
    refine h.numeral hw n hn (isPrefix_of_isPrefix_append hp fun c hc ht hcn => ?_)
    -- a numeral across the junction has the characters on both sides
    obtain ⟨d, hd, hm⟩ := exists_getLast? (List.append_ne_nil_of_left_ne_nil h.lexeme.ne_nil rest)
    have hin := hn.inNumeral d (ht.subset hm)
    rcases hu d hd c hc with hb | hc'
    · rw [Numeral.inNumeral_of_isBlank hb] at hin
      cases hin
    · rw [hn.inNumeral c hcn] at hc'
      cases hc'.1

theorem Cut.append {pos : Nat} {t u : Text} {ts us : List (Token α)} (h : Cut pos t ts)
    (ha : Apart t u) (hu : Cut (pos + t.byteSize) u us) : Cut pos (t ++ u) (ts ++ us) := by
  induction h with
  | nil hb => exact .blanks hb hu
  | @cons pos v w rest s ts hv hw h ih =>
    have hrest : Cut (pos + v.byteSize + w.byteSize + rest.byteSize) u us := by
      rwa [Text.byteSize_append, Text.byteSize_append, ← Nat.add_assoc, ← Nat.add_assoc] at hu
    rw [List.append_assoc, List.append_assoc]
    exact .cons hv (hw.append ha.of_append) (ih ha.of_append.of_append hrest)

/-- the tokens of two texts, the second one behind the first -/
theorem scan_append {t u : Text} {ts us : List (Token α)} (ha : Apart t u)
    (ht : scan t = .ok ts) (hu : scanFrom t.byteSize u = .ok us) :
    scan (t ++ u) = .ok (ts ++ us) := by
  refine Cut.scanFrom_eq (Cut.append (scanFrom_eq_ok_iff.1 ht) ha ?_)
  rw [Nat.zero_add]
  exact scanFrom_eq_ok_iff.1 hu

end Token

end CurveStudy
