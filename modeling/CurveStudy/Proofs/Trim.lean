import Mathlib.Data.List.TakeWhile
import CurveStudy.Proofs.Grammar.Shift
import CurveStudy.Proofs.Scan

/-!
# Blanks around a text

A blank is part of no numeral and of no word, so what stands at the front of a text does not depend
on the blanks at its end.  The tokens of a text are those of what trimming leaves of it, with their
places moved by the bytes of the blanks in front.

* `Text.exists_trim`       a text is the blanks in front, what trimming leaves, and more blanks;
* `Numeral.scan_append`    the numeral at the front of a text with blanks behind it;
* `Token.front_append`     the same for all that can stand there;
* `Token.scanFrom_blanks`, `Token.scanFrom_append_blanks`   a scan of a text with blanks in front of
                           it or behind it;
* `Token.scanFrom_shift`   a scan of a text that stands further on;
* `Token.scan_trim`        the three together.
-/

namespace CurveStudy

/-- a text is cut after the characters that satisfy a test at the same place if there is something
behind it that fails the test -/
theorem takeWhile_append_of_head {p : Char → Bool} {u : Text} (hu : ∀ c ∈ u.head?, p c = false)
    (t : Text) :
    (t ++ u).takeWhile p = t.takeWhile p ∧ (t ++ u).dropWhile p = t.dropWhile p ++ u := by
  induction t with
  | nil => exact takeWhile_dropWhile_append (w := []) nofun hu
  | cons c t ih =>
    rw [List.cons_append, List.takeWhile_cons, List.takeWhile_cons, List.dropWhile_cons,
      List.dropWhile_cons]
    cases p c with
    | false => exact ⟨rfl, rfl⟩
    | true => exact ⟨congrArg (c :: ·) ih.1, ih.2⟩

/-- the bytes of the blanks in front of a text -/
def Text.indent (t : Text) : Nat := byteSize (t.takeWhile isBlank)

/-- a text is the blanks in front of it, what trimming leaves, and the blanks at its end -/
theorem Text.exists_trim (t : Text) :
    ∃ v : Text, (∀ c ∈ v, isBlank c) ∧ t = t.takeWhile isBlank ++ (t.trim ++ v) := by
  refine ⟨(t.trimStart.reverse.takeWhile isBlank).reverse, fun c hc => ?_, ?_⟩
  · exact List.mem_takeWhile_imp (List.mem_reverse.1 hc)
  · rw [trim, trimEnd, trimEndWith, ← List.reverse_append, List.takeWhile_append_dropWhile,
      List.reverse_reverse, trimStart, List.takeWhile_append_dropWhile]

/-! ## blanks behind a numeral -/

theorem isAlphanum_of_isBlank {c : Char} (h : isBlank c) : c.isAlphanum = false := by
  refine Bool.eq_false_iff.2 fun ha => ?_
  rw [Token.isBlank_of_isAlphanum ha] at h
  cases h

theorem isAlpha_of_isBlank {c : Char} (h : isBlank c) : c.isAlpha = false :=
  (Bool.or_eq_false_iff.1 (isAlphanum_of_isBlank h)).1

theorem isDigit_of_isBlank {c : Char} (h : isBlank c) : c.isDigit = false :=
  (Bool.or_eq_false_iff.1 (isAlphanum_of_isBlank h)).2

theorem ne_of_isBlank {c d : Char} (h : isBlank c) (hd : isBlank d = false) : c ≠ d := by
  rintro rfl
  rw [h] at hd
  cases hd

namespace Numeral

theorem startsNumeral_cons (c : Char) (t : Text) :
    startsNumeral (c :: t) = if c = '.' then startsDigit t else c.isDigit := by
  split
  · rename_i h
    subst h
    rfl
  · rename_i h
    unfold startsNumeral
    split
    · rename_i heq
      exact absurd (List.cons.inj heq).1 h
    · rfl

theorem sign_of_ne {t : Text} (ht : ∀ c ∈ t.head?, c ≠ '+' ∧ c ≠ '-') : sign t = ([], t) := by
  unfold sign
  split
  · exact absurd rfl (ht '+' rfl).1
  · exact absurd rfl (ht '-' rfl).2
  · rfl

section
variable {u : Text} (hu : ∀ c ∈ u.head?, isBlank c) (t : Text)
include hu

theorem digits_append_of_head : digits (t ++ u) = ((digits t).1, (digits t).2 ++ u) := by
  have hd : ∀ c ∈ u.head?, c.isDigit = false := fun c hc =>
    isDigit_of_isBlank (hu c hc)
  obtain ⟨h1, h2⟩ := takeWhile_append_of_head hd t
  rw [digits, h1, h2]
  rfl

theorem startsDigit_append : startsDigit (t ++ u) = startsDigit t := by
  cases t with
  | cons c t => rfl
  | nil =>
    cases u with
    | nil => rfl
    | cons c u => exact isDigit_of_isBlank (hu c rfl)

theorem startsNumeral_append (c : Char) :
    startsNumeral (c :: (t ++ u)) = startsNumeral (c :: t) := by
  rw [startsNumeral_cons, startsNumeral_cons, startsDigit_append hu]

theorem fraction_append : fraction (t ++ u) = ((fraction t).1, (fraction t).2 ++ u) := by
  cases t with
  | nil => exact fraction_of_ne fun c hc => ne_of_isBlank (hu c hc) rfl
  | cons c t =>
    by_cases hc : c = '.'
    · subst hc
      rw [List.cons_append, fraction, fraction, digits_append_of_head hu]
    · have h : ∀ s, fraction (c :: s) = ([], c :: s) := fun s =>
        fraction_of_ne fun d hd => Option.some.inj hd ▸ hc
      rw [List.cons_append, h, h, List.cons_append]

theorem sign_append : sign (t ++ u) = ((sign t).1, (sign t).2 ++ u) := by
  cases t with
  | nil =>
    exact sign_of_ne fun c hc => ⟨ne_of_isBlank (hu c hc) rfl, ne_of_isBlank (hu c hc) rfl⟩
  | cons c t =>
    by_cases hc : c ≠ '+' ∧ c ≠ '-'
    · have h : ∀ s, sign (c :: s) = ([], c :: s) := fun s =>
        sign_of_ne fun d hd => Option.some.inj hd ▸ hc
      rw [List.cons_append, h, h, List.cons_append]
    · rcases Decidable.not_and_iff_or_not.1 hc with hc | hc <;>
        rw [List.cons_append, Decidable.not_not.1 hc, sign, sign]

theorem exponent_append : exponent (t ++ u) = ((exponent t).1, (exponent t).2 ++ u) := by
  cases t with
  | nil =>
    exact exponent_of_ne fun c hc => ⟨ne_of_isBlank (hu c hc) rfl, ne_of_isBlank (hu c hc) rfl⟩
  | cons c t =>
    rw [List.cons_append, exponent, exponent, sign_append hu]
    dsimp only
    rw [startsDigit_append hu, digits_append_of_head hu]
    split <;> rfl

theorem scan_append : scan (t ++ u) = ((scan t).1, (scan t).2 ++ u) := by
  unfold scan
  rw [digits_append_of_head hu]
  dsimp only
  rw [fraction_append hu]
  dsimp only
  rw [exponent_append hu]

end

end Numeral

/-! ## blanks behind a text -/

namespace Token
variable {α : Type}

/-- the same at the front of a text that goes on with `u` -/
def Front.append (u : Text) : Front α → Front α
  | .blank => .blank
  | .token s written rest => .token s written (rest ++ u)
  | .tooLarge n => .tooLarge n
  | .stray => .stray

variable [Scalar α] [Literal α]

theorem front_append {u : Text} (hu : ∀ c ∈ u.head?, isBlank c) (c : Char) (t : Text) :
    front c (t ++ u) = (front c t : Front α).append u := by
  have ha : ∀ d ∈ u.head?, d.isAlpha = false := fun d hd =>
    isAlpha_of_isBlank (hu d hd)
  obtain ⟨h1, h2⟩ := takeWhile_append_of_head ha (c :: t)
  rw [front, front, Numeral.startsNumeral_append hu, ← List.cons_append, h1, h2,
    Numeral.scan_append hu]
  dsimp only
  split
  · rfl
  · split
    · rfl
    · split
      · rfl
      · split
        · split <;> rfl
        · rfl

theorem scanFrom_blanks {u : Text} (hu : ∀ c ∈ u, isBlank c) (pos : Nat) (t : Text) :
    scanFrom (α := α) pos (u ++ t) = scanFrom (pos + u.byteSize) t := by
  induction u generalizing pos with
  | nil => rfl
  | cons c u ih =>
    obtain ⟨hc, hu⟩ := List.forall_mem_cons.1 hu
    rw [List.cons_append, scanFrom_cons, front_blank hc, Text.byteSize_cons, ← Nat.add_assoc]
    exact ih hu _

theorem scanFrom_append_blanks {u : Text} (hu : ∀ c ∈ u, isBlank c) (pos : Nat) (t : Text) :
    scanFrom (α := α) pos (t ++ u) = scanFrom pos t := by
  -- what stands at the front sees no more of `u` than its first character
  have hh : ∀ c ∈ u.head?, isBlank c := fun c hc => hu c (List.mem_of_head? hc)
  refine scanFrom_induction (motive := fun pos t r => scanFrom pos (t ++ u) = r)
    ?_ ?_ ?_ ?_ ?_ pos t
  · intro pos
    rw [List.nil_append, ← List.append_nil u, scanFrom_blanks hu, scanFrom_nil]
  · intro pos c t r h ih
    rw [List.cons_append, scanFrom_cons, front_append hh, h]
    exact ih
  · intro pos c t s w rest r h ih
    rw [List.cons_append, scanFrom_cons, front_append hh, h]
    exact congrArg (Except.map (⟨s, pos⟩ :: ·)) ih
  · intro pos c t n h
    rw [List.cons_append, scanFrom_cons, front_append hh, h]
    rfl
  · intro pos c t h
    rw [List.cons_append, scanFrom_cons, front_append hh, h]
    rfl

/-! ## a text that stands further on -/

theorem scanFrom_shift (k pos : Nat) (t : Text) :
    Shifted k (List.map (shift k)) (scanFrom (α := α) pos t) (scanFrom (k + pos) t) := by
  refine scanFrom_induction
    (motive := fun pos t r => Shifted k (List.map (shift k)) r (scanFrom (k + pos) t))
    ?_ ?_ ?_ ?_ ?_ pos t
  · intro pos
    rw [scanFrom_nil]
    exact .ok []
  · intro pos c t r h ih
    rw [scanFrom_cons, h, Nat.add_assoc]
    exact ih
  · intro pos c t s w rest r h ih
    rw [scanFrom_cons, h]
    dsimp only
    rw [Nat.add_assoc]
    exact ih.map fun ts => rfl
  · intro pos c t n h
    rw [scanFrom_cons, h]
    exact .fault (.numeralTooLarge n pos)
  · intro pos c t h
    rw [scanFrom_cons, h]
    exact .fault (.unexpectedChar c pos)

/-- the tokens of what trimming leaves of a text, and those of the text itself -/
theorem scan_trim (t : Text) :
    Shifted t.indent (List.map (shift t.indent)) (scan (α := α) t.trim) (scan t) := by
  obtain ⟨v, hv, ht⟩ := t.exists_trim
  have hb : ∀ c ∈ t.takeWhile isBlank, isBlank c := fun c hc => List.mem_takeWhile_imp hc
  have h : scan (α := α) t = scanFrom (t.indent + 0) t.trim := by
    calc scan (α := α) t
        = scanFrom 0 (t.takeWhile isBlank ++ (t.trim ++ v)) := by rw [← ht, scan]
      _ = scanFrom (0 + t.indent) (t.trim ++ v) := scanFrom_blanks hb 0 _
      _ = scanFrom (t.indent + 0) t.trim := by rw [scanFrom_append_blanks hv, Nat.add_comm]
  rw [h]
  exact scanFrom_shift t.indent 0 t.trim

end Token

end CurveStudy
