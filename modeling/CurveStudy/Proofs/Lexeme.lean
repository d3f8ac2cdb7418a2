import Mathlib.Data.List.TakeWhile
import CurveStudy.Proofs.Trim

/-!
# The written forms of symbols

A lexeme is what a symbol is written as: a single character, a run of letters, or a numeral.  What
`Token.front` takes from the front of a text is the longest lexeme that is there.

* `Numeral.Shape`   the numerals, `digits[.digits][e[+-]digits]` and `.digits[e[+-]digits]`, where
                    no digit need stand behind the first point;
* `Numeral.shape_scan`, `Numeral.Shape.prefix_scan`   `Numeral.scan` finds the longest of them;
* `UnsignedLiterals`   the numbers that decimals are read as have no sign in their text;
* `Token.Lexeme`    the written forms of a symbol;
* `Token.Longest`   the longest lexeme at the front of a text;
* `Token.found_front`, `Token.Longest.front_eq`   what stands at the front of a text is that one.
-/

namespace CurveStudy

namespace Numeral

/-! ## the shape of a numeral -/

/-- what stands in front of an exponent: `digits[.digits]`, where no digit need stand behind the
point, or `.digits` -/
inductive Mantissa : Text → Prop where
  | plain {m : Text} (h : Plain m) : Mantissa m
  | point {d : Text} (h : d ≠ []) (hd : ∀ c ∈ d, c.isDigit) : Mantissa ('.' :: d)

/-- an exponent, `e[+-]digits` -/
inductive Power : Text → Prop where
  | mk {c : Char} {s d : Text} (hc : c = 'e' ∨ c = 'E') (hs : s = [] ∨ s = ['+'] ∨ s = ['-'])
      (h : d ≠ []) (hd : ∀ c ∈ d, c.isDigit) : Power (c :: s ++ d)

/-- a numeral: a mantissa, with an exponent or without -/
inductive Shape : Text → Prop where
  | plain {m : Text} (hm : Mantissa m) : Shape m
  | scientific {m p : Text} (hm : Mantissa m) (hp : Power p) : Shape (m ++ p)

/-- the longest mantissa at the front of a text, and what follows it -/
def mantissa (t : Text) : Text × Text :=
  let whole := digits t
  let point := fraction whole.2
  (whole.1 ++ point.1, point.2)

theorem scan_eq (t : Text) :
    scan t = ((mantissa t).1 ++ (exponent (mantissa t).2).1, (exponent (mantissa t).2).2) := rfl

/-- the digits at the front of a text, of which some are known -/
theorem digits_append_of_isDigit {w : Text} (hw : ∀ c ∈ w, c.isDigit) (t : Text) :
    digits (w ++ t) = (w ++ (digits t).1, (digits t).2) := by
  rw [digits, List.takeWhile_append_of_pos hw, List.dropWhile_append_of_pos hw]
  rfl

/-- digits in front of a point -/
theorem digits_append_point {w : Text} (hw : ∀ c ∈ w, c.isDigit) (t : Text) :
    digits (w ++ '.' :: t) = (w, '.' :: t) :=
  digits_append hw (by rintro c ⟨⟩; rfl)

@[simp] theorem digits_point (t : Text) : digits ('.' :: t) = ([], '.' :: t) :=
  digits_append_point (w := []) nofun t

theorem isDigit_of_mem_digits {t : Text} : ∀ c ∈ (digits t).1, c.isDigit :=
  fun _ hc => List.mem_takeWhile_imp hc

/-! ## the longest numeral -/

theorem fraction_cases (t : Text) :
    (fraction t).1 = [] ∨ ∃ d, (fraction t).1 = '.' :: d ∧ ∀ c ∈ d, c.isDigit := by
  unfold fraction
  split
  · exact .inr ⟨_, rfl, isDigit_of_mem_digits⟩
  · exact .inl rfl

theorem sign_cases (t : Text) : (sign t).1 = [] ∨ (sign t).1 = ['+'] ∨ (sign t).1 = ['-'] := by
  unfold sign
  split
  · exact .inr (.inl rfl)
  · exact .inr (.inr rfl)
  · exact .inl rfl

theorem mantissa_mantissa {t : Text} (h : startsNumeral t) : Mantissa (mantissa t).1 := by
  unfold startsNumeral at h
  split at h
  · rename_i t
    rw [mantissa, digits_point]
    exact .point (digits_ne_nil h) isDigit_of_mem_digits
  · have hw := digits_ne_nil h
    show Mantissa ((digits t).1 ++ (fraction (digits t).2).1)
    rcases fraction_cases (digits t).2 with hf | ⟨d, hf, hd⟩
    · rw [hf, List.append_nil]
      exact .plain (.whole hw isDigit_of_mem_digits)
    · rw [hf]
      exact .plain (.decimal hw isDigit_of_mem_digits hd)

theorem exponent_cases (t : Text) : (exponent t).1 = [] ∨ Power (exponent t).1 := by
  unfold exponent
  split
  · exact .inl rfl
  · split
    · rename_i c t h
      obtain ⟨hc, hd⟩ := Bool.and_eq_true_iff.1 h
      rw [Bool.or_eq_true, beq_iff_eq, beq_iff_eq] at hc
      exact .inr (.mk hc (sign_cases t) (digits_ne_nil hd) isDigit_of_mem_digits)
    · exact .inl rfl

/-- what is found is a numeral -/
theorem shape_scan {t : Text} (h : startsNumeral t) : Shape (scan t).1 := by
  have hm := mantissa_mantissa h
  rw [scan_eq]
  rcases exponent_cases (mantissa t).2 with he | hp
  · rw [he, List.append_nil]
    exact .plain hm
  · exact .scientific hm hp

theorem Mantissa.prefix_mantissa {m : Text} (hm : Mantissa m) (t : Text) :
    m <+: (mantissa (m ++ t)).1 := by
  cases hm with
  | plain h =>
    cases h with
    | whole _ hw =>
      rw [mantissa, digits_append_of_isDigit hw, List.append_assoc]
      exact List.prefix_append ..
    | decimal _ hw hd =>
      rw [mantissa, List.append_assoc, List.cons_append, digits_append_point hw]
      dsimp only
      rw [fraction, digits_append_of_isDigit hd, ← List.cons_append, ← List.append_assoc]
      exact List.prefix_append ..
  | point _ hd =>
    rw [mantissa, List.cons_append, digits_point]
    dsimp only
    rw [fraction, digits_append_of_isDigit hd, ← List.cons_append]
    exact List.prefix_append ..

/-- a mantissa ends in front of what is neither a digit nor a point -/
theorem Mantissa.mantissa_append {m t : Text} (hm : Mantissa m)
    (ht : ∀ c ∈ t.head?, c.isDigit = false ∧ c ≠ '.') : mantissa (m ++ t) = (m, t) := by
  have hd := fun c hc => (ht c hc).1
  have hp := fun c hc => (ht c hc).2
  cases hm with
  | plain h =>
    cases h with
    | whole _ hw =>
      rw [mantissa, digits_append hw hd]
      dsimp only
      rw [fraction_of_ne hp, List.append_nil]
    | decimal _ hw hdd =>
      rw [mantissa, List.append_assoc, List.cons_append, digits_append_point hw]
      dsimp only
      rw [fraction, digits_append hdd hd]
  | point _ hdd =>
    rw [mantissa, List.cons_append, digits_point]
    dsimp only
    rw [fraction, digits_append hdd hd, List.nil_append]

theorem Power.prefix_exponent {p : Text} (hp : Power p) (t : Text) :
    p <+: (exponent (p ++ t)).1 := by
  obtain ⟨hc, hs, h, hd⟩ := hp
  rename_i c s d
  have hsign : sign (s ++ (d ++ t)) = (s, d ++ t) := by
    rcases hs with rfl | rfl | rfl
    · refine sign_of_ne fun b hb => ?_
      obtain ⟨a, d, rfl⟩ := List.exists_cons_of_ne_nil h
      obtain rfl : a = b := Option.some.inj hb
      have ha := hd a (List.mem_cons_self ..)
      constructor <;> (rintro rfl; cases ha)
    · rfl
    · rfl
  have hstart : startsDigit (d ++ t) := by
    obtain ⟨a, d, rfl⟩ := List.exists_cons_of_ne_nil h
    exact hd a (List.mem_cons_self ..)
  have he : (c == 'e' || c == 'E') = true := by
    rw [Bool.or_eq_true, beq_iff_eq, beq_iff_eq]
    exact hc
  rw [List.cons_append, List.cons_append, List.append_assoc, exponent, hsign, he, hstart]
  show c :: (s ++ d) <+: c :: s ++ (digits (d ++ t)).1
  rw [digits_append_of_isDigit hd, ← List.append_assoc, List.cons_append]
  exact List.prefix_append ..

/-- a numeral that stands at the front of a text is part of what is found -/
theorem Shape.prefix_scan {n : Text} (hn : Shape n) (t : Text) : n <+: (scan (n ++ t)).1 := by
  cases hn with
  | plain hm => exact (hm.prefix_mantissa t).trans (List.prefix_append ..)
  | @scientific m p hm hp =>
    have hh : ∀ c ∈ (p ++ t).head?, c.isDigit = false ∧ c ≠ '.' := by
      obtain ⟨hc, -, -, -⟩ := hp
      rintro b ⟨⟩
      rcases hc with rfl | rfl <;> exact ⟨rfl, by decide⟩
    rw [List.append_assoc, scan_eq, hm.mantissa_append hh]
    exact (List.prefix_append_right_inj m).2 (hp.prefix_exponent t)

theorem Mantissa.startsNumeral {m : Text} (hm : Mantissa m) (t : Text) :
    startsNumeral (m ++ t) := by
  cases hm with
  | plain h =>
    obtain ⟨c, m, rfl, hc⟩ := h.exists_digit
    rw [List.cons_append, startsNumeral_cons]
    split
    · rename_i hp
      subst hp
      cases hc
    · exact hc
  | point h hd =>
    obtain ⟨a, d, rfl⟩ := List.exists_cons_of_ne_nil h
    exact hd a (List.mem_cons_self ..)

theorem Shape.startsNumeral {n : Text} (hn : Shape n) (t : Text) : startsNumeral (n ++ t) := by
  cases hn with
  | plain hm => exact hm.startsNumeral t
  | scientific hm _ =>
    rw [List.append_assoc]
    exact hm.startsNumeral _

end Numeral

/-- the symbol is not a number that is not finite -/
def Symbol.IsFinite {α : Type} [Scalar α] : Symbol α → Prop
  | .num v => Scalar.isFinite v
  | _ => True

/-- a number that a decimal is read as, if finite, has no sign in its text -/
class UnsignedLiterals (α : Type) [Scalar α] [Literal α] : Prop where
  isSigned_text (m : Nat) (e : Int) : Scalar.isFinite (Literal.ofDecimal m e : α) →
    (Literal.text (Literal.ofDecimal m e : α)).isSigned = false

namespace Token
variable {α : Type}

/-! ## the first character -/

section
variable {c : Char} {s : Symbol α}

theorem isBlank_of_ofChar? (h : ofChar? c = some s) : isBlank c = false := by
  unfold ofChar? at h
  split at h <;> first | rfl | cases h

theorem ofChar?_of_startsNumeral {t : Text} (h : Numeral.startsNumeral (c :: t)) :
    (ofChar? c : Option (Symbol α)) = none := by
  rw [Numeral.startsNumeral_cons] at h
  split at h
  · rename_i hc
    rw [hc]
    rfl
  · exact ofChar?_of_isAlphanum (isAlphanum_of_isDigit h)

theorem isAlpha_of_startsNumeral {t : Text} (h : Numeral.startsNumeral (c :: t)) :
    c.isAlpha = false := by
  rw [Numeral.startsNumeral_cons] at h
  split at h
  · rename_i hc
    rw [hc]
    rfl
  · exact isAlpha_of_isDigit h

theorem isBlank_of_startsNumeral {t : Text} (h : Numeral.startsNumeral (c :: t)) :
    isBlank c = false := by
  rw [Numeral.startsNumeral_cons] at h
  split at h
  · rename_i hc
    rw [hc]
    rfl
  · exact isBlank_of_isAlphanum (isAlphanum_of_isDigit h)

end

/-! ## lexemes -/

section
variable [Literal α]

/-- the written forms of symbols -/
inductive Lexeme : Text → Symbol α → Prop where
  | char {c : Char} {s : Symbol α} (h : ofChar? c = some s) : Lexeme [c] s
  | word {w : Text} (h : w ≠ []) (hw : ∀ c ∈ w, c.isAlpha) : Lexeme w (ofWord w)
  | numeral {n : Text} (h : Numeral.Shape n) : Lexeme n (.num (Numeral.value n))

/-- the written form of a symbol at the front of a text; every other one there is a part of it -/
structure Longest (w : Text) (s : Symbol α) (t : Text) : Prop where
  lexeme : Lexeme w s
  isPrefix : w <+: t
  le {v : Text} {r : Symbol α} : Lexeme v r → v <+: t → v <+: w

/-- which lexeme can stand at the front of a text -/
theorem Lexeme.of_isPrefix {c : Char} {t w : Text} {s : Symbol α} (h : Lexeme w s)
    (hw : w <+: c :: t) :
    w = [c] ∧ ofChar? c = some s
    ∨ c.isAlpha ∧ s = ofWord w ∧ w <+: (c :: t).takeWhile Char.isAlpha
    ∨ Numeral.startsNumeral (c :: t) ∧ s = .num (Numeral.value w) ∧ Numeral.Shape w
      ∧ w <+: (Numeral.scan (c :: t)).1 := by
  obtain ⟨v, hv⟩ := hw
  cases h with
  | char h =>
    obtain ⟨rfl, -⟩ := List.cons.inj hv
    exact .inl ⟨rfl, h⟩
  | word h hw =>
    obtain ⟨a, w, rfl⟩ := List.exists_cons_of_ne_nil h
    obtain rfl : a = c := (List.cons.inj hv).1
    refine .inr (.inl ⟨hw a (List.mem_cons_self ..), rfl, ?_⟩)
    rw [← hv, List.takeWhile_append_of_pos hw]
    exact List.prefix_append ..
  | numeral h =>
    refine .inr (.inr ⟨?_, rfl, h, ?_⟩)
    · rw [← hv]
      exact h.startsNumeral v
    · rw [← hv]
      exact h.prefix_scan v

theorem Lexeme.exists_cons {w : Text} {s : Symbol α} (h : Lexeme w s) :
    ∃ c t, w = c :: t ∧ isBlank c = false := by
  have hne : w ≠ [] := by
    rintro rfl
    cases h with
    | word h _ => exact h rfl
    | numeral h => cases h.startsNumeral []
  obtain ⟨c, t, rfl⟩ := List.exists_cons_of_ne_nil hne
  refine ⟨c, t, rfl, ?_⟩
  rcases h.of_isPrefix List.prefix_rfl with ⟨-, hc⟩ | ⟨hc, -⟩ | ⟨hn, -⟩
  · exact isBlank_of_ofChar? hc
  · exact isBlank_of_isAlphanum (isAlphanum_of_isAlpha hc)
  · exact isBlank_of_startsNumeral hn

/-- a lexeme is the written form of one symbol -/
theorem Lexeme.unique {w : Text} {s r : Symbol α} (h : Lexeme w s) (h' : Lexeme w r) : s = r := by
  obtain ⟨c, t, rfl, -⟩ := h.exists_cons
  rcases h.of_isPrefix List.prefix_rfl with ⟨-, hc⟩ | ⟨hc, hs, -⟩ | ⟨hn, hs, -⟩ <;>
    rcases h'.of_isPrefix List.prefix_rfl with ⟨-, hc'⟩ | ⟨hc', hr, -⟩ | ⟨hn', hr, -⟩
  · exact Option.some.inj (hc.symm.trans hc')
  · rw [ofChar?_of_isAlphanum (isAlphanum_of_isAlpha hc')] at hc
    cases hc
  · rw [ofChar?_of_startsNumeral hn'] at hc
    cases hc
  · rw [ofChar?_of_isAlphanum (isAlphanum_of_isAlpha hc)] at hc'
    cases hc'
  · rw [hs, hr]
  · rw [isAlpha_of_startsNumeral hn'] at hc
    cases hc
  · rw [ofChar?_of_startsNumeral hn] at hc'
    cases hc'
  · rw [isAlpha_of_startsNumeral hn] at hc'
    cases hc'
  · rw [hs, hr]

end

/-! ## what stands at the front -/

variable [Scalar α] [Literal α]

/-- what stands at the front of the text `c :: t`, said by its lexemes -/
inductive Found (c : Char) (t : Text) : Front α → Prop where
  | blank (h : isBlank c) : Found c t .blank
  | token {s : Symbol α} {w rest : Text} (h : Longest w s (c :: t)) (hr : w ++ rest = c :: t)
      (hf : s.IsFinite) : Found c t (.token s w rest)
  | tooLarge {n : Text} (h : Longest n (.num (Numeral.value n) : Symbol α) (c :: t))
      (hn : Numeral.Shape n) (hf : Scalar.isFinite (Numeral.value n : α) = false) :
      Found c t (.tooLarge n)
  | stray (hb : isBlank c = false) (h : ∀ w (s : Symbol α), Lexeme w s → ¬w <+: c :: t) :
      Found c t .stray

theorem found_front (c : Char) (t : Text) : Found c t (front c t : Front α) := by
  unfold front
  split
  · rename_i hb
    exact .blank hb
  · rename_i hb
    split
    · rename_i s hc
      refine .token ⟨.char hc, ⟨t, rfl⟩, fun h hv => ?_⟩ rfl ?_
      · rcases h.of_isPrefix hv with ⟨rfl, -⟩ | ⟨ha, -⟩ | ⟨hn, -⟩
        · exact List.prefix_rfl
        · rw [ofChar?_of_isAlphanum (isAlphanum_of_isAlpha ha)] at hc
          cases hc
        · rw [ofChar?_of_startsNumeral hn] at hc
          cases hc
      · unfold ofChar? at hc
        split at hc <;> cases hc <;> trivial
    · rename_i hc
      split
      · rename_i ha
        have hne : (c :: t).takeWhile Char.isAlpha ≠ [] := by
          rw [List.takeWhile_cons_of_pos ha]
          exact List.cons_ne_nil c _
        refine .token ⟨.word hne fun d hd => List.mem_takeWhile_imp hd,
          ⟨_, List.takeWhile_append_dropWhile⟩, fun h hv => ?_⟩ List.takeWhile_append_dropWhile ?_
        · rcases h.of_isPrefix hv with ⟨-, hs⟩ | ⟨-, -, hw⟩ | ⟨hn, -⟩
          · rw [hc] at hs
            cases hs
          · exact hw
          · rw [isAlpha_of_startsNumeral hn] at ha
            cases ha
        · unfold ofWord
          dsimp only
          split <;> trivial
      · rename_i ha
        split
        · rename_i hn
          have hs := Numeral.shape_scan hn
          have hl : Longest (Numeral.scan (c :: t)).1
              (.num (Numeral.value (Numeral.scan (c :: t)).1) : Symbol α) (c :: t) := by
            refine ⟨.numeral hs, ⟨_, Numeral.append_scan _⟩, fun h hv => ?_⟩
            rcases h.of_isPrefix hv with ⟨-, hs⟩ | ⟨ha', -⟩ | ⟨-, -, -, hw⟩
            · rw [hc] at hs
              cases hs
            · exact absurd ha' ha
            · exact hw
          dsimp only
          split
          · rename_i hf
            exact .token hl (Numeral.append_scan _) hf
          · rename_i hf
            exact .tooLarge hl hs (Bool.eq_false_iff.2 hf)
        · rename_i hn
          refine .stray (Bool.eq_false_iff.2 hb) fun w s h hw => ?_
          rcases h.of_isPrefix hw with ⟨-, hs⟩ | ⟨ha', -⟩ | ⟨hn', -⟩
          · rw [hc] at hs
            cases hs
          · exact ha ha'
          · exact hn hn'

/-- the longest lexeme at the front of a text is the token there -/
theorem Longest.front_eq {c : Char} {t w rest : Text} {s : Symbol α} (h : Longest w s (c :: t))
    (hr : w ++ rest = c :: t) (hf : s.IsFinite) : front c t = .token s w rest := by
  have hfound := found_front (α := α) c t
  have head : isBlank c = false := by
    obtain ⟨d, u, rfl, hd⟩ := h.lexeme.exists_cons
    obtain ⟨rfl, -⟩ := List.cons.inj hr
    exact hd
  have same : ∀ {v : Text} {r : Symbol α}, Longest v r (c :: t) → v = w ∧ r = s := by
    intro v r h'
    have hv : v = w := (h.le h'.lexeme h'.isPrefix).eq_of_length_le
      (h'.le h.lexeme h.isPrefix).length_le
    subst hv
    exact ⟨rfl, h'.lexeme.unique h.lexeme⟩
  cases hx : (front c t : Front α) <;> rw [hx] at hfound
  case blank =>
    cases hfound with | blank hb =>
    rw [head] at hb
    cases hb
  case token s' w' rest' =>
    cases hfound with | token h' hr' _ =>
    obtain ⟨rfl, rfl⟩ := same h'
    rw [List.append_cancel_left (hr'.trans hr.symm)]
  case tooLarge n =>
    cases hfound with | tooLarge h' _ hn =>
    obtain ⟨rfl, rfl⟩ := same h'
    exact absurd hf (Bool.eq_false_iff.1 hn)
  case stray =>
    cases hfound with | stray _ hs =>
    exact absurd h.isPrefix (hs w s h.lexeme)

end Token

end CurveStudy
