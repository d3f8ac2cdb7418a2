import Mathlib.Tactic.Ring
import CurveStudy.Token.Scan

/-!
# Scanning a text piece by piece

A text lexes to a list of symbols if a scan of it gives these symbols and goes on with what
follows, provided that what follows starts with a character that ends the last of them.

* `Token.Lexes`     this relation; `Lexes.append` puts two texts one after the other;
* `Lexes.char`, `Lexes.blank`, `Lexes.word`, `Lexes.numeral`   the texts of single symbols;
* `Lexes.scan_eq_ok`   a whole text that lexes;
* `scanFrom_induction`, `scanFrom_ok_induction`   what holds of every scan;
* `isFinite_of_scanFrom`, `le_pos_of_scanFrom`   their numbers are finite, and only the first of
  them can stand where the text starts.
-/

namespace CurveStudy

/-- digits with at most a point and more digits -/
inductive Plain : Text → Prop where
  | whole {w : Text} (h : w ≠ []) (hw : ∀ c ∈ w, c.isDigit) : Plain w
  | decimal {w d : Text} (h : w ≠ []) (hw : ∀ c ∈ w, c.isDigit) (hd : ∀ c ∈ d, c.isDigit) :
      Plain (w ++ '.' :: d)

/-- where a run of characters with a property ends -/
theorem takeWhile_dropWhile_append {p : Char → Bool} {w t : Text} (hw : ∀ c ∈ w, p c)
    (ht : ∀ c ∈ t.head?, p c = false) :
    (w ++ t).takeWhile p = w ∧ (w ++ t).dropWhile p = t := by
  have h : t.takeWhile p = [] ∧ t.dropWhile p = t := by
    cases t with
    | nil => exact ⟨rfl, rfl⟩
    | cons c t =>
      have hc : ¬ p c = true := Bool.eq_false_iff.1 (ht c rfl)
      exact ⟨List.takeWhile_cons_of_neg hc, List.dropWhile_cons_of_neg hc⟩
  rw [List.takeWhile_append_of_pos hw, List.dropWhile_append_of_pos hw, h.1, h.2]
  exact ⟨List.append_nil w, rfl⟩

namespace Numeral

/-- a character that can stand behind a numeral -/
def endsNumeral (c : Char) : Bool := !(c.isDigit || c == '.' || c == 'e' || c == 'E')

theorem digits_append {w t : Text} (hw : ∀ c ∈ w, c.isDigit)
    (ht : ∀ c ∈ t.head?, c.isDigit = false) : digits (w ++ t) = (w, t) := by
  obtain ⟨h1, h2⟩ := takeWhile_dropWhile_append hw ht
  rw [digits, h1, h2]

theorem fraction_of_ne {t : Text} (ht : ∀ c ∈ t.head?, c ≠ '.') : fraction t = ([], t) := by
  unfold fraction
  split
  · exact absurd rfl (ht '.' rfl)
  · rfl

theorem exponent_of_ne {t : Text} (ht : ∀ c ∈ t.head?, c ≠ 'e' ∧ c ≠ 'E') :
    exponent t = ([], t) := by
  cases t with
  | nil => rfl
  | cons c t =>
    obtain ⟨h1, h2⟩ := ht c rfl
    rw [exponent, beq_eq_false_iff_ne.2 h1, beq_eq_false_iff_ne.2 h2]
    rfl

theorem scan_plain {n t : Text} (hn : Plain n) (ht : ∀ c ∈ t.head?, endsNumeral c) :
    scan (n ++ t) = (n, t) := by
  have ht' : ∀ c ∈ t.head?, c.isDigit = false ∧ c ≠ '.' ∧ c ≠ 'e' ∧ c ≠ 'E' := by
    intro c hc
    have h := ht c hc
    simp [endsNumeral] at h
    exact ⟨h.1.1.1, h.1.1.2, h.1.2, h.2⟩
  have hd := fun c hc => (ht' c hc).1
  have hp := fun c hc => (ht' c hc).2.1
  have he := fun c hc => (ht' c hc).2.2
  cases hn with
  | whole _ hw =>
    rw [scan, digits_append hw hd]
    dsimp only
    rw [fraction_of_ne hp, exponent_of_ne he, List.append_nil, List.append_nil]
  | @decimal w d _ hw hdd =>
    have hpoint : ∀ c ∈ ('.' :: (d ++ t)).head?, c.isDigit = false := by
      rintro c ⟨⟩
      rfl
    rw [List.append_assoc, List.cons_append, scan, digits_append hw hpoint]
    dsimp only
    rw [fraction, digits_append hdd hd, exponent_of_ne he, List.append_nil]

/-! ## the number -/

theorem isDigit_of_mem_ofNat {n : Nat} : ∀ c ∈ Text.ofNat n, c.isDigit :=
  fun _ => Nat.isDigit_of_mem_toDigits (by decide) (by decide)

@[simp] theorem natOfDigits_ofNat (n : Nat) : natOfDigits (Text.ofNat n) = n :=
  Nat.ofDigitChars_ten_toDigits

theorem natOfDigits_append (s t : Text) :
    natOfDigits (s ++ t) = 10 ^ t.length * natOfDigits s + natOfDigits t :=
  (Nat.ofDigitChars_append 0).trans Nat.ofDigitChars_eq_ofDigitChars_zero

theorem value_whole {α : Type} [Literal α] {w : Text} (hw : ∀ c ∈ w, c.isDigit) :
    (value w : α) = Literal.ofDecimal (natOfDigits w) 0 := by
  have h : digits w = (w, []) := by
    have := digits_append (t := []) hw nofun
    rwa [List.append_nil] at this
  rw [value, h]
  show Literal.ofDecimal (natOfDigits (w ++ [])) 0 = _
  rw [List.append_nil]

theorem value_decimal {α : Type} [Literal α] {w d : Text} (hw : ∀ c ∈ w, c.isDigit)
    (hd : ∀ c ∈ d, c.isDigit) :
    (value (w ++ '.' :: d) : α) = Literal.ofDecimal (natOfDigits (w ++ d)) (-(d.length : Int)) := by
  have h : digits (w ++ '.' :: d) = (w, '.' :: d) := by
    refine digits_append hw ?_
    rintro c ⟨⟩
    rfl
  have h' : fraction ('.' :: d) = ('.' :: d, []) := by
    have := digits_append (t := []) hd nofun
    rw [List.append_nil] at this
    rw [fraction, this]
  rw [value, h]
  dsimp only
  rw [h']
  show Literal.ofDecimal (natOfDigits (w ++ d)) (0 - (d.length : Int)) = _
  rw [Int.zero_sub]

end Numeral

/-- the first character of a plain numeral is a digit -/
theorem Plain.exists_digit {n : Text} (h : Plain n) : ∃ c t, n = c :: t ∧ c.isDigit := by
  cases h with
  | whole h hw =>
    cases n with
    | nil => exact absurd rfl h
    | cons c w => exact ⟨c, w, rfl, hw c (List.mem_cons_self ..)⟩
  | @decimal w d h hw _ =>
    cases w with
    | nil => exact absurd rfl h
    | cons c w => exact ⟨c, w ++ '.' :: d, rfl, hw c (List.mem_cons_self ..)⟩

theorem Text.byteSize_pos {t : Text} (h : t ≠ []) : 0 < t.byteSize := by
  obtain ⟨c, t, rfl⟩ := List.exists_cons_of_ne_nil h
  exact Nat.lt_of_lt_of_le c.utf8Size_pos (Nat.le_add_right ..)

namespace Token
variable {α : Type}

/-! ## what stands at the front -/

theorem toNat_of_isAlpha {c : Char} (h : c.isAlpha) :
    (65 ≤ c.toNat ∧ c.toNat ≤ 90) ∨ (97 ≤ c.toNat ∧ c.toNat ≤ 122) := by
  rcases Bool.or_eq_true_iff.1 h with h | h
  · obtain ⟨h1, h2⟩ := of_decide_eq_true h
    exact .inl ⟨UInt32.le_iff_toNat_le.1 h1, UInt32.le_iff_toNat_le.1 h2⟩
  · obtain ⟨h1, h2⟩ := Bool.and_eq_true_iff.1 h
    exact .inr ⟨UInt32.le_iff_toNat_le.1 (of_decide_eq_true h1),
      UInt32.le_iff_toNat_le.1 (of_decide_eq_true h2)⟩

theorem toNat_of_isDigit {c : Char} (h : c.isDigit) : 48 ≤ c.toNat ∧ c.toNat ≤ 57 :=
  Char.isDigit_iff_toNat.1 h

theorem isBlank_of_isAlphanum {c : Char} (h : c.isAlphanum) : isBlank c = false := by
  have h' : (48 ≤ c.toNat ∧ c.toNat ≤ 57) ∨ (65 ≤ c.toNat ∧ c.toNat ≤ 90)
      ∨ (97 ≤ c.toNat ∧ c.toNat ≤ 122) := by
    rcases Bool.or_eq_true_iff.1 h with h | h
    · exact .inr (toNat_of_isAlpha h)
    · exact .inl (toNat_of_isDigit h)
  simp [isBlank, blankRanges]
  omega

theorem ofChar?_of_isAlphanum {c : Char} (h : c.isAlphanum) :
    (ofChar? c : Option (Symbol α)) = none := by
  unfold ofChar?
  split <;> first | rfl | cases h

theorem isAlphanum_of_isDigit {c : Char} (h : c.isDigit) : c.isAlphanum := by
  rw [Char.isAlphanum, h, Bool.or_true]

theorem isAlphanum_of_isAlpha {c : Char} (h : c.isAlpha) : c.isAlphanum := by
  rw [Char.isAlphanum, h, Bool.true_or]

theorem isAlpha_of_isDigit {c : Char} (h : c.isDigit) : c.isAlpha = false := by
  refine Bool.eq_false_iff.2 fun ha => ?_
  have := toNat_of_isDigit h
  have := toNat_of_isAlpha ha
  omega

variable [Scalar α] [Literal α]

theorem front_char {c : Char} {s : Symbol α} (hb : isBlank c = false) (hs : ofChar? c = some s)
    (t : Text) : front c t = .token s [c] t := by
  rw [front, hb, hs]
  rfl

theorem front_blank {c : Char} (hb : isBlank c) (t : Text) : front c t = (.blank : Front α) := by
  rw [front, hb]
  rfl

theorem front_word {c : Char} {w t : Text} (hw : ∀ d ∈ c :: w, d.isAlpha)
    (ht : ∀ d ∈ t.head?, d.isAlpha = false) :
    front c (w ++ t) = .token (ofWord (c :: w) : Symbol α) (c :: w) t := by
  have hc := hw c (List.mem_cons_self ..)
  obtain ⟨h1, h2⟩ := takeWhile_dropWhile_append hw ht
  rw [front, isBlank_of_isAlphanum (isAlphanum_of_isAlpha hc),
    ofChar?_of_isAlphanum (isAlphanum_of_isAlpha hc), if_neg Bool.false_ne_true]
  dsimp only
  rw [if_pos hc, ← List.cons_append, h1, h2]

theorem front_numeral {c : Char} {n t : Text} (hn : Plain (c :: n))
    (hf : Scalar.isFinite (Numeral.value (c :: n) : α))
    (ht : ∀ d ∈ t.head?, Numeral.endsNumeral d) :
    front c (n ++ t) = .token (.num (Numeral.value (c :: n) : α)) (c :: n) t := by
  obtain ⟨c', n', h, hc⟩ := hn.exists_digit
  cases h
  have hs : Numeral.startsNumeral (c :: n ++ t) := by
    unfold Numeral.startsNumeral
    split
    · rename_i h
      cases h
      cases hc
    · exact hc
  rw [front, isBlank_of_isAlphanum (isAlphanum_of_isDigit hc),
    ofChar?_of_isAlphanum (isAlphanum_of_isDigit hc), if_neg Bool.false_ne_true]
  dsimp only
  rw [isAlpha_of_isDigit hc, if_neg Bool.false_ne_true, ← List.cons_append, if_pos hs,
    Numeral.scan_plain hn ht, if_pos hf]

/-! ## pieces -/

/-- a scan of the text gives the symbols and goes on with what follows, if that starts with a
character that may follow -/
def Lexes (follow : Char → Bool) (t : Text) (σ : List (Symbol α)) : Prop :=
  ∀ pos rest, (∀ c ∈ rest.head?, follow c) → ∃ ts : List (Token α), ts.map Token.symbol = σ
    ∧ scanFrom pos (t ++ rest) = (scanFrom (pos + t.byteSize) rest).map (ts ++ ·)

namespace Lexes
variable {f g : Char → Bool} {t u : Text} {σ τ : List (Symbol α)}

theorem mono (h : Lexes f t σ) (hfg : ∀ c, g c → f c) : Lexes g t σ :=
  fun pos rest hr => h pos rest fun c hc => hfg c (hr c hc)

theorem append (h : Lexes f t σ) (h' : Lexes g u τ) (hu : ∀ c ∈ u.head?, f c)
    (hgf : ∀ c, g c → f c) : Lexes g (t ++ u) (σ ++ τ) := by
  intro pos rest hr
  have hf : ∀ c ∈ (u ++ rest).head?, f c := by
    cases u with
    | nil => exact fun c hc => hgf c (hr c hc)
    | cons c u => exact hu
  obtain ⟨ts, hts, h1⟩ := h pos (u ++ rest) hf
  obtain ⟨us, hus, h2⟩ := h' (pos + t.byteSize) rest hr
  refine ⟨ts ++ us, by rw [List.map_append, hts, hus], ?_⟩
  rw [List.append_assoc, h1, h2, Text.byteSize_append, Nat.add_assoc]
  cases scanFrom (α := α) (pos + (t.byteSize + u.byteSize)) rest with
  | error e => rfl
  | ok vs => exact congrArg Except.ok (List.append_assoc ts us vs).symm

theorem nil : Lexes (α := α) f [] [] := by
  intro pos rest _
  refine ⟨[], rfl, ?_⟩
  show scanFrom pos rest = (scanFrom pos rest).map ([] ++ ·)
  cases scanFrom (α := α) pos rest <;> rfl

theorem of_front {c : Char} {s : Symbol α}
    (h : ∀ rest, (∀ d ∈ rest.head?, f d) → front c (t ++ rest) = .token s (c :: t) rest) :
    Lexes f (c :: t) [s] := by
  intro pos rest hr
  refine ⟨[⟨s, pos⟩], rfl, ?_⟩
  rw [List.cons_append, scanFrom_cons, h rest hr]
  rfl

/-- a symbol of one character in front -/
theorem char {c : Char} {s : Symbol α} (hb : isBlank c = false) (hs : ofChar? c = some s)
    (h : Lexes f t σ) : Lexes f (c :: t) (s :: σ) := by
  have hc : Lexes (fun _ => true) [c] [s] := of_front fun rest _ => front_char hb hs rest
  exact hc.append h (fun _ _ => rfl) (fun _ _ => rfl)

/-- a blank in front -/
theorem blank {c : Char} (hb : isBlank c) (h : Lexes f t σ) : Lexes f (c :: t) σ := by
  intro pos rest hr
  obtain ⟨ts, hts, h⟩ := h (pos + c.utf8Size) rest hr
  refine ⟨ts, hts, ?_⟩
  rw [List.cons_append, scanFrom_cons, front_blank hb, Text.byteSize_cons, ← Nat.add_assoc]
  exact h

theorem word {c : Char} {w : Text} (hw : ∀ d ∈ c :: w, d.isAlpha) :
    Lexes (fun d => !d.isAlpha) (c :: w) [(ofWord (c :: w) : Symbol α)] :=
  of_front fun _ hr => front_word hw fun d hd => by
    have h := hr d hd
    rwa [Bool.not_eq_true'] at h

theorem numeral {n : Text} {v : α} (hn : Plain n) (hv : Numeral.value n = v)
    (hf : Scalar.isFinite v) : Lexes Numeral.endsNumeral n [.num v] := by
  obtain ⟨c, w, rfl, -⟩ := hn.exists_digit
  subst hv
  exact of_front fun _ hr => front_numeral hn hf hr

/-- the whole text -/
theorem scan_eq_ok (h : Lexes f t σ) :
    ∃ ts : List (Token α), scan t = .ok ts ∧ ts.map Token.symbol = σ := by
  obtain ⟨ts, hts, h⟩ := h 0 [] nofun
  refine ⟨ts, ?_, hts⟩
  rw [List.append_nil, scanFrom_nil] at h
  rw [scan, h]
  exact congrArg Except.ok (List.append_nil ts)

end Lexes

/-! ## the tokens of a scan -/

/-- a scan goes from front to front: to show something of its outcome, show it of the end of a
text, of each thing that stops the scan, and of a blank or a token in front of any outcome -/
theorem scanFrom_induction {motive : Nat → Text → Except Fault (List (Token α)) → Prop}
    (nil : ∀ pos, motive pos [] (.ok []))
    (blank : ∀ pos c t r, front (α := α) c t = .blank →
      motive (pos + c.utf8Size) t r → motive pos (c :: t) r)
    (token : ∀ pos c t s w rest r, front c t = .token s w rest →
      motive (pos + w.byteSize) rest r → motive pos (c :: t) (r.map (⟨s, pos⟩ :: ·)))
    (tooLarge : ∀ pos c t n, front (α := α) c t = .tooLarge n →
      motive pos (c :: t) (.error (.numeralTooLarge n pos)))
    (stray : ∀ pos c t, front (α := α) c t = .stray →
      motive pos (c :: t) (.error (.unexpectedChar c pos)))
    (pos : Nat) (t : Text) : motive pos t (scanFrom pos t) := by
  induction hn : t.length using Nat.strongRecOn generalizing t pos with
  | _ n ih =>
    cases t with
    | nil =>
      rw [scanFrom_nil]
      exact nil pos
    | cons c t =>
      rw [scanFrom_cons]
      split
      · rename_i hs
        exact blank pos c t _ hs (ih t.length (by rw [← hn]; exact Nat.lt_succ_self _) _ t rfl)
      · rename_i s w rest hs
        exact token pos c t s w rest _ hs
          (ih rest.length (by rw [← hn]; exact length_front hs) _ rest rfl)
      · rename_i n hs
        exact tooLarge pos c t n hs
      · rename_i hs
        exact stray pos c t hs

/-- the same for the tokens of a scan that succeeds -/
theorem scanFrom_ok_induction {motive : Nat → Text → List (Token α) → Prop}
    (nil : ∀ pos, motive pos [] [])
    (blank : ∀ pos c t ts, motive (pos + c.utf8Size) t ts → motive pos (c :: t) ts)
    (token : ∀ pos c t s w rest ts, front c t = .token s w rest →
      motive (pos + w.byteSize) rest ts → motive pos (c :: t) (⟨s, pos⟩ :: ts))
    {pos : Nat} {t : Text} {ts : List (Token α)} (h : scanFrom pos t = .ok ts) :
    motive pos t ts := by
  refine scanFrom_induction (motive := fun pos t r => ∀ ts, r = .ok ts → motive pos t ts)
    ?_ ?_ ?_ (fun _ _ _ _ _ => nofun) (fun _ _ _ _ => nofun) pos t ts h
  · rintro pos _ ⟨⟩
    exact nil pos
  · exact fun pos c t r _ ih ts hr => blank pos c t ts (ih ts hr)
  · intro pos c t s w rest r hs ih ts hr
    cases r with
    | error f => cases hr
    | ok us =>
      cases hr
      exact token pos c t s w rest us hs (ih us rfl)

/-- what stops a scan -/
theorem scan_eq_error {t : Text} {f : Fault}
    (h : scan t = (.error f : Except Fault (List (Token α)))) :
    (∃ n pos, f = .numeralTooLarge n pos) ∨ ∃ c pos, f = .unexpectedChar c pos := by
  refine scanFrom_induction (α := α) (motive := fun _ _ r => r = .error f →
    (∃ n pos, f = .numeralTooLarge n pos) ∨ ∃ c pos, f = .unexpectedChar c pos)
    (fun _ => nofun) (fun _ _ _ _ _ ih => ih) ?_ ?_ ?_ 0 t h
  · intro pos c t s w rest r _ ih hr
    cases r with
    | error g => exact ih (congrArg Except.error (Except.error.inj hr))
    | ok us => cases hr
  · rintro pos c t n - ⟨⟩
    exact .inl ⟨n, pos, rfl⟩
  · rintro pos c t - ⟨⟩
    exact .inr ⟨c, pos, rfl⟩

theorem isFinite_of_front {c : Char} {t w rest : Text} {v : α}
    (h : front c t = .token (.num v) w rest) : Scalar.isFinite v := by
  unfold front at h
  split at h
  · cases h
  · split at h
    · rename_i s hs
      cases h
      unfold ofChar? at hs
      split at hs <;> cases hs
    · split at h
      · obtain ⟨hw, -⟩ := Front.token.inj h
        unfold ofWord at hw
        dsimp only at hw
        split at hw <;> cases hw
      · split at h
        · dsimp only at h
          split at h
          · rename_i hf
            cases h
            exact hf
          · cases h
        · cases h

theorem isFinite_of_scanFrom {t : Text} {pos : Nat} {ts : List (Token α)}
    (h : scanFrom pos t = .ok ts) {v : α} (hv : .num v ∈ ts.map Token.symbol) :
    Scalar.isFinite v := by
  refine scanFrom_ok_induction (motive := fun _ _ ts => .num v ∈ ts.map Token.symbol →
    Scalar.isFinite v) ?_ ?_ ?_ h hv
  · exact fun _ hv => nomatch hv
  · exact fun _ _ _ _ ih => ih
  · intro pos c t s w rest ts hs ih hv
    rcases List.mem_cons.1 hv with hv | hv
    · obtain rfl : Symbol.num v = s := hv
      exact isFinite_of_front hs
    · exact ih hv

/-- the first token stands where the text starts or behind, and the others further on -/
theorem le_pos_of_scanFrom {t : Text} {pos : Nat} {ts : List (Token α)}
    (h : scanFrom pos t = .ok ts) :
    (∀ u ∈ ts, pos ≤ u.pos) ∧ ∀ u ∈ ts.tail, pos < u.pos := by
  refine scanFrom_ok_induction (motive := fun pos _ ts =>
    (∀ u ∈ ts, pos ≤ u.pos) ∧ ∀ u ∈ ts.tail, pos < u.pos) ?_ ?_ ?_ h
  · exact fun _ => ⟨nofun, nofun⟩
  · intro pos c t ts ih
    exact ⟨fun u hu => Nat.le_trans (Nat.le_add_right ..) (ih.1 u hu),
      fun u hu => Nat.lt_of_le_of_lt (Nat.le_add_right ..) (ih.2 u hu)⟩
  · intro pos c t s w rest ts hs ih
    have hw : 0 < w.byteSize := Text.byteSize_pos (written_ne_nil hs)
    refine ⟨List.forall_mem_cons.2 ⟨Nat.le_refl pos, fun u hu => ?_⟩, fun u hu => ?_⟩
    · exact Nat.le_trans (Nat.le_add_right ..) (ih.1 u hu)
    · exact Nat.lt_of_lt_of_le (Nat.lt_add_of_pos_right hw) (ih.1 u hu)

end Token

end CurveStudy
