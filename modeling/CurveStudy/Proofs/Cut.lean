import CurveStudy.Proofs.Lexeme

/-!
# How a text is cut into tokens

The tokens of a text are slices of it, in order and with nothing but blanks between them, and each
slice is as long as it can be.  A scan that fails stops behind a text that it can cut, in front of
a character that starts nothing or of a numeral that is too large.

* `Token.Slice`     what a token is written as, in front of the rest of a text;
* `Token.Cut`       a text cut into slices and blanks;
* `Token.scanFrom_eq_ok_iff`   a scan gives the tokens of the slices, and there is one way to cut;
* `Token.Stops`, `Token.scan_eq_error_cut`   where a scan fails;
* `Token.Cut.slice`   the slice of a token.
-/

namespace CurveStudy.Token

variable {α : Type}

section
variable [Literal α]

/-- what is in front of a text is the longest lexeme of less of the text -/
theorem Longest.of_append {w t u : Text} {s : Symbol α} (h : Longest w s (w ++ (t ++ u))) :
    Longest w s (w ++ t) where
  lexeme := h.lexeme
  isPrefix := List.prefix_append ..
  le hv hp := h.le hv (by
    rw [← List.append_assoc]
    exact hp.trans (List.prefix_append ..))

/-- Why a scan fails in front of a text at the place `pos`.  `huge` says of a number that it is too
large. -/
inductive Stops (huge : α → Prop) (pos : Nat) : Text → Fault → Prop where
  | stray {c : Char} {t : Text} (hb : isBlank c = false)
      (h : ∀ w (s : Symbol α), Lexeme w s → ¬w <+: c :: t) :
      Stops huge pos (c :: t) (.unexpectedChar c pos)
  | tooLarge {n t : Text} (hn : Numeral.Shape n)
      (hl : ∀ m, Numeral.Shape m → m <+: n ++ t → m <+: n) (hv : huge (Numeral.value n)) :
      Stops huge pos (n ++ t) (.numeralTooLarge n pos)

theorem Stops.mono {huge huge' : α → Prop} {pos : Nat} {t : Text} {f : Fault}
    (h : Stops huge pos t f) (hle : ∀ n, huge (Numeral.value n) → huge' (Numeral.value n)) :
    Stops huge' pos t f := by
  cases h with
  | stray hb h => exact .stray hb h
  | tooLarge hn hl hv => exact .tooLarge hn hl (hle _ hv)

end

variable [Scalar α] [Literal α]

/-! ## slices -/

/-- What a token with the symbol is written as in front of `rest`.  Alone it is the one token that
it is here.  A word has no letter behind it, and a numeral is the longest one that starts there. -/
structure Slice (w : Text) (s : Symbol α) (rest : Text) : Prop where
  lexeme : Lexeme w s
  alone : scan w = .ok [⟨s, 0⟩]
  word : (∀ c ∈ w, c.isAlpha) → ∀ c ∈ rest.head?, c.isAlpha = false
  numeral : Numeral.Shape w → ∀ n, Numeral.Shape n → n <+: w ++ rest → n <+: w

theorem scan_of_longest {w : Text} {s : Symbol α} (h : Longest w s w) (hf : s.IsFinite) :
    scan w = .ok [⟨s, 0⟩] := by
  obtain ⟨c, t, rfl, -⟩ := h.lexeme.exists_cons
  rw [scan, scanFrom_cons, h.front_eq (List.append_nil _) hf]
  dsimp only
  rw [scanFrom_nil]
  rfl

theorem Longest.slice {w rest : Text} {s : Symbol α} (h : Longest w s (w ++ rest))
    (hf : s.IsFinite) : Slice w s rest where
  lexeme := h.lexeme
  alone := scan_of_longest (by
    have h' := Longest.of_append (t := []) (u := rest) h
    rwa [List.append_nil] at h') hf
  word hw := by
    rintro c hc
    cases rest with
    | nil => cases hc
    | cons d rest =>
      obtain rfl : d = c := Option.some.inj hc
      by_contra hd
      -- one letter more
      have hv : ∀ b ∈ w ++ [d], b.isAlpha := fun b hb =>
        (List.mem_append.1 hb).elim (hw b) fun hb => by
          obtain rfl := List.mem_singleton.1 hb
          exact Bool.not_eq_false _ ▸ hd
      have hle := h.le (.word (List.append_ne_nil_of_right_ne_nil w (List.cons_ne_nil d [])) hv)
        ⟨rest, by rw [List.append_assoc]; rfl⟩
      have hl := hle.length_le
      rw [List.length_append] at hl
      exact Nat.not_succ_le_self _ hl
  numeral _ n hn hp := h.le (.numeral hn) hp

theorem Slice.isFinite {w rest : Text} {s : Symbol α} (h : Slice w s rest) : s.IsFinite := by
  cases s with
  | num v => exact isFinite_of_scanFrom h.alone (List.mem_cons_self ..)
  | _ => trivial

theorem Slice.longest {w rest : Text} {s : Symbol α} (h : Slice w s rest) :
    Longest w s (w ++ rest) := by
  refine ⟨h.lexeme, List.prefix_append .., fun {v r} hv hp => ?_⟩
  have hword := h.word
  have hnumeral := h.numeral
  obtain ⟨c, t, rfl, -⟩ := h.lexeme.exists_cons
  rcases h.lexeme.of_isPrefix List.prefix_rfl with ⟨hw, hs⟩ | ⟨hw, -, hl⟩ | ⟨hw, -, hn, -⟩ <;>
    rcases hv.of_isPrefix hp with ⟨rfl, -⟩ | ⟨hc, -, hl'⟩ | ⟨hn', -, hs', -⟩
  · exact ⟨t, rfl⟩
  · rw [ofChar?_of_isAlphanum (isAlphanum_of_isAlpha hc)] at hs
    cases hs
  · rw [ofChar?_of_startsNumeral hn'] at hs
    cases hs
  · exact ⟨t, rfl⟩
  · have hw : ∀ b ∈ c :: t, b.isAlpha := fun b hb => List.mem_takeWhile_imp (hl.subset hb)
    have hcut := (takeWhile_dropWhile_append hw (hword hw)).1
    exact hcut ▸ hl'
  · rw [isAlpha_of_startsNumeral hn'] at hw
    cases hw
  · exact ⟨t, rfl⟩
  · rw [isAlpha_of_startsNumeral hw] at hc
    cases hc
  · exact hnumeral hn v hs' hp

/-- less of the rest -/
theorem Slice.of_append {w t u : Text} {s : Symbol α} (h : Slice w s (t ++ u)) : Slice w s t :=
  h.longest.of_append.slice h.isFinite

/-! ## cuts -/

/-- A text that starts at the place `pos`, cut into tokens: blanks, the slice of a token that
stands where the slice starts, and so on behind it; blanks at the end. -/
inductive Cut : Nat → Text → List (Token α) → Prop where
  | nil {pos : Nat} {u : Text} (hu : ∀ c ∈ u, isBlank c) : Cut pos u []
  | cons {pos : Nat} {u w rest : Text} {s : Symbol α} {ts : List (Token α)}
      (hu : ∀ c ∈ u, isBlank c) (hw : Slice w s rest)
      (h : Cut (pos + u.byteSize + w.byteSize) rest ts) :
      Cut pos (u ++ (w ++ rest)) (⟨s, pos + u.byteSize⟩ :: ts)

/-- blanks in front -/
theorem Cut.blanks {pos : Nat} {u t : Text} {ts : List (Token α)} (hu : ∀ c ∈ u, isBlank c)
    (h : Cut (pos + u.byteSize) t ts) : Cut pos (u ++ t) ts := by
  generalize hp : pos + u.byteSize = p at h
  cases h with
  | nil ht => exact .nil fun c hc => (List.mem_append.1 hc).elim (hu c) (ht c)
  | @cons _ v w rest s ts hv hw h =>
    subst hp
    have hb : (u ++ v).byteSize = u.byteSize + v.byteSize := Text.byteSize_append u v
    have huv : ∀ c ∈ u ++ v, isBlank c := fun c hc => (List.mem_append.1 hc).elim (hu c) (hv c)
    rw [← List.append_assoc, Nat.add_assoc pos, ← hb]
    refine .cons huv hw ?_
    rw [hb, ← Nat.add_assoc]
    exact h

theorem Cut.scanFrom_eq {pos : Nat} {t : Text} {ts : List (Token α)} (h : Cut pos t ts) :
    scanFrom pos t = .ok ts := by
  induction h with
  | @nil pos u hu => rw [← List.append_nil u, scanFrom_blanks hu, scanFrom_nil]
  | @cons pos u w rest s ts hu hw h ih =>
    obtain ⟨c, t, rfl, -⟩ := hw.lexeme.exists_cons
    have hf : front c (t ++ rest) = .token s (c :: t) rest := hw.longest.front_eq rfl hw.isFinite
    rw [scanFrom_blanks hu, List.cons_append, scanFrom_cons, hf]
    dsimp only
    rw [ih]
    rfl

/-- the slice of a token -/
theorem Cut.slice {pos : Nat} {t : Text} {ts : List (Token α)} (h : Cut pos t ts) {k : Token α}
    (hk : k ∈ ts) : ∃ u w rest, t = u ++ (w ++ rest) ∧ k.pos = pos + u.byteSize
      ∧ Slice w k.symbol rest := by
  induction h with
  | nil _ => cases hk
  | @cons pos u w rest s ts hu hw h ih =>
    rcases List.mem_cons.1 hk with rfl | hk
    · exact ⟨u, w, rest, rfl, rfl, hw⟩
    · obtain ⟨v, w', rest', rfl, hp, hw'⟩ := ih hk
      refine ⟨u ++ (w ++ v), w', rest', ?_, ?_, hw'⟩
      · rw [List.append_assoc, List.append_assoc]
      · rw [hp, Text.byteSize_append, Text.byteSize_append, ← Nat.add_assoc, ← Nat.add_assoc]

/-! ## scans -/

theorem Found.stops {c : Char} {t n : Text} (h : Found c t (.tooLarge n : Front α)) (pos : Nat) :
    Stops (fun v : α => Scalar.isFinite v = false) pos (c :: t) (.numeralTooLarge n pos) := by
  cases h with | tooLarge h hn hf =>
  obtain ⟨rest, hr⟩ := h.isPrefix
  rw [← hr]
  refine .tooLarge hn (fun m hm hp => h.le (.numeral hm) ?_) hf
  rwa [← hr]

/-- a text at the place `pos` that is cut into tokens, or cut in front of what stops the scan -/
def Outcome (pos : Nat) (t : Text) : Except Fault (List (Token α)) → Prop
  | .ok ts => Cut pos t ts
  | .error f => ∃ (u v : Text) (ts : List (Token α)), t = u ++ v ∧ Cut pos u ts
      ∧ Stops (fun v : α => Scalar.isFinite v = false) (pos + u.byteSize) v f

theorem outcome_scanFrom (pos : Nat) (t : Text) :
    Outcome pos t (scanFrom pos t : Except Fault (List (Token α))) := by
  refine scanFrom_induction (motive := Outcome) ?_ ?_ ?_ ?_ ?_ pos t
  · exact fun pos => Cut.nil nofun
  · intro pos c t r hf ih
    have hc : ∀ b ∈ [c], isBlank b := by
      have hfound := found_front (α := α) c t
      rw [hf] at hfound
      cases hfound with | blank hb =>
      exact List.forall_mem_singleton.2 hb
    cases r with
    | ok ts => exact Cut.blanks (u := [c]) hc ih
    | error f =>
      obtain ⟨u, v, ts, rfl, hu, hs⟩ := ih
      refine ⟨c :: u, v, ts, rfl, .blanks (u := [c]) hc hu, ?_⟩
      rw [Text.byteSize_cons, ← Nat.add_assoc]
      exact hs
  · intro pos c t s w rest r hf ih
    have hfound := found_front (α := α) c t
    rw [hf] at hfound
    cases hfound with | token h hr hfin =>
    rw [← hr] at h ⊢
    have hw := h.slice hfin
    cases r with
    | ok ts => exact Cut.cons (u := []) nofun hw ih
    | error f =>
      obtain ⟨u, v, ts, rfl, hu, hs⟩ := ih
      refine ⟨w ++ u, v, ⟨s, pos⟩ :: ts, (List.append_assoc ..).symm, ?_, ?_⟩
      · exact .cons (u := []) nofun hw.of_append hu
      · rw [Text.byteSize_append, ← Nat.add_assoc]
        exact hs
  · intro pos c t n hf
    have hfound := found_front (α := α) c t
    rw [hf] at hfound
    exact ⟨[], c :: t, [], rfl, .nil nofun, hfound.stops pos⟩
  · intro pos c t hf
    have hfound := found_front (α := α) c t
    rw [hf] at hfound
    cases hfound with | stray hb h =>
    exact ⟨[], c :: t, [], rfl, .nil nofun, .stray hb h⟩

/-- a scan gives the tokens of a cut, and there is one way to cut a text -/
theorem scanFrom_eq_ok_iff {pos : Nat} {t : Text} {ts : List (Token α)} :
    scanFrom pos t = .ok ts ↔ Cut pos t ts := by
  refine ⟨fun h => ?_, Cut.scanFrom_eq⟩
  have hc := outcome_scanFrom (α := α) pos t
  rw [h] at hc
  exact hc

theorem scan_eq_error_cut {t : Text} {f : Fault}
    (h : scan t = (.error f : Except Fault (List (Token α)))) :
    ∃ (u v : Text) (ts : List (Token α)), t = u ++ v ∧ scan u = .ok ts
      ∧ Stops (fun v : α => Scalar.isFinite v = false) u.byteSize v f := by
  have hc := outcome_scanFrom (α := α) 0 t
  rw [show scanFrom 0 t = _ from h] at hc
  obtain ⟨u, v, ts, rfl, hu, hs⟩ := hc
  rw [Nat.zero_add] at hs
  exact ⟨u, v, ts, rfl, hu.scanFrom_eq, hs⟩

end CurveStudy.Token
