import CurveStudy.Double
import CurveStudy.Proofs.Entry.Spacing
import CurveStudy.Proofs.Grammar.Text
import CurveStudy.Proofs.Junction

/-!
# The tokens that a key adds

The text of a key never runs together with what the entry ends with: behind a letter a name or a
bracket comes after a space, an operator always does, and no other key has a text that goes on with
a numeral.  So a key adds its own tokens to those of the entry.

* `Key.symbols`, `Key.lexes_text`   the symbols of a key are those of its text;
* `Key.parted_of_standsBehind`   where two texts meet that a key puts together;
* `Key.scan_insert`   one key;
* `Key.scan_insertAll`, `Session.scan_run_presses`   several keys, one after the other.
-/

namespace CurveStudy

namespace Token
variable {α : Type} [Scalar α] [Literal α]

theorem scanFrom_trimSpaces (pos : Nat) (t : Text) :
    scanFrom (α := α) pos t.trimSpaces = scanFrom pos t := by
  obtain ⟨u, hu, ht⟩ := t.exists_trimSpaces
  conv_rhs => rw [ht]
  exact (scanFrom_append_blanks hu pos _).symm

/-- the symbols of a text are the same wherever it stands -/
theorem exists_scanFrom {t : Text} {ts : List (Token α)} (h : scan t = .ok ts) (pos : Nat) :
    ∃ us : List (Token α), scanFrom pos t = .ok us
      ∧ us.map Token.symbol = ts.map Token.symbol := by
  have hs := scanFrom_shift (α := α) pos 0 t
  rw [show scanFrom 0 t = .ok ts from h, Nat.add_zero] at hs
  refine ⟨ts.map (shift pos), hs.eq_ok, ?_⟩
  rw [List.map_map]
  rfl

end Token

namespace Key
open Token

section
variable {α : Type}

/-- the symbols of the text of a key -/
def symbols : Key → List (Symbol α)
  | opening => [.opening]
  | closing => [.closing]
  | plus => [.plus]
  | minus => [.minus]
  | times => [.times]
  | slash => [.slash]
  | caret => [.caret]
  | x => [.name ['x']]
  | pi => [.pi]
  | sqrt => [.name "sqrt".toList, .opening]
  | trig k => [.name k.name, .opening]

variable [Scalar α] [Literal α]

theorem lexes_text (k : Key) : Lexes (α := α) (fun d => !d.isAlpha) k.text k.symbols := by
  have bracket : Lexes (α := α) (fun d => !d.isAlpha) ['('] [.opening] := Lexes.nil.char rfl rfl
  have word : ∀ w : Text, w ≠ [] → w.all Char.isAlpha →
      Lexes (α := α) (fun d => !d.isAlpha) w [ofWord w] := by
    intro w h hw
    obtain ⟨c, w, rfl⟩ := List.exists_cons_of_ne_nil h
    exact Lexes.word (List.all_eq_true.1 hw)
  cases k with
  | x => exact word ['x'] (List.cons_ne_nil _ _) rfl
  | pi => exact word "pi".toList (List.cons_ne_nil _ _) rfl
  | sqrt =>
    have h := word "sqrt".toList (List.cons_ne_nil _ _) rfl
    exact h.append bracket (by rintro c ⟨⟩; rfl) fun _ h => h
  | trig k => exact (Grammar.lexes_name k).append bracket (by rintro c ⟨⟩; rfl) fun _ h => h
  | opening | closing | plus | minus | times | slash | caret => exact Lexes.nil.char rfl rfl

theorem exists_scan_text (k : Key) :
    ∃ us : List (Token α), scan k.text = .ok us ∧ us.map Token.symbol = k.symbols :=
  k.lexes_text.scan_eq_ok

end

/-- the text of a key starts no token that could go on with what it may stand right behind -/
theorem parted_of_standsBehind {k : Key} {d c : Char} (hd : k.standsBehind d)
    (hc : c ∈ k.text.head?) : Parted d c := by
  have name : ∀ w : Text, w.head?.any (fun c => !Numeral.inNumeral c) → c ∈ w.head? →
      (!d.isAlpha) = true → Parted d c := by
    intro w hw hc hd
    rw [Bool.not_eq_true'] at hd
    rw [hc] at hw
    refine .inr ⟨by simpa using hw, fun ha => ?_⟩
    rw [hd] at ha
    cases ha
  cases k with
  | closing =>
    cases hc
    exact .inr ⟨rfl, fun _ => rfl⟩
  | plus | minus | times | slash | caret =>
    obtain rfl := eq_of_beq hd
    exact .inl rfl
  | opening | x | pi | sqrt => exact name _ rfl hc hd
  | trig k => exact name _ (by cases k <;> rfl) hc hd

theorem apart_before (k : Key) (t : Text) : Apart (k.before t) (k.text ++ k.after) := by
  intro d hd c hc
  refine parted_of_standsBehind (k.standsBehind_before t d hd) ?_
  rwa [List.head?_append_of_ne_nil _ k.text_ne_nil] at hc

variable {α : Type} [Scalar α] [Literal α]

/-- a key adds the tokens of its text to those of the entry -/
theorem scan_insert (k : Key) {t : Text} {ts : List (Token α)} (h : scan t = .ok ts) :
    ∃ vs : List (Token α), scan (k.insert t) = .ok (ts ++ vs)
      ∧ vs.map Token.symbol = k.symbols := by
  have hb : scan (k.before t) = .ok ts := by
    rw [scan, ← scanFrom_trimSpaces, k.trimSpaces_before, scanFrom_trimSpaces]
    exact h
  obtain ⟨us, hus, hs⟩ := k.exists_scan_text (α := α)
  obtain ⟨vs, hvs, hv⟩ := exists_scanFrom hus (k.before t).byteSize
  refine ⟨vs, ?_, hv.trans hs⟩
  have hafter : ∀ c ∈ k.after, isBlank c := fun c hc =>
    Text.isBlank_of_beq_space (k.after_eq_space c hc)
  rw [insert_eq]
  refine scan_append (k.apart_before t) hb ?_
  rw [scanFrom_append_blanks hafter, hvs]

theorem scan_insertAll (ks : List Key) {t : Text} {ts : List (Token α)} (h : scan t = .ok ts) :
    ∃ vs : List (Token α), scan (insertAll ks t) = .ok (ts ++ vs)
      ∧ vs.map Token.symbol = ks.flatMap symbols := by
  induction ks generalizing t ts with
  | nil => exact ⟨[], by rw [insertAll_nil, h, List.append_nil], rfl⟩
  | cons k ks ih =>
    obtain ⟨vs, hvs, hk⟩ := k.scan_insert h
    obtain ⟨ws, hws, hks⟩ := ih hvs
    refine ⟨vs ++ ws, ?_, ?_⟩
    · rw [insertAll_cons, hws, List.append_assoc]
    · rw [List.map_append, hk, hks, List.flatMap_cons]

end Key

namespace Session
variable {α : Type} [Number α]

/-- A button that inserts adds the tokens of its text to those of the entry, which keep their
places; several buttons add theirs in the order in which they are pressed. -/
theorem scan_run_presses {s : Session α} {ts : List (Token α)} (h : Token.scan s.entry = .ok ts) :
    (∀ k : Key, ∃ us vs : List (Token α), Token.scan k.text = .ok us
      ∧ Token.scan (s.press (.insert k)).entry = .ok (ts ++ vs)
      ∧ vs.map Token.symbol = us.map Token.symbol ∧ us.map Token.symbol = k.symbols)
    ∧ ∀ ks : List Key, ∃ vs : List (Token α), Token.scan (s.run (presses ks)).entry = .ok (ts ++ vs)
      ∧ vs.map Token.symbol = ks.flatMap Key.symbols := by
  refine ⟨fun k => ?_, fun ks => ?_⟩
  · obtain ⟨us, hus, hs⟩ := k.exists_scan_text (α := α)
    obtain ⟨vs, hvs, hv⟩ := k.scan_insert h
    exact ⟨us, vs, hus, hvs, hv.trans hs.symm, hs⟩
  · rw [entry_run_presses]
    exact Key.scan_insertAll ks h

/-- a session in which `2e` was typed, where the letter is that of an exponent without digits -/
def typedTwoE : Session Float := step initial (.edit ['2', 'e'])

/-- the keys `-` and `pi` behind it -/
theorem scan_run_presses_typedTwoE :
    Token.scan typedTwoE.entry
      = .ok ([⟨.num (Numeral.value ['2']), 0⟩, ⟨.name ['e'], 1⟩] : List (Token Float))
    ∧ ∃ vs : List (Token Float),
      Token.scan (typedTwoE.run (presses [.minus, .pi])).entry
        = .ok ([⟨.num (Numeral.value ['2']), 0⟩, ⟨.name ['e'], 1⟩] ++ vs)
      ∧ vs.map Token.symbol = [.minus, .pi] := by
  have h2 : Token.front '2' ['e']
      = (.token (.num (Numeral.value ['2'])) ['2'] ['e'] : Token.Front Float) := by
    show (if Scalar.isFinite (Numeral.value ['2'] : Float)
      then Token.Front.token (.num (Numeral.value ['2'])) ['2'] ['e'] else .tooLarge ['2']) = _
    exact if_pos (by decide +kernel)
  have he : Token.front 'e' [] = (.token (.name ['e']) ['e'] [] : Token.Front Float) := rfl
  have h : Token.scan typedTwoE.entry
      = .ok ([⟨.num (Numeral.value ['2']), 0⟩, ⟨.name ['e'], 1⟩] : List (Token Float)) := by
    show Token.scanFrom 0 ['2', 'e'] = _
    simp [h2, he, Except.map, Char.utf8Size]
  exact ⟨h, (scan_run_presses h).2 [.minus, .pi]⟩

end Session

end CurveStudy
