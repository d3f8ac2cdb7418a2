import CurveStudy.Token.Basic
import CurveStudy.Fault
import CurveStudy.Text.Blank
import CurveStudy.Decimal.Numeral

/-!
# From a text to tokens

`Token.front` says what stands at the front of a text: a blank, a token with the characters it is
written with, a numeral that is too large, or a character that starts no token.  `Token.scan` goes
on from there to the end of the text.

A numeral and a name are as long as they can be.  Names are read in small letters; `pi` is the same
as `π`, and `√` is the name `sqrt`.

* `append_front`    the characters of a token and the rest are the text they were taken from;
* `length_front`    the rest is shorter;
* `scanFrom_cons`   one step of the scan.
-/

namespace CurveStudy.Token

variable {α : Type}

/-- what stands at the front of a text -/
inductive Front (α : Type) where
  | blank
  | token (s : Symbol α) (written rest : Text)
  | tooLarge (numeral : Text)
  | stray

/-- the symbol that is a single character -/
def ofChar? : Char → Option (Symbol α)
  | '(' => some .opening
  | ')' => some .closing
  | '+' => some .plus
  | '-' => some .minus
  | '*' => some .times
  | '/' => some .slash
  | '^' => some .caret
  | 'π' => some .pi
  | '√' => some (.name "sqrt".toList)
  | _ => none

/-- the symbol that is a word, whose letters may be large or small -/
def ofWord (w : Text) : Symbol α :=
  let t := w.map Char.toLower
  if t = "pi".toList then .pi else .name t

variable [Scalar α] [Literal α]

/-- what stands at the front of the text `c :: t` -/
def front (c : Char) (t : Text) : Front α :=
  if isBlank c then .blank
  else
    match ofChar? c with
    | some s => .token s [c] t
    | none =>
      if c.isAlpha then
        let w := (c :: t).takeWhile Char.isAlpha
        .token (ofWord w) w ((c :: t).dropWhile Char.isAlpha)
      else if Numeral.startsNumeral (c :: t) then
        let n := Numeral.scan (c :: t)
        let v : α := Numeral.value n.1
        if Scalar.isFinite v then .token (.num v) n.1 n.2 else .tooLarge n.1
      else .stray

theorem append_front {c : Char} {t w rest : Text} {s : Symbol α}
    (h : front c t = .token s w rest) : w ++ rest = c :: t := by
  unfold front at h
  split at h
  · cases h
  · split at h
    · cases h; rfl
    · split at h
      · cases h; exact List.takeWhile_append_dropWhile
      · split at h
        · dsimp only at h
          split at h
          · cases h; exact Numeral.append_scan _
          · cases h
        · cases h

theorem written_ne_nil {c : Char} {t w rest : Text} {s : Symbol α}
    (h : front c t = .token s w rest) : w ≠ [] := by
  unfold front at h
  split at h
  · cases h
  · split at h
    · cases h; exact List.cons_ne_nil c []
    · split at h
      · rename_i hc
        cases h
        rw [List.takeWhile_cons_of_pos hc]
        exact List.cons_ne_nil c _
      · split at h
        · rename_i hn
          dsimp only at h
          split at h
          · cases h; exact Numeral.scan_ne_nil hn
          · cases h
        · cases h

theorem length_front {c : Char} {t w rest : Text} {s : Symbol α}
    (h : front c t = .token s w rest) : rest.length < (c :: t).length := by
  rw [← append_front h, List.length_append]
  exact Nat.lt_add_of_pos_left (List.length_pos_iff.2 (written_ne_nil h))

/-- the tokens of a text that starts at the place `pos` -/
def scanFrom (pos : Nat) : Text → Except Fault (List (Token α))
  | [] => .ok []
  | c :: t =>
    match _h : front (α := α) c t with
    | .blank => scanFrom (pos + c.utf8Size) t
    | .token s w rest => (scanFrom (pos + w.byteSize) rest).map (⟨s, pos⟩ :: ·)
    | .tooLarge n => .error (.numeralTooLarge n pos)
    | .stray => .error (.unexpectedChar c pos)
termination_by t => t.length
decreasing_by
  · exact Nat.lt_succ_self _
  · exact length_front _h

@[simp] theorem scanFrom_nil (pos : Nat) : scanFrom (α := α) pos [] = .ok [] := by rw [scanFrom]

@[simp] theorem scanFrom_cons (pos : Nat) (c : Char) (t : Text) :
    scanFrom (α := α) pos (c :: t) =
      match front c t with
      | .blank => scanFrom (pos + c.utf8Size) t
      | .token s w rest => (scanFrom (pos + w.byteSize) rest).map (⟨s, pos⟩ :: ·)
      | .tooLarge n => .error (.numeralTooLarge n pos)
      | .stray => .error (.unexpectedChar c pos) := by
  rw [scanFrom]
  split <;> simp only [*]

/-- the tokens of a text, or why it has none -/
def scan (t : Text) : Except Fault (List (Token α)) := scanFrom 0 t

end CurveStudy.Token
