import Mathlib.Data.List.DropRight
import CurveStudy.Proofs.Trim
import CurveStudy.Session.Action

/-!
# The spaces that a key sets

A key leaves the entry as it is but for spaces at its end, and puts its text behind it with spaces
before and after.  Where it sets none before, its text can stand right behind the last character.

* `Text.exists_trimEndWith`, `Text.trimEndWith_append`, `Text.trimEndWith_eq_self`   what trimming
  takes away from the end of a text;
* `Key.insert_eq`   what stands before the text of a key and behind it;
* `Key.trimSpaces_before`, `Key.standsBehind_before`   before it there is the entry but for spaces,
  and its last character is none that the text would go on with;
* `Key.insertAll`, `Session.entry_run_presses`   the entry after several keys.
-/

namespace CurveStudy

namespace Text

/-! ## the end of a text -/

section
variable {p : Char → Bool}

/-- a text is what trimming leaves and characters that satisfy the test -/
theorem exists_trimEndWith (p : Char → Bool) (t : Text) :
    ∃ u : Text, (∀ c ∈ u, p c) ∧ t = trimEndWith p t ++ u :=
  ⟨t.rtakeWhile p, fun _ => List.mem_rtakeWhile_imp, List.rdropWhile_append_rtakeWhile.symm⟩

theorem trimEndWith_append {u : Text} (hu : ∀ c ∈ u, p c) (t : Text) :
    trimEndWith p (t ++ u) = trimEndWith p t := by
  have h : ∀ c ∈ u.reverse, p c := fun c hc => hu c (List.mem_reverse.1 hc)
  rw [trimEndWith, List.reverse_append, List.dropWhile_append_of_pos h]
  rfl

theorem trimEndWith_eq_self {t : Text} (ht : ∀ c ∈ t.getLast?, p c = false) :
    trimEndWith p t = t := by
  refine List.rdropWhile_eq_self_iff.2 fun hl => ?_
  rw [ht _ (List.getLast?_eq_some_getLast hl)]
  exact Bool.false_ne_true

end

@[simp] theorem trimSpaces_trimSpaces (t : Text) : t.trimSpaces.trimSpaces = t.trimSpaces :=
  List.rdropWhile_idempotent _ t

@[simp] theorem trimSpaces_append_space (t : Text) : (t ++ [' ']).trimSpaces = t.trimSpaces :=
  trimEndWith_append (List.forall_mem_singleton.2 rfl) t

theorem isBlank_of_beq_space {c : Char} (h : c == ' ') : isBlank c := eq_of_beq h ▸ rfl

theorem exists_trimSpaces (t : Text) : ∃ u : Text, (∀ c ∈ u, isBlank c) ∧ t = t.trimSpaces ++ u :=
  let ⟨u, hu, ht⟩ := exists_trimEndWith (· == ' ') t
  ⟨u, fun c hc => isBlank_of_beq_space (hu c hc), ht⟩

theorem trimEnd_trimSpaces (t : Text) : t.trimSpaces.trimEnd = t.trimEnd := by
  obtain ⟨u, hu, ht⟩ := t.exists_trimSpaces
  exact (trimEndWith_append hu t.trimSpaces).symm.trans (congrArg trimEnd ht.symm)

/-- taking spaces away leaves all that stands before the blanks at the end -/
theorem trimEnd_prefix_trimSpaces_append {u : Text} (hu : ∀ c ∈ u, isBlank c) (t : Text) :
    t.trimEnd <+: (t.trimEnd ++ u).trimSpaces := by
  have h : (t.trimEnd ++ u).trimSpaces.trimEnd = t.trimEnd := by
    rw [trimEnd_trimSpaces]
    exact (trimEndWith_append hu t.trimEnd).trans (List.rdropWhile_idempotent isBlank t)
  have hp : (t.trimEnd ++ u).trimSpaces.trimEnd <+: (t.trimEnd ++ u).trimSpaces :=
    List.rdropWhile_prefix isBlank _
  rwa [h] at hp

/-! ## a space where it is needed -/

/-- the text has a space behind it, or does not end with a letter -/
theorem spaced_cases (t : Text) :
    t.spaced = t ++ [' '] ∨ t.spaced = t ∧ ∀ d ∈ t.getLast?, d.isAlpha = false := by
  unfold spaced
  split
  · exact .inl rfl
  · rename_i h
    refine .inr ⟨rfl, fun d hd => ?_⟩
    cases hb : isBlank d with
    | true => exact isAlpha_of_isBlank hb
    | false =>
      -- the last character is the one that the test is about
      obtain ⟨t, rfl⟩ := List.getLast?_eq_some_iff.1 hd
      simp [lastSolid?, hb] at h
      exact h.1

theorem isAlpha_of_endsBlank {t : Text} (h : t.endsBlank) :
    ∀ d ∈ t.getLast?, d.isAlpha = false := by
  intro d hd
  rw [endsBlank, hd] at h
  exact isAlpha_of_isBlank h

@[simp] theorem trimSpaces_spaced (t : Text) : t.spaced.trimSpaces = t.trimSpaces := by
  rcases t.spaced_cases with h | ⟨h, -⟩
  · rw [h, trimSpaces_append_space]
  · rw [h]

theorem isAlpha_getLast?_spaced (t : Text) : ∀ d ∈ t.spaced.getLast?, d.isAlpha = false := by
  rcases t.spaced_cases with h | ⟨h, ha⟩
  · rw [h]
    simp
  · rwa [h]

/-- the text with one space at its end, or none if nothing else is left -/
def oneSpace (t : Text) : Text :=
  if t.trimSpaces.isEmpty then t.trimSpaces else t.trimSpaces ++ [' ']

@[simp] theorem trimSpaces_oneSpace (t : Text) : t.oneSpace.trimSpaces = t.trimSpaces := by
  unfold oneSpace
  split
  · exact t.trimSpaces_trimSpaces
  · rw [trimSpaces_append_space, trimSpaces_trimSpaces]

theorem getLast?_oneSpace (t : Text) : ∀ d ∈ t.oneSpace.getLast?, d = ' ' := by
  unfold oneSpace
  split
  · rename_i h
    rw [List.isEmpty_iff.1 h]
    exact nofun
  · simp

end Text

namespace Key

/-! ## what stands around the text of a key -/

/-- what a key puts its text behind: the entry, with more or fewer spaces at its end -/
def before (t : Text) : Key → Text
  | closing => t.trimSpaces
  | plus | minus | times | slash | caret => t.oneSpace
  | x | pi => if t.endsBlank then t else t.spaced
  | opening | sqrt | trig _ => t.spaced

/-- what a key puts behind its text -/
def after : Key → Text
  | plus | minus | times | slash | caret => [' ']
  | _ => []

/-- the characters that the text of a key may stand right behind -/
def standsBehind (d : Char) : Key → Bool
  | closing => true
  | plus | minus | times | slash | caret => d == ' '
  | opening | x | pi | sqrt | trig _ => !d.isAlpha

theorem isAlpha_of_standsBehind (k : Key) {d : Char} (hk : k ≠ .closing) (h : k.standsBehind d) :
    d.isAlpha = false := by
  cases k with
  | closing => exact absurd rfl hk
  | plus | minus | times | slash | caret =>
    exact isAlpha_of_isBlank (Text.isBlank_of_beq_space h)
  | opening | x | pi | sqrt | trig k => exact Bool.not_eq_true' _ ▸ h

theorem text_ne_nil (k : Key) : k.text ≠ [] := by
  cases k with
  | trig k => exact List.append_ne_nil_of_right_ne_nil _ (List.cons_ne_nil _ _)
  | _ => exact List.cons_ne_nil _ _

theorem insert_eq (k : Key) (t : Text) : k.insert t = k.before t ++ (k.text ++ k.after) := by
  cases k with
  | plus | minus | times | slash | caret => exact List.append_assoc ..
  | closing | opening | x | pi | sqrt | trig k => simp [insert, before, after]

theorem after_eq_space (k : Key) : ∀ c ∈ k.after, (c == ' ') = true := by
  cases k <;> simp [after]

@[simp] theorem trimSpaces_before (k : Key) (t : Text) :
    (k.before t).trimSpaces = t.trimSpaces := by
  cases k with
  | closing => exact t.trimSpaces_trimSpaces
  | plus | minus | times | slash | caret => exact t.trimSpaces_oneSpace
  | x | pi =>
    show (if t.endsBlank then t else t.spaced).trimSpaces = _
    split
    · rfl
    · exact t.trimSpaces_spaced
  | opening | sqrt | trig k => exact t.trimSpaces_spaced

theorem standsBehind_before (k : Key) (t : Text) :
    ∀ d ∈ (k.before t).getLast?, k.standsBehind d := by
  intro d hd
  cases k with
  | closing => rfl
  | plus | minus | times | slash | caret => exact beq_iff_eq.2 (t.getLast?_oneSpace d hd)
  | x | pi =>
    rw [standsBehind, Bool.not_eq_true']
    simp only [before] at hd
    split at hd
    · rename_i h
      exact Text.isAlpha_of_endsBlank h d hd
    · exact t.isAlpha_getLast?_spaced d hd
  | opening | sqrt | trig k =>
    rw [standsBehind, Bool.not_eq_true']
    exact t.isAlpha_getLast?_spaced d hd

/-! ## several keys -/

/-- the entry after several keys -/
def insertAll (ks : List Key) (t : Text) : Text := ks.foldl (fun t k => k.insert t) t

@[simp] theorem insertAll_nil (t : Text) : insertAll [] t = t := rfl
@[simp] theorem insertAll_cons (k : Key) (ks : List Key) (t : Text) :
    insertAll (k :: ks) t = insertAll ks (k.insert t) := rfl

end Key

namespace Session
variable {α : Type} [Number α]

/-- pressing the buttons of several keys -/
def presses (ks : List Key) : List (Action α) := ks.map fun k => .press (.insert k)

@[simp] theorem entry_run_presses (ks : List Key) (s : Session α) :
    (s.run (presses ks)).entry = Key.insertAll ks s.entry := by
  induction ks generalizing s with
  | nil => rfl
  | cons k ks ih => exact ih (s.press (.insert k))

end Session

end CurveStudy
