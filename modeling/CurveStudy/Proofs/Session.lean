import Mathlib.Tactic.Ring
import CurveStudy.Proofs.Double.Window
import CurveStudy.Proofs.Study
import CurveStudy.Session.Action

/-!
# What a session shows is never stale

Whatever a user does, the texts of a session belong to the curves that are drawn, the values are
those at the current point, and where there is a fault there are no values.  In double precision the
point and the window stay within their bounds.

* `Session.Drawn`   the texts of the function and the derivative are those of the curves;
* `Session.Shown`   so are the values, at the current point, unless there is a fault;
* `Shown.step`, `Shown.run`   one action, and several;
* `step_cases`   what an action does to the point and the window, and `run_point`, `run_window`,
  what holds of them after several;
* `Session.Bounded`, `Bounded.run`   in double precision, the bounds;
* `Session.Consistent`, `consistent_run`   all of this after any actions.
-/

namespace CurveStudy

/-! ## texts that are not empty -/

theorem Text.ofNat_ne_nil (n : Nat) : ofNat n ≠ [] := Nat.toDigits_ne_nil

theorem Text.ofInt_ne_nil (n : Int) : ofInt n ≠ [] := by
  unfold ofInt
  split
  · exact List.cons_ne_nil _ _
  · exact ofNat_ne_nil _

theorem Decimal.positional_ne_nil (c : Nat) (p : Int) : positional c p ≠ [] := by
  unfold positional
  split
  · exact Text.ofNat_ne_nil _
  · exact List.append_ne_nil_of_left_ne_nil (Text.ofNat_ne_nil _) _

theorem Label.text_ne_nil {α : Type} [Number α] (v : α) : Label.text v ≠ [] := by
  unfold Label.text
  split
  · decide
  split
  · split <;> decide
  split
  · exact Text.ofInt_ne_nil _
  split
  · rename_i q _
    unfold Label.fractionText
    split
    · exact Text.ofInt_ne_nil _
    · exact List.append_ne_nil_of_left_ne_nil (Text.ofInt_ne_nil _) _
  · unfold Label.decimalText
    dsimp only
    split
    · exact List.cons_ne_nil _ _
    · exact Decimal.positional_ne_nil _ _

theorem Fault.message_ne_nil (f : Fault) : f.message ≠ [] := by
  cases f <;> exact List.cons_ne_nil _ _

namespace Session

section
variable {α : Type} [Number α] {s : Session α}

/-- the texts of the function and the derivative are those of the curves, if there are any -/
structure Drawn (s : Session α) : Prop where
  empty : s.curves = none → s.function = [] ∧ s.derivative = []
  texts : ∀ c, s.curves = some c → c.derivative = c.function.deriv
    ∧ s.function = c.function.render ∧ s.derivative = c.derivative.render

/-- what is shown belongs to the curves and to the current point -/
structure Shown (s : Session α) : Prop extends Drawn s where
  blank : s.curves = none → s.value = [] ∧ s.slope = [] ∧ s.workings = .blank
  /-- with curves, there is either a fault or a value -/
  either : ∀ c, s.curves = some c → (s.error ≠ [] ↔ s.value = [])
  error : s.error ≠ [] → s.value = [] ∧ s.slope = [] ∧ s.workings = .blank
  value : s.value ≠ [] → ∃ c, s.curves = some c ∧ s.value = Label.text (c.function.eval s.point)
    ∧ s.slope = Label.text (c.derivative.eval s.point)
    ∧ s.workings.function = s.function ∧ s.workings.derivative = s.derivative

theorem Shown.of_blank (hc : s.curves = none) (hf : s.function = [] ∧ s.derivative = [])
    (hv : s.value = [] ∧ s.slope = [] ∧ s.workings = .blank) : Shown s where
  empty _ := hf
  texts c h := by rw [hc] at h; cases h
  blank _ := hv
  either c h := by rw [hc] at h; cases h
  error _ := hv
  value h := absurd hv.1 h

theorem shown_initial : Shown (initial : Session α) :=
  .of_blank rfl ⟨rfl, rfl⟩ ⟨rfl, rfl, rfl⟩

theorem shown_clearResults (s : Session α) : Shown s.clearResults :=
  .of_blank rfl ⟨rfl, rfl⟩ ⟨rfl, rfl, rfl⟩

theorem shown_reset (s : Session α) : Shown s.reset :=
  .of_blank rfl ⟨rfl, rfl⟩ ⟨rfl, rfl, rfl⟩

theorem shown_accept (s : Session α) (ts : List (Token α)) (f : Expr α) :
    Shown (s.accept (Study.ofExpr ts f s.point)) where
  empty h := nomatch h
  texts c h := by
    cases h
    exact ⟨rfl, rfl, rfl⟩
  blank h := nomatch h
  either _ _ := ⟨fun h => absurd rfl h, fun h => absurd h (Label.text_ne_nil _)⟩
  error h := absurd rfl h
  value _ := ⟨_, rfl, rfl, rfl, rfl, rfl⟩

theorem Drawn.fail (h : Drawn s) {message : Text} (hm : message ≠ []) :
    Shown (s.fail message) where
  empty := h.empty
  texts := h.texts
  blank _ := ⟨rfl, rfl, rfl⟩
  either _ _ := ⟨fun _ => rfl, fun _ => hm⟩
  error _ := ⟨rfl, rfl, rfl⟩
  value h := absurd rfl h

/-- a study shows the results, or why there are none, whatever was shown before -/
theorem Drawn.study (h : Drawn s) : Shown s.study := by
  unfold Session.study
  split
  · rename_i r hr
    obtain ⟨ts, f, rfl⟩ := Study.exists_eq_ofExpr hr
    exact shown_accept s ts f
  · exact shown_clearResults s
  · rename_i f _ _
    exact h.fail f.message_ne_nil

theorem Drawn.setPoint (h : Drawn s) (v : α) : Drawn (s.setPoint v) := ⟨h.empty, h.texts⟩

/-- without curves there is no value that the point could make stale -/
theorem Shown.setPoint (h : Shown s) (hc : s.curves = none) (v : α) : Shown (s.setPoint v) where
  empty := h.empty
  texts := h.texts
  blank := h.blank
  either := h.either
  error := h.error
  value hv := absurd (h.blank hc).1 hv

/-- the entry, the window and the keyboard do not matter -/
theorem Shown.frame (h : Shown s) (t : Text) (w : Span α) (b : Bool) :
    Shown { s with entry := t, window := w, focused := b } where
  empty := h.empty
  texts := h.texts
  blank := h.blank
  either := h.either
  error := h.error
  value := h.value

theorem Shown.press (h : Shown s) (b : Button) : Shown (s.press b) := by
  cases b with
  | clearEntry => exact h.frame [] s.window true
  | clearResults => exact shown_clearResults s
  | reset => exact shown_reset s
  | study => exact h.toDrawn.study
  | insert k => exact h.frame (k.insert s.entry) s.window true

theorem Shown.step (h : Shown s) (a : Action α) : Shown (s.step a) := by
  cases a with
  | edit t => exact h.frame t s.window s.focused
  | press b => exact h.press b
  | enter =>
    show Shown (if s.focused then s.study else s)
    split
    · exact h.toDrawn.study
    · exact h
  | backspace => exact h.frame (Entry.erase s.entry) s.window true
  | escape => exact h.frame [] s.window false
  | typePoint v =>
    show Shown (if (s.setPoint v).curves.isSome then (s.setPoint v).study else s.setPoint v)
    split
    · exact (h.toDrawn.setPoint v).study
    · rename_i hc
      exact h.setPoint (Option.not_isSome_iff_eq_none.1 hc) v
  | typeLow v => exact h.frame s.entry (.window v s.window.hi) false
  | typeHigh v => exact h.frame s.entry (.window s.window.lo v) false
  | paint => exact h.frame s.entry s.window false

theorem Shown.run (h : Shown s) (as : List (Action α)) : Shown (s.run as) := by
  induction as generalizing s with
  | nil => exact h
  | cons a as ih => exact ih (h.step a)

theorem study_eq_accept {r : Study α} (h : Study.ofText s.entry s.point = .ok r) :
    s.study = s.accept r := by
  rw [Session.study, h]

@[simp] theorem study_point (s : Session α) : s.study.point = s.point := by
  unfold Session.study
  split <;> rfl

@[simp] theorem study_window (s : Session α) : s.study.window = s.window := by
  unfold Session.study
  split <;> rfl

/-! ## the point and the window -/

/-- what an action does to the point and the window: it leaves both, puts both back to the start, or
sets one of them -/
theorem step_cases (s : Session α) (a : Action α) :
    ((s.step a).point = s.point ∧ (s.step a).window = s.window)
    ∨ ((s.step a).point = initialPoint ∧ (s.step a).window = .initial)
    ∨ (∃ v, (s.step a).point = (s.setPoint v).point ∧ (s.step a).window = s.window)
    ∨ ∃ v w, (s.step a).point = s.point ∧ (s.step a).window = .window v w := by
  cases a with
  | press b =>
    cases b with
    | reset => exact .inr (.inl ⟨rfl, rfl⟩)
    | study => exact .inl ⟨s.study_point, s.study_window⟩
    | _ => exact .inl ⟨rfl, rfl⟩
  | enter =>
    have h : s.step .enter = if s.focused then s.study else s := rfl
    rw [h]
    split
    · exact .inl ⟨s.study_point, s.study_window⟩
    · exact .inl ⟨rfl, rfl⟩
  | typePoint v =>
    have h : s.step (.typePoint v)
        = if (s.setPoint v).curves.isSome then (s.setPoint v).study else s.setPoint v := rfl
    refine .inr (.inr (.inl ⟨v, ?_⟩))
    rw [h]
    split
    · exact ⟨study_point _, study_window _⟩
    · exact ⟨rfl, rfl⟩
  | typeLow v => exact .inr (.inr (.inr ⟨v, s.window.hi, rfl, rfl⟩))
  | typeHigh v => exact .inr (.inr (.inr ⟨s.window.lo, v, rfl, rfl⟩))
  | _ => exact .inl ⟨rfl, rfl⟩

/-- what holds of the point at the start and of every number held within the bound holds of the
point after any actions -/
theorem run_point {P : α → Prop} (h0 : P initialPoint)
    (hv : ∀ v, Scalar.isFinite v → P (Span.clip v)) (hs : P s.point) (as : List (Action α)) :
    P (s.run as).point := by
  induction as generalizing s with
  | nil => exact hs
  | cons a as ih =>
    refine ih ?_
    obtain ⟨h, -⟩ | ⟨h, -⟩ | ⟨v, h, -⟩ | ⟨v, w, h, -⟩ := s.step_cases a <;> rw [h]
    · exact hs
    · exact h0
    · show P (if Scalar.isFinite v then Span.clip v else initialPoint)
      split
      · rename_i hf
        exact hv v hf
      · exact h0
    · exact hs

/-- what holds of the window at the start and of the window between any two numbers holds of the
window after any actions -/
theorem run_window {P : Span α → Prop} (h0 : P .initial) (hw : ∀ v w, P (.window v w))
    (hs : P s.window) (as : List (Action α)) : P (s.run as).window := by
  induction as generalizing s with
  | nil => exact hs
  | cons a as ih =>
    refine ih ?_
    obtain ⟨-, h⟩ | ⟨-, h⟩ | ⟨v, -, h⟩ | ⟨v, w, -, h⟩ := s.step_cases a <;> rw [h]
    · exact hs
    · exact h0
    · exact hs
    · exact hw v w

end

/-! ## double precision -/

/-- the point and the window are within their bounds -/
structure Bounded (s : Session Float) : Prop where
  point : Double.Held s.point
  window : s.window.Proper

namespace Bounded
variable {s : Session Float}

theorem held_initialPoint : Double.Held initialPoint :=
  Double.held_of_le (by decide +kernel) (by decide +kernel) (by decide +kernel)

theorem initial : Bounded initial := ⟨held_initialPoint, Double.proper_initial⟩

theorem run (h : Bounded s) (as : List (Action Float)) : Bounded (s.run as) where
  point := run_point held_initialPoint (fun _ => Double.held_clip) h.point as
  window := run_window Double.proper_initial Double.proper_window h.window as

end Bounded

/-- what is shown is not stale, and the point and the window are within their bounds -/
structure Consistent (s : Session Float) : Prop extends Shown s where
  point_finite : Scalar.isFinite s.point
  point_le : Number.abs s.point ≤ Span.bound
  window : s.window.Proper

/-- After any actions of a user on a session at its start, what is shown belongs to the curves and
to the current point, and the point and the window are within their bounds. -/
theorem consistent_run (as : List (Action Float)) : Consistent (initial.run as) := by
  have hs : Shown (initial.run as) := shown_initial.run as
  have hb : Bounded (initial.run as) := Bounded.initial.run as
  exact { hs with
    point_finite := hb.point.isFinite
    point_le := hb.point.abs_le
    window := hb.window }

end Session

end CurveStudy
