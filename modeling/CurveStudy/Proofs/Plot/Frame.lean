import CurveStudy.Proofs.Plot.Cutting
import CurveStudy.Proofs.Plot.Heights
import CurveStudy.Proofs.Scan
import CurveStudy.Proofs.Session
import CurveStudy.Session.Screen

/-!
# All that is drawn lies in the frame

The window of a session lies between two finite numbers, and so does the vertical span of its
curves, whatever the values of the function and its derivative: some, or all, may not be finite.
Both spans have a width to divide by.  The samples go from one end of the window to the other, a
piece is a part of them with heights around which the vertical span was made, and the point of study
and the axes are drawn only where they lie in both spans.

* `Framed`, `Inner`     a place in the frame, and one that is not at its edge;
* `Between.framed_locate`, `Between.inner_locate`   places in a span;
* `Curves.inside_of_mem_drawn`   a piece that is drawn;
* `Curves.framed_picture`   the picture of two curves;
* `Session.framed_run`  what a session shows after any actions.
-/

namespace CurveStudy
open Extended

section
variable {α : Type} [Number α]

/-- a finite number from zero to one -/
def Framed (v : α) : Prop := Scalar.isFinite v ∧ 0 ≤ v ∧ v ≤ 1

/-- a finite number between zero and one -/
def Inner (v : α) : Prop := Scalar.isFinite v ∧ 0 < v ∧ v < 1

/-- a piece of a curve is in the frame and goes from left to right -/
structure Inside (piece : List (α × α)) : Prop where
  across : ∀ p ∈ piece, Framed p.1
  upright : ∀ p ∈ piece, Inner p.2
  rightwards : piece.Pairwise fun p q => p.1 < q.1

/-- all that a picture shows is in the frame -/
structure Picture.Framed (p : Picture α) : Prop where
  function : ∀ piece ∈ p.function, Inside piece
  derivative : ∀ piece ∈ p.derivative, Inside piece
  point : ∀ q ∈ p.point, CurveStudy.Framed q.1 ∧ CurveStudy.Framed q.2
  axisX : ∀ v ∈ p.axisX, CurveStudy.Framed v
  axisY : ∀ v ∈ p.axisY, CurveStudy.Framed v

/-- what a session shows is in the frame, and the spans and the samples are fit for it -/
structure Session.Framed (s : Session α) : Prop where
  window : s.window.Scaled
  sampled : s.window.Sampled
  heights : ∀ c ∈ s.curves, (c.heights s.window).Scaled
  picture : ∀ p ∈ s.screen.picture, p.Framed

end

variable {α K : Type} [Field K] [LinearOrder K] [IsStrictOrderedRing K] [Extended α K]

/-! ## places in a span -/

namespace Span.Between
variable {w : Span α} {p q : K}

theorem framed_locate (h : w.Between p q) {x : K} (hp : p ≤ x) (hq : x ≤ q) :
    Framed (w.locate (of x)) := by
  have hlo := h.locate_le hp
  have hhi := h.locate_le hq
  rw [h.locate_of_lo] at hlo
  rw [h.locate_of_hi] at hhi
  exact ⟨h.isFinite_locate x, hlo, hhi⟩

theorem inner_locate (h : w.Between p q) {x : K} (hp : p < x) (hq : x < q) :
    Inner (w.locate (of x)) := by
  have hlo := h.locate_lt hp
  have hhi := h.locate_lt hq
  rw [h.locate_of_lo] at hlo
  rw [h.locate_of_hi] at hhi
  exact ⟨h.isFinite_locate x, hlo, hhi⟩

/-- a finite number that is found in the span has its place in the frame -/
theorem framed_of_contains (h : w.Between p q) {x : K} (hx : w.contains (of x)) :
    Framed (w.locate (of x)) := by
  obtain ⟨hp, hq⟩ := (h.contains_iff x).1 hx
  exact h.framed_locate hp hq

/-- the same for zero, where an axis is -/
theorem framed_axis (h : w.Between p q) :
    ∀ v ∈ (if w.contains 0 then some (w.locate 0) else none), Framed v := by
  intro v hv
  rw [← of_zero] at hv
  split at hv
  · rename_i h0
    cases hv
    exact h.framed_of_contains h0
  · cases hv

theorem pairwise_locate (h : w.Between p q) :
    w.abscissae.Pairwise fun x y => w.locate x < w.locate y := by
  refine List.pairwise_map.2 (List.pairwise_lt_range.imp fun {i j} hij => ?_)
  rw [h.abscissa_eq, h.abscissa_eq]
  exact h.locate_lt (strictMono_sampleAt h.lt hij)

end Span.Between

/-! ## the picture -/

namespace Curves
variable {w h : Span α} {p q r s : K}

/-- a piece of a curve, if all of its heights that can be drawn lie in the vertical span -/
theorem inside_of_mem_drawn (hw : w.Between p q) (hh : h.Between r s) {e : Expr α}
    (he : ∀ y ∈ (samples e w).map Prod.snd, Plot.drawable y → ∃ t, y = of t ∧ r < t ∧ t < s)
    {piece : List (α × α)} (hp : piece ∈ drawn w h e) : Inside piece := by
  obtain ⟨run, hrun, rfl⟩ := List.mem_map.1 hp
  obtain ⟨hi, hd⟩ := Plot.infix_of_mem_pieces hrun
  refine ⟨?_, ?_, ?_⟩
  · intro p' hp'
    obtain ⟨_, hs, rfl⟩ := List.mem_map.1 hp'
    obtain ⟨x, hx, rfl⟩ := List.mem_map.1 (hi.subset hs)
    obtain ⟨t, rfl, hpt, htq⟩ := hw.exists_of_mem_abscissae hx
    exact hw.framed_locate hpt htq
  · intro p' hp'
    obtain ⟨v, hs, rfl⟩ := List.mem_map.1 hp'
    obtain ⟨t, ht, hrt, hts⟩ := he v.2 (List.mem_map_of_mem (hi.subset hs)) (hd v hs)
    rw [place, ht]
    exact hh.inner_locate hrt hts
  -- a piece keeps the order of the samples
  · have hsorted : (samples e w).Pairwise fun u v => w.locate u.1 < w.locate v.1 :=
      List.pairwise_map.2 hw.pairwise_locate
    exact List.pairwise_map.2 (hsorted.sublist hi.sublist)

theorem framed_picture (c : Curves α) (hw : w.Between p q) {x : α} (hx : Scalar.isFinite x) :
    (c.heights w).Scaled ∧ (c.picture w x).Framed := by
  -- the vertical span was made around the heights of both curves together
  obtain ⟨r, s, hh, hy⟩ := Plot.exists_between_heights
    ((samples c.function w ++ samples c.derivative w).map Prod.snd)
  rw [List.map_append] at hy
  refine ⟨hh.scaled, ?_, ?_, ?_, hh.framed_axis, hw.framed_axis⟩
  · exact fun piece => inside_of_mem_drawn hw hh fun y h => hy y (List.mem_append_left _ h)
  · exact fun piece => inside_of_mem_drawn hw hh fun y h => hy y (List.mem_append_right _ h)
  · intro v hv
    dsimp only [picture] at hv
    split at hv
    · rename_i hc
      cases hv
      obtain ⟨hc, hcy⟩ := Bool.and_eq_true_iff.1 hc
      obtain ⟨hfy, hcx⟩ := Bool.and_eq_true_iff.1 hc
      obtain ⟨a, rfl⟩ := isFinite_iff.1 hx
      obtain ⟨b, hb⟩ := isFinite_iff.1 hfy
      rw [hb] at hcy ⊢
      exact ⟨hw.framed_of_contains hcx, hh.framed_of_contains hcy⟩
    · cases hv

end Curves

/-! ## a session -/

namespace Session

theorem isFinite_initialPoint : Scalar.isFinite (initialPoint : α) := by
  rw [initialPoint, ofNat_eq]
  exact isFinite_of _

/-- After any actions of a user on a session at its start, and whatever the values of the function
and of its derivative, the window and the vertical span have a width to divide by, the samples go in
order from one end of the window to the other, and all that is drawn lies in the frame. -/
theorem framed_run (as : List (Action α)) : (initial.run as).Framed := by
  have hx : Scalar.isFinite (initial.run as).point := by
    refine run_point (P := fun v => Scalar.isFinite v) isFinite_initialPoint (fun v hv => ?_)
      isFinite_initialPoint as
    obtain ⟨q, hq⟩ := exists_clip hv
    rw [hq]
    exact isFinite_of q
  obtain ⟨p, q, hw⟩ : ∃ p q : K, (initial.run as).window.Between p q :=
    run_window (P := fun w => ∃ p q : K, w.Between p q) ⟨-5, 5, between_initial⟩
      exists_between_window ⟨-5, 5, between_initial⟩ as
  refine ⟨hw.scaled, hw.sampled, fun c _ => (c.framed_picture hw hx).1, fun v hv => ?_⟩
  obtain ⟨c, -, rfl⟩ := Option.map_eq_some_iff.1 hv
  exact (c.framed_picture hw hx).2

/-- `x/x` is studied, and shown from zero on, where it is undefined -/
def quotientAtZero : List (Action Partial) := [.edit ['x', '/', 'x'], .press .study, .typeLow 0]

theorem scan_quotient : Token.scan ['x', '/', 'x']
    = .ok [(⟨.name ['x'], 0⟩ : Token Partial), ⟨.slash, 1⟩, ⟨.name ['x'], 2⟩] := by
  have h1 : Token.front 'x' ['/', 'x']
      = (.token (.name ['x']) ['x'] ['/', 'x'] : Token.Front Partial) := rfl
  have hs : Token.front '/' ['x'] = (.token .slash ['/'] ['x'] : Token.Front Partial) :=
    Token.front_char rfl rfl _
  have h2 : Token.front 'x' [] = (.token (.name ['x']) ['x'] [] : Token.Front Partial) := rfl
  simp [Token.scan, h1, hs, h2, Except.map, Char.utf8Size]

theorem ofText_quotient : ∃ r : Study Partial,
    Study.ofText ['x', '/', 'x'] initialPoint = .ok r ∧ r.function = .quotient .var .var 1 := by
  have ht : Text.trim ['x', '/', 'x'] = ['x', '/', 'x'] := by decide
  rw [Study.ofText, ht, scan_quotient]
  exact ⟨_, rfl, rfl⟩

/-- the first sample of `x/x` is not finite, and what is drawn of the others lies in the frame -/
theorem framed_run_quotientAtZero :
    IsStrictOrderedRing Rat
    ∧ (∃ c ∈ (initial.run quotientAtZero).curves,
      ∃ x ∈ (initial.run quotientAtZero).window.abscissae, ¬ Scalar.isFinite (c.function.eval x))
    ∧ (initial.run quotientAtZero).Framed := by
  refine ⟨inferInstance, ?_, framed_run quotientAtZero⟩
  obtain ⟨r, hr, hf⟩ := ofText_quotient
  let s : Session Partial := initial.step (.edit ['x', '/', 'x'])
  have hs : initial.run quotientAtZero
      = ((s.accept r).setWindow 0 (s.accept r).window.hi).unfocus := by
    show (s.study.setWindow 0 s.study.window.hi).unfocus = _
    rw [study_eq_accept hr]
  have h0 : 0 < Span.sampleCount := by decide
  have hx : ¬ Scalar.isFinite ((Expr.quotient .var .var (1 : Partial)).eval
      ((Span.window 0 (Number.ofNat 5)).abscissa 0)) := by decide +kernel
  rw [hs]
  refine ⟨⟨r.function, r.derivative⟩, rfl, (Span.window 0 (Number.ofNat 5)).abscissa 0, ?_, ?_⟩
  · exact List.mem_map_of_mem (List.mem_range.2 h0)
  · rw [hf]
    exact hx

end Session

end CurveStudy
