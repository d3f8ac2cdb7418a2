import Mathlib.Data.Set.List
import CurveStudy.Proofs.Double.Steps
import CurveStudy.Proofs.Plot.Span
import CurveStudy.Plot.Pieces

/-!
# The span of the heights of a curve

The vertical span lies around all heights that can be drawn, with a margin on either side, and has a
width also if there are none, or only one.

The heights can be gone through with the lowest and the highest so far at hand.  In double precision
there are numbers to start from, the two infinities: each height that can be drawn is lower than the
one and higher than the other, and if there is none the lowest is not finite at the end.

* `heightsFrom`             the span, from the lowest and the highest of the heights one by one;
* `heights_eq_heightsFrom`, `heights_eq_of_infinities`   it is the span of the heights;
* `lower_of`, `higher_of`   the smaller and the larger of two finite numbers;
* `exists_between_around`   the span around two heights;
* `exists_between_heights`  the span around the heights.
-/

namespace CurveStudy.Plot
open Extended

/-! ## the lowest and the highest, one by one -/

section
variable {α : Type} [Number α]

/-- the lowest and the highest, with one height more -/
def widen (s : α × α) (y : α) : α × α := (lower s.1 y, higher s.2 y)

/-- the span around the lowest and the highest of the heights that can be drawn and of two numbers
to start from -/
def heightsFrom (s : α × α) (ys : List α) : Span α :=
  let t := (ys.filter drawable).foldl widen s
  if Scalar.isFinite t.1 then around t.1 t.2 else ⟨-1, 1⟩

theorem foldl_widen (s : α × α) (ys : List α) :
    ys.foldl widen s = (ys.foldl lower s.1, ys.foldl higher s.2) := by
  induction ys generalizing s with
  | nil => rfl
  | cons y ys ih => simp only [List.foldl_cons, ih, widen]

theorem lower_eq_or (a b : α) : lower a b = a ∨ lower a b = b := by
  rw [lower]
  split
  · exact .inr rfl
  · exact .inl rfl

theorem foldl_lower_mem (y : α) (ys : List α) : ys.foldl lower y ∈ y :: ys := by
  induction ys generalizing y with
  | nil => exact List.mem_singleton_self y
  | cons z zs ih =>
    rw [List.foldl_cons]
    rcases List.mem_cons.1 (ih (lower y z)) with h | h
    · rw [h]
      rcases lower_eq_or y z with hl | hl <;> simp [hl]
    · simp [h]

/-- the start does not matter if all heights that can be drawn lie between the two numbers -/
theorem heights_eq_heightsFrom {top bottom : α} (htop : ¬ Scalar.isFinite top)
    (h : ∀ y : α, Scalar.isFinite y → y < top ∧ bottom < y) (ys : List α) :
    heights ys = heightsFrom (top, bottom) ys := by
  have hf : ∀ y ∈ ys.filter drawable, Scalar.isFinite y := fun y hy =>
    (Bool.and_eq_true_iff.1 (List.mem_filter.1 hy).2).1
  rw [heights, heightsFrom]
  cases hys : ys.filter drawable with
  | nil => exact (if_neg htop).symm
  | cons y zs =>
    rw [hys] at hf
    -- the first height takes the place of both numbers
    obtain ⟨hlow, hhigh⟩ := h y (hf y (List.mem_cons_self ..))
    have hfirst : widen (top, bottom) y = (y, y) := by simp [widen, lower, higher, hlow, hhigh]
    have hlast : Scalar.isFinite (zs.foldl lower y) := hf _ (foldl_lower_mem y zs)
    simp [foldl_widen, hfirst, hlast]

end

/-- the span of heights in double precision, from the two infinities -/
theorem heights_eq_of_infinities (ys : List Float) :
    heights ys = heightsFrom (1.0 / 0.0, -1.0 / 0.0) ys :=
  heights_eq_heightsFrom (by decide +kernel)
    (fun _ hy => ⟨Double.lt_infinity hy, Double.neg_infinity_lt hy⟩) ys

/-! ## the heights lie in the span -/

variable {α K : Type} [Field K] [LinearOrder K] [IsStrictOrderedRing K] [Extended α K]

@[simp] theorem lower_of (p q : K) : lower (of p : α) (of q) = of (min p q) := by
  rw [lower]
  by_cases h : q < p
  · rw [if_pos (of_lt_of.2 h), min_eq_right h.le]
  · rw [if_neg fun h' => h (of_lt_of.1 h'), min_eq_left (not_lt.1 h)]

@[simp] theorem higher_of (p q : K) : higher (of p : α) (of q) = of (max p q) := by
  rw [higher]
  by_cases h : p < q
  · rw [if_pos (of_lt_of.2 h), max_eq_right h.le]
  · rw [if_neg fun h' => h (of_lt_of.1 h'), max_eq_left (not_lt.1 h)]

theorem foldl_lower_of (p : K) (qs : List K) :
    (qs.map of).foldl lower (of p : α) = of (qs.foldl min p) := by
  rw [List.foldl_map]
  exact List.foldl_hom of fun r q => lower_of r q

theorem foldl_higher_of (p : K) (qs : List K) :
    (qs.map of).foldl higher (of p : α) = of (qs.foldl max p) := by
  rw [List.foldl_map]
  exact List.foldl_hom of fun r q => higher_of r q

omit [Field K] [IsStrictOrderedRing K] in
theorem foldl_min_le {p r : K} {qs : List K} (hr : r ∈ p :: qs) : qs.foldl min p ≤ r := by
  have h : (p :: qs).min? = some (qs.foldl min p) := List.min?_cons'
  exact (List.min?_eq_some_iff.1 h).2 r hr

omit [Field K] [IsStrictOrderedRing K] in
theorem le_foldl_max {p r : K} {qs : List K} (hr : r ∈ p :: qs) : r ≤ qs.foldl max p := by
  have h : (p :: qs).max? = some (qs.foldl max p) := List.max?_cons'
  exact (List.max?_eq_some_iff.1 h).2 r hr

/-- two heights in order lie in the span around them, and not at its ends -/
theorem exists_between_around {p q : K} (h : p ≤ q) :
    ∃ r s : K, (around (of p : α) (of q)).Between r s ∧ r < p ∧ q < s := by
  rw [around, sub_of, ofDecimal_eq, ofDecimal_eq, ← of_one]
  split
  · rw [sub_of, add_of]
    exact ⟨_, _, ⟨rfl, rfl, by linarith⟩, by linarith, by linarith⟩
  · rename_i hw
    rw [of_lt_of, not_lt] at hw
    dsimp only
    -- the two heights differ here, so that the margin is not zero
    rw [mul_of, sub_of, add_of]
    have hm : (0 : K) < (5 : Nat) * 10 ^ (-2 : Int) * (q - p) := by
      refine mul_pos (by positivity) (lt_of_lt_of_le ?_ hw)
      positivity
    exact ⟨_, _, ⟨rfl, rfl, by linarith⟩, by linarith, by linarith⟩

/-- whatever the heights, the span has a width, and those that can be drawn lie in it and not at its
ends -/
theorem exists_between_heights (ys : List α) :
    ∃ p q : K, (heights ys).Between p q ∧
      ∀ y ∈ ys, drawable y → ∃ r, y = of r ∧ p < r ∧ r < q := by
  -- what can be drawn is finite, so these heights are numbers `rs` of the field
  have hf : ∀ y ∈ ys.filter drawable, y ∈ Set.range (of : K → α) := by
    intro y hy
    have hd := (List.mem_filter.1 hy).2
    obtain ⟨r, rfl⟩ := isFinite_iff.1 (Bool.and_eq_true_iff.1 hd).1
    exact ⟨r, rfl⟩
  obtain ⟨rs, hrs⟩ : ys.filter drawable ∈ Set.range (List.map (of : K → α)) := by
    rw [Set.range_list_map]
    exact hf
  have hmem : ∀ y ∈ ys, drawable y → ∃ r ∈ rs, of r = y := by
    intro y hy hd
    have h : y ∈ rs.map of := hrs ▸ List.mem_filter.2 ⟨hy, hd⟩
    exact List.mem_map.1 h
  rw [heights, ← hrs]
  cases rs with
  | nil =>
    refine ⟨-1, 1, ⟨?_, ?_, by norm_num⟩, fun y hy hd => ?_⟩
    · show (-1 : α) = _
      rw [← of_one, neg_of]
    · exact of_one.symm
    · obtain ⟨r, hr, -⟩ := hmem y hy hd
      cases hr
  | cons r rs =>
    have hle : rs.foldl min r ≤ rs.foldl max r :=
      (foldl_min_le (List.mem_cons_self ..)).trans (le_foldl_max (List.mem_cons_self ..))
    obtain ⟨p, q, hb, hp, hq⟩ := exists_between_around (α := α) hle
    refine ⟨p, q, ?_, fun y hy hd => ?_⟩
    · rw [List.map_cons]
      dsimp only
      rw [foldl_lower_of, foldl_higher_of]
      exact hb
    · obtain ⟨t, ht, rfl⟩ := hmem y hy hd
      exact ⟨t, rfl, hp.trans_le (foldl_min_le ht), (le_foldl_max ht).trans_lt hq⟩

end CurveStudy.Plot
