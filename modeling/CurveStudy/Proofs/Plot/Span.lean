import Mathlib.Tactic.Linarith
import Mathlib.Tactic.NormNum
import Mathlib.Tactic.Positivity
import CurveStudy.Plot.Span
import CurveStudy.Proofs.Extended

/-!
# Spans between finite numbers

The window between any two numbers lies between two finite ones in order, so that it has a width to
divide by.  The place of a number in a span grows with the number, from zero at the low end to one
at the high end, and the samples of a window go from one end to the other.

* `Span.Between`           a span between two finite numbers in order;
* `between_initial`, `exists_between_window`   the windows that there are;
* `Between.contains_iff`, `Between.locate_of`   the finite numbers in a span, and their places;
* `Between.locate_lt`, `Between.locate_le`   places are in the order of the numbers;
* `Between.scaled`         the ends of a span have the places zero and one;
* `Between.sampled`        the samples of a window.
-/

namespace CurveStudy
open Extended CurveStudy.Span

section
variable {α : Type} [Number α]

/-- the span has a width to divide by, and its ends have the places zero and one -/
structure Span.Scaled (w : Span α) : Prop where
  finite : Scalar.isFinite (w.hi - w.lo)
  pos : 0 < w.hi - w.lo
  locate_lo : w.locate w.lo = 0
  locate_hi : w.locate w.hi = 1

/-- there are as many samples as there should be, finite and in order, from one end of the window
to the other -/
structure Span.Sampled (w : Span α) : Prop where
  length : w.abscissae.length = sampleCount
  finite : ∀ x ∈ w.abscissae, Scalar.isFinite x
  sorted : w.abscissae.Pairwise (· < ·)
  head : w.abscissae.head? = some w.lo
  last : w.abscissae.getLast? = some w.hi

end

variable {α K : Type} [Field K] [LinearOrder K] [IsStrictOrderedRing K] [Extended α K]

/-- the ends of the span are the finite numbers `p` and `q`, the first one the smaller -/
structure Span.Between (w : Span α) (p q : K) : Prop where
  lo : w.lo = of p
  hi : w.hi = of q
  lt : p < q

/-! ## windows -/

theorem exists_clip {v : α} (hv : Scalar.isFinite v) : ∃ q : K, clip v = of q := by
  obtain ⟨p, rfl⟩ := isFinite_iff.1 hv
  rw [clip, bound, ofDecimal_eq, neg_of]
  exact exists_clamp _ _ p

theorem exists_between_widened (p q : K) :
    ∃ r, (widened (of p : α) (of q)).Between p r := by
  have hpos : (0 : K) < (1 : Nat) * 10 ^ (-3 : Int) := by positivity
  rw [widened, minWidth, ofDecimal_eq, sub_of, add_of]
  split
  · exact ⟨_, rfl, rfl, lt_add_of_pos_right p hpos⟩
  · rename_i hw
    rw [of_lt_of, not_lt] at hw
    exact ⟨q, rfl, rfl, sub_pos.1 (hpos.trans_le hw)⟩

theorem between_initial : (initial : Span α).Between (-5) 5 where
  lo := by rw [initial, ofNat_eq, neg_of, Nat.cast_ofNat]
  hi := by rw [initial, ofNat_eq, Nat.cast_ofNat]
  lt := by norm_num

/-- whatever the two numbers, the window between them has a width -/
theorem exists_between_window (a b : α) : ∃ p q : K, (window a b).Between p q := by
  unfold window
  split
  · rename_i h
    obtain ⟨ha, hb⟩ := Bool.and_eq_true_iff.1 h
    obtain ⟨p, hp⟩ := exists_clip ha
    obtain ⟨q, hq⟩ := exists_clip hb
    rw [hp, hq]
    split
    · exact ⟨p, exists_between_widened p q⟩
    · exact ⟨q, exists_between_widened q p⟩
  · exact ⟨-5, 5, between_initial⟩

/-! ## places -/

namespace Span.Between
variable {w : Span α} {p q : K}

theorem hi_sub_lo (h : w.Between p q) : w.hi - w.lo = of (q - p) := by simp [h.hi, h.lo]

theorem contains_iff (h : w.Between p q) (x : K) : w.contains (of x) ↔ p ≤ x ∧ x ≤ q := by
  simp [contains, h.lo, h.hi]

theorem locate_of (h : w.Between p q) (x : K) : w.locate (of x) = of ((x - p) / (q - p)) := by
  rw [locate, h.hi_sub_lo, h.lo, sub_of, div_of _ (sub_pos.2 h.lt).ne']

theorem isFinite_locate (h : w.Between p q) (x : K) : Scalar.isFinite (w.locate (of x)) := by
  simp [h.locate_of]

theorem locate_lt (h : w.Between p q) {x y : K} (hxy : x < y) :
    w.locate (of x) < w.locate (of y) := by
  rw [h.locate_of, h.locate_of, of_lt_of]
  exact div_lt_div_of_pos_right (sub_lt_sub_right hxy p) (sub_pos.2 h.lt)

theorem locate_le (h : w.Between p q) {x y : K} (hxy : x ≤ y) :
    w.locate (of x) ≤ w.locate (of y) := by
  rw [h.locate_of, h.locate_of, of_le_of]
  exact div_le_div_of_nonneg_right (sub_le_sub_right hxy p) (sub_pos.2 h.lt).le

theorem locate_of_lo (h : w.Between p q) : w.locate (of p) = 0 := by
  rw [h.locate_of, sub_self, zero_div, of_zero]

theorem locate_of_hi (h : w.Between p q) : w.locate (of q) = 1 := by
  rw [h.locate_of, div_self (sub_pos.2 h.lt).ne', of_one]

theorem scaled (h : w.Between p q) : w.Scaled where
  finite := by simp [h.hi_sub_lo]
  pos := by
    rw [h.hi_sub_lo, ← of_zero, of_lt_of]
    exact sub_pos.2 h.lt
  locate_lo := by rw [h.lo, h.locate_of_lo]
  locate_hi := by rw [h.hi, h.locate_of_hi]

end Span.Between

/-! ## samples -/

/-- the sample `i` between two numbers -/
def sampleAt (p q : K) (i : Nat) : K := p + (q - p) / (sampleCount - 1 : Nat) * i

theorem cast_sampleCount_ne_zero : ((sampleCount - 1 : Nat) : K) ≠ 0 :=
  Nat.cast_ne_zero.2 (by decide)

omit [LinearOrder K] [IsStrictOrderedRing K] in
@[simp] theorem sampleAt_zero (p q : K) : sampleAt p q 0 = p := by
  rw [sampleAt, Nat.cast_zero, mul_zero, add_zero]

@[simp] theorem sampleAt_last (p q : K) : sampleAt p q (sampleCount - 1) = q := by
  rw [sampleAt, div_mul_cancel₀ _ cast_sampleCount_ne_zero, add_sub_cancel]

theorem strictMono_sampleAt {p q : K} (h : p < q) : StrictMono (sampleAt p q) := by
  have hn : (0 : K) < (sampleCount - 1 : Nat) := Nat.cast_pos.2 (by decide)
  intro i j hij
  have hc : (i : K) < j := Nat.cast_lt.2 hij
  exact add_lt_add_right (mul_lt_mul_of_pos_left hc (div_pos (sub_pos.2 h) hn)) p

namespace Span.Between
variable {w : Span α} {p q : K}

theorem abscissa_eq (h : w.Between p q) (i : Nat) : w.abscissa i = of (sampleAt p q i) := by
  rw [abscissa, h.hi_sub_lo, h.lo, ofNat_eq, ofNat_eq, div_of _ cast_sampleCount_ne_zero, mul_of,
    add_of, sampleAt]

theorem exists_of_mem_abscissae (h : w.Between p q) {x : α} (hx : x ∈ w.abscissae) :
    ∃ r : K, x = of r ∧ p ≤ r ∧ r ≤ q := by
  obtain ⟨i, hi, rfl⟩ := List.mem_map.1 hx
  have hm := (strictMono_sampleAt h.lt).monotone
  have hlo : sampleAt p q 0 ≤ sampleAt p q i := hm (Nat.zero_le i)
  have hhi : sampleAt p q i ≤ sampleAt p q (sampleCount - 1) :=
    hm (Nat.le_sub_one_of_lt (List.mem_range.1 hi))
  rw [sampleAt_zero] at hlo
  rw [sampleAt_last] at hhi
  exact ⟨_, h.abscissa_eq i, hlo, hhi⟩

theorem sampled (h : w.Between p q) : w.Sampled where
  length := w.length_abscissae
  finite x hx := by
    obtain ⟨r, rfl, -⟩ := h.exists_of_mem_abscissae hx
    exact isFinite_of r
  sorted := by
    refine List.pairwise_map.2 (List.pairwise_lt_range.imp fun {i j} hij => ?_)
    rw [h.abscissa_eq, h.abscissa_eq, of_lt_of]
    exact strictMono_sampleAt h.lt hij
  head := by
    rw [abscissae, List.head?_map]
    show some (w.abscissa 0) = _
    rw [h.abscissa_eq, sampleAt_zero, h.lo]
  last := by
    rw [abscissae, List.getLast?_map, List.getLast?_range]
    show some (w.abscissa (sampleCount - 1)) = _
    rw [h.abscissa_eq, sampleAt_last, h.hi]

end Span.Between

end CurveStudy
