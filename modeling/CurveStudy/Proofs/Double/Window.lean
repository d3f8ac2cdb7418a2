import Mathlib.Tactic.Ring
import CurveStudy.Plot.Span
import CurveStudy.Proofs.Double.Steps

/-!
# Points and windows in double precision

A number that is held within the bound is finite and at most as far from zero as the bound.  The
window between any two numbers has finite bounds, the low one below the high one: near the bound,
one unit in the last place is far less than the smallest width, so that a window that is made wider
does get wider.

* `exists_hasSteps_clip`, `abs_clip_le`   numbers held within the bound;
* `lt_add_minWidth`   a window of the smallest width;
* `window_cases`      what a window can be;
* `proper_window`     the window between two numbers.
-/

namespace CurveStudy

/-- both bounds are finite, and the low one is below the high one -/
structure Span.Proper (w : Span Float) : Prop where
  lo_finite : Scalar.isFinite w.lo
  hi_finite : Scalar.isFinite w.hi
  lt : w.lo < w.hi

namespace Double
open Float.Model Float.Model.UnpackedFloat
open CurveStudy.Span (bound minWidth clip)

/-- one unit in the last place of a number near the bound is `2 ^ place` steps or less -/
def place : Nat := 1042

/-- the steps of the bound -/
def boundSteps : Nat := magnitude 0x1E848000000000 (-33)

/-- the steps of the smallest width -/
def widthSteps : Nat := magnitude 0x10624DD2F1A9FC (-62)

theorem hasSteps_bound : HasSteps bound boundSteps := by
  have h : (bound : Float).toModel.toBits = 0x412E848000000000 := by decide +kernel
  exact .of_toBits (by decide) h rfl

theorem hasSteps_minWidth : HasSteps minWidth widthSteps := by
  have h : (minWidth : Float).toModel.toBits = 0x3F50624DD2F1A9FC := by decide +kernel
  exact .of_toBits (by decide) h rfl

theorem magnitude_lt {m i j : Nat} {e : Int} (hm : m < 2 ^ 53)
    (h : 53 + (e + 1074).toNat ≤ i + j) : magnitude m e < 2 ^ i * 2 ^ j := by
  have hlt : magnitude m e < 2 ^ 53 * 2 ^ (e + 1074).toNat :=
    Nat.mul_lt_mul_of_pos_right hm (Nat.two_pow_pos _)
  rw [← Nat.pow_add] at hlt ⊢
  exact Nat.lt_of_lt_of_le hlt (Nat.pow_le_pow_right (by decide) h)

theorem le_magnitude {m i j : Nat} {e : Int} (hm : 2 ^ 52 ≤ m)
    (h : i + j ≤ 52 + (e + 1074).toNat) : 2 ^ i * 2 ^ j ≤ magnitude m e := by
  have hle : 2 ^ 52 * 2 ^ (e + 1074).toNat ≤ magnitude m e := Nat.mul_le_mul_right _ hm
  rw [← Nat.pow_add] at hle ⊢
  exact Nat.le_trans (Nat.pow_le_pow_right (by decide) h) hle

theorem boundSteps_lt : boundSteps < 2 ^ 52 * 2 ^ place := magnitude_lt (by decide) (by decide)

theorem widthSteps_lt : widthSteps < 2 ^ 52 * 2 ^ place := magnitude_lt (by decide) (by decide)

theorem le_widthSteps : 2 ^ 1 * 2 ^ place ≤ widthSteps := le_magnitude (by decide) (by decide)

/-! ## numbers held within the bound -/

/-- the number is finite and within the bound -/
def Held (v : Float) : Prop := ∃ n : Int, HasSteps v n ∧ n.natAbs ≤ boundSteps

theorem Held.isFinite {v : Float} (h : Held v) : Scalar.isFinite v := by
  obtain ⟨n, hn, -⟩ := h
  exact hn.isFinite

theorem held_of_le {v : Float} (h : Scalar.isFinite v) (h1 : -bound ≤ v) (h2 : v ≤ bound) :
    Held v := by
  obtain ⟨n, hn⟩ := exists_hasSteps h
  rw [hasSteps_bound.neg.le_iff hn] at h1
  rw [hn.le_iff hasSteps_bound] at h2
  exact ⟨n, hn, by omega⟩

theorem held_clip {v : Float} (h : Scalar.isFinite v) : Held (clip v) := by
  obtain ⟨n, hn⟩ := exists_hasSteps h
  have hlow : v < -bound ↔ n < -boundSteps := hn.lt_iff hasSteps_bound.neg
  have hhigh : (bound : Float) < v ↔ boundSteps < n := hasSteps_bound.lt_iff hn
  rw [clip, Number.clamp]
  split
  · exact ⟨_, hasSteps_bound.neg, by omega⟩
  · rename_i h1
    split
    · exact ⟨_, hasSteps_bound, by omega⟩
    · rename_i h2
      rw [hlow] at h1
      rw [hhigh] at h2
      exact ⟨n, hn, by omega⟩

theorem Held.abs_le {v : Float} (h : Held v) : Number.abs v ≤ bound := by
  obtain ⟨n, hn, hle⟩ := h
  exact (hn.abs.le_iff hasSteps_bound).2 (by omega)

/-! ## windows -/

/-- from a number within the bound, the smallest width leads to a higher one -/
theorem lt_add_minWidth {v : Float} (h : Held v) :
    Scalar.isFinite (v + minWidth) ∧ v < v + minWidth := by
  obtain ⟨n, hn, hle⟩ := h
  have hb := boundSteps_lt
  have hw := le_widthSteps
  have hw' := widthSteps_lt
  have hu : 0 < 2 ^ place := Nat.two_pow_pos place
  have hsum : (n + widthSteps).natAbs < 2 ^ (place + 53) := by
    rw [Nat.pow_add]
    omega
  obtain ⟨m, hm, herr⟩ := hn.add hasSteps_minWidth (by decide) hsum
  exact ⟨hm.isFinite, (hn.lt_iff hm).2 (by omega)⟩

/-- two numbers in order, one of them not higher than the other, are at different places if their
difference is not below the smallest width -/
theorem lt_of_not_sub_lt {v w : Float} (hv : Held v) (hw : Held w) (hle : v ≤ w)
    (h : ¬w - v < minWidth) : v < w := by
  obtain ⟨a, ha, -⟩ := hv
  obtain ⟨b, hb, -⟩ := hw
  rw [ha.le_iff hb] at hle
  rw [ha.lt_iff hb]
  by_contra hba
  obtain rfl : a = b := by omega
  obtain ⟨n, hn, herr⟩ := hb.sub ha (k := 0) (by decide) (by simp)
  have hu : 0 < 2 ^ place := Nat.two_pow_pos place
  have hw := le_widthSteps
  exact h ((hn.lt_iff hasSteps_minWidth).2 (by omega))

theorem proper_widened {v w : Float} (hv : Held v) (hw : Held w) (hle : v ≤ w) :
    (Span.widened v w).Proper := by
  rw [Span.widened]
  split
  · obtain ⟨hf, hlt⟩ := lt_add_minWidth hv
    exact ⟨hv.isFinite, hf, hlt⟩
  · rename_i h
    exact ⟨hv.isFinite, hw.isFinite, lt_of_not_sub_lt hv hw hle h⟩

theorem proper_initial : (Span.initial : Span Float).Proper :=
  ⟨by decide +kernel, by decide +kernel, by decide +kernel⟩

theorem Held.le_total {v w : Float} (hv : Held v) (hw : Held w) : v ≤ w ∨ w ≤ v := by
  obtain ⟨a, ha, -⟩ := hv
  obtain ⟨b, hb, -⟩ := hw
  rw [ha.le_iff hb, hb.le_iff ha]
  omega

/-- a window is the first one, or made from two numbers in order that are held within the bound -/
theorem window_cases (a b : Float) : Span.window a b = .initial
    ∨ ∃ v w : Float, Held v ∧ Held w ∧ v ≤ w ∧ Span.window a b = Span.widened v w := by
  rw [Span.window]
  split
  · rename_i h
    obtain ⟨ha, hb⟩ := Bool.and_eq_true_iff.1 h
    have ha := held_clip ha
    have hb := held_clip hb
    split
    · rename_i hle
      exact .inr ⟨clip a, clip b, ha, hb, hle, rfl⟩
    · rename_i hle
      exact .inr ⟨clip b, clip a, hb, ha, (ha.le_total hb).resolve_left hle, rfl⟩
  · exact .inl rfl

/-- the window between two numbers, whatever they are -/
theorem proper_window (a b : Float) : (Span.window a b).Proper := by
  obtain h | ⟨v, w, hv, hw, hle, h⟩ := window_cases a b
  · rw [h]
    exact proper_initial
  · rw [h]
    exact proper_widened hv hw hle

end Double

end CurveStudy
