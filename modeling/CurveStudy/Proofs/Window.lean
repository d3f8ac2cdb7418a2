import Mathlib.Tactic.Ring
import CurveStudy.Proofs.Double.Window
import CurveStudy.Session.State

/-!
# How far a window reaches

The bounds of a window are held within `Span.bound` before the window is made wide enough, and not
again afterwards.  So the low end of a window stays within the bound, and the high end reaches past
it where the low end is nearer to the bound than the smallest width, by that width at most.

In double precision a sum is rounded.  Between half of the bound and the next power of two, numbers
are whole multiples of one unit, of `2 ^ unitPlace` steps, and the smallest width is no such
multiple: a difference that is not below the smallest width is at least the next multiple, which is
as far as the sum with the smallest width can be rounded up.

* `HasSteps.dvd`          numbers far from zero are whole multiples of a unit;
* `add_minWidth_le_of_not_lt`   where a window is wide enough, the smallest one would have been
                          within the bound too;
* `hi_window_le_bound_iff`, `hi_window_le_top`   which windows stay within the bound, and how far
                          the others reach;
* `Session.window_setWindow`   all that is known of a window that was set.
-/

namespace CurveStudy
open CurveStudy.Span (bound minWidth clip)

namespace Double

/-! ## units -/

theorem Steps.dvd {u : Float.Model.UnpackedFloat} {a : Int} {j : Nat} (h : Steps u a)
    (ha : 2 ^ (j + 52) ≤ a.natAbs) : ((2 ^ j : Nat) : Int) ∣ a := by
  rw [Int.natCast_dvd]
  cases h with
  | zero s => exact absurd ha (Nat.not_le.2 (Nat.two_pow_pos _))
  | @finite s m e hm h =>
    have hmag : (s.apply (magnitude m e)).natAbs = magnitude m e := by
      cases s
      · exact (Int.natAbs_neg _).trans (Int.natAbs_natCast _)
      · exact Int.natAbs_natCast _
    rw [hmag] at ha ⊢
    have hlt : 2 ^ (j + 52) < 2 ^ (53 + (e + 1074).toNat) := by
      rw [Nat.pow_add 2 53]
      exact Nat.lt_of_le_of_lt ha
        (Nat.mul_lt_mul_of_pos_right (lt_two_pow_of_canonical h) (Nat.two_pow_pos _))
    have hj := (Nat.pow_lt_pow_iff_right (by decide)).1 hlt
    exact Dvd.dvd.mul_left (Nat.pow_dvd_pow 2 (by omega)) m

/-- a number that is `2 ^ 52` units or more away from zero is a whole number of units -/
theorem HasSteps.dvd {v : Float} {a : Int} {j : Nat} (h : HasSteps v a)
    (ha : 2 ^ (j + 52) ≤ a.natAbs) : ((2 ^ j : Nat) : Int) ∣ a := Steps.dvd h ha

/-! ## the bound and the smallest width in units -/

/-- one unit in the last place of the smallest width is `2 ^ widthPlace` steps -/
def widthPlace : Nat := 1012

/-- near the bound, one unit in the last place is `2 ^ unitPlace` steps -/
def unitPlace : Nat := 29 + widthPlace

/-- the smallest width in whole units, rounded down -/
def widthUnits : Nat := 8589934

/-- the bound in units -/
def boundUnits : Nat := 8589934592000000

theorem magnitude_eq {e : Int} {k : Nat} (h : (e + 1074).toNat = k) (m : Nat) :
    magnitude m e = m * 2 ^ k := by
  rw [magnitude, h]

theorem two_pow_unitPlace : 2 ^ unitPlace = 2 ^ 29 * 2 ^ widthPlace := by
  rw [unitPlace, Nat.pow_add]

theorem widthSteps_eq : widthSteps = 0x10624DD2F1A9FC * 2 ^ widthPlace :=
  magnitude_eq (by decide) _

theorem boundSteps_eq : boundSteps = 2 ^ unitPlace * boundUnits := by
  rw [boundUnits, Nat.mul_comm]
  exact magnitude_eq (by decide) _

theorem boundSteps_lt_two_pow : boundSteps + widthSteps < 2 ^ (unitPlace + 53) := by
  have hp := Nat.two_pow_pos widthPlace
  simp only [Nat.pow_add, boundSteps_eq, widthSteps_eq, two_pow_unitPlace, boundUnits]
  generalize 2 ^ widthPlace = u at hp ⊢
  omega

theorem two_pow_le_boundSteps :
    2 ^ (unitPlace + 52) + widthSteps + 2 ^ unitPlace ≤ boundSteps := by
  have hp := Nat.two_pow_pos widthPlace
  simp only [Nat.pow_add, boundSteps_eq, widthSteps_eq, two_pow_unitPlace, boundUnits]
  generalize 2 ^ widthPlace = u at hp ⊢
  omega

theorem widthSteps_lt_two_pow : widthSteps + 2 ^ unitPlace < 2 ^ (widthPlace + 53) := by
  have hp := Nat.two_pow_pos widthPlace
  simp only [Nat.pow_add, widthSteps_eq, two_pow_unitPlace]
  generalize 2 ^ widthPlace = u at hp ⊢
  omega

/-- the smallest width is well behind a whole number of units -/
theorem widthUnits_lt : widthUnits * 2 ^ unitPlace + 2 ^ widthPlace < widthSteps := by
  have hp := Nat.two_pow_pos widthPlace
  simp only [widthSteps_eq, two_pow_unitPlace, widthUnits]
  generalize 2 ^ widthPlace = u at hp ⊢
  omega

/-- and before the next one -/
theorem lt_widthUnits : widthSteps < (widthUnits + 1) * 2 ^ unitPlace := by
  have hp := Nat.two_pow_pos widthPlace
  simp only [widthSteps_eq, two_pow_unitPlace, widthUnits]
  generalize 2 ^ widthPlace = u at hp ⊢
  omega

/-! ## the sum with the smallest width -/

theorem exists_add_minWidth {v : Float} {a : Int} (h : HasSteps v a) (ha : a.natAbs ≤ boundSteps) :
    ∃ m : Int, HasSteps (v + minWidth) m ∧ (m - (a + widthSteps)).natAbs ≤ 2 ^ unitPlace := by
  have hb := boundSteps_lt_two_pow
  exact h.add hasSteps_minWidth (by decide) (by omega)

section
variable {v w : Float} {a b m : Int}

/-- near the bound, the sum ends at most with the unit that the exact sum ends in -/
theorem exists_units (ha : HasSteps v a) (hm : HasSteps w m) (hlarge : (boundSteps : Int) < m)
    (herr : (m - (a + widthSteps)).natAbs ≤ 2 ^ unitPlace) :
    ∃ x z : Int, a = (2 ^ unitPlace : Nat) * x ∧ m = (2 ^ unitPlace : Nat) * z
      ∧ z ≤ x + widthUnits + 1 := by
  have hb := two_pow_le_boundSteps
  obtain ⟨x, rfl⟩ := ha.dvd (j := unitPlace) (by omega)
  obtain ⟨z, rfl⟩ := hm.dvd (j := unitPlace) (by omega)
  refine ⟨x, z, rfl, rfl, ?_⟩
  have hw : (widthSteps : Int) < (widthUnits + 1) * (2 ^ unitPlace : Nat) := by
    exact_mod_cast lt_widthUnits
  have hlt : (2 ^ unitPlace : Nat) * z < (2 ^ unitPlace : Nat) * (x + widthUnits + 2) := by
    calc (2 ^ unitPlace : Nat) * z
        < (2 ^ unitPlace : Nat) * x + (widthUnits + 1) * (2 ^ unitPlace : Nat)
            + (2 ^ unitPlace : Nat) := by omega
      _ = (2 ^ unitPlace : Nat) * (x + widthUnits + 2) := by ring
  have := Int.lt_of_mul_lt_mul_left hlt (Int.natCast_nonneg _)
  omega

/-- two numbers in order whose difference is not below the smallest width are so far apart that
the first one with the smallest width stays within the bound -/
theorem add_minWidth_le_of_not_lt (hv : Held v) (hw : Held w) (hle : v ≤ w)
    (h : ¬w - v < minWidth) : v + minWidth ≤ bound := by
  obtain ⟨a, ha, hna⟩ := hv
  obtain ⟨b, hb, hnb⟩ := hw
  rw [ha.le_iff hb] at hle
  obtain ⟨m, hm, herr⟩ := exists_add_minWidth ha hna
  rw [hm.le_iff hasSteps_bound]
  by_contra hlarge
  obtain ⟨x, z, rfl, rfl, hz⟩ := exists_units ha hm (by omega) herr
  have hbound := two_pow_le_boundSteps
  obtain ⟨y, rfl⟩ := hb.dvd (j := unitPlace) (by omega)
  have hwidth := widthSteps_lt_two_pow
  obtain ⟨d, hd, herr'⟩ := hb.sub ha (k := widthPlace) (by decide) (by omega)
  rw [hd.lt_iff hasSteps_minWidth] at h
  -- the difference is more than `widthUnits` units, hence one more
  have hy : x + widthUnits < y := by
    have hlt := widthUnits_lt
    refine Int.lt_of_mul_lt_mul_left (a := (2 ^ unitPlace : Nat)) ?_ (Int.natCast_nonneg _)
    rw [Int.mul_add, ← Int.natCast_mul, Nat.mul_comm]
    omega
  have hzy : (2 ^ unitPlace : Nat) * z ≤ (2 ^ unitPlace : Nat) * y :=
    Int.mul_le_mul_of_nonneg_left (by omega) (Int.natCast_nonneg _)
  omega

/-- the steps of the bound and the smallest width together -/
def topSteps : Nat := magnitude 0x1E84800083126F (-33)

theorem hasSteps_top : HasSteps (bound + minWidth) topSteps := by
  have h : (bound + minWidth : Float).toModel.toBits = 0x412E84800083126F := by decide +kernel
  exact .of_toBits (by decide) h rfl

theorem topSteps_eq : topSteps = 2 ^ unitPlace * (boundUnits + widthUnits + 1) := by
  have hn : boundUnits + widthUnits + 1 = 0x1E84800083126F := rfl
  rw [hn, Nat.mul_comm]
  exact magnitude_eq (by decide) _

theorem boundSteps_le_topSteps : boundSteps ≤ topSteps := by
  rw [boundSteps_eq, topSteps_eq]
  exact Nat.mul_le_mul_left _ (by omega)

theorem add_minWidth_le_top (hv : Held v) : v + minWidth ≤ bound + minWidth := by
  obtain ⟨a, ha, hna⟩ := hv
  obtain ⟨m, hm, herr⟩ := exists_add_minWidth ha hna
  rw [hm.le_iff hasSteps_top]
  by_cases hlarge : m ≤ boundSteps
  · have hle := boundSteps_le_topSteps
    omega
  obtain ⟨x, z, rfl, rfl, hz⟩ := exists_units ha hm (by omega) herr
  have hx : x ≤ boundUnits := by
    refine Int.le_of_mul_le_mul_left (a := (2 ^ unitPlace : Nat)) ?_
      (Int.natCast_pos.2 (Nat.two_pow_pos _))
    rw [← Int.natCast_mul, ← boundSteps_eq]
    omega
  rw [topSteps_eq, Int.natCast_mul]
  exact Int.mul_le_mul_of_nonneg_left (by omega) (Int.natCast_nonneg _)

end

/-! ## windows -/

theorem HasSteps.abs_le_iff {v w : Float} {a b : Int} (h : HasSteps v a) (h' : HasSteps w b) :
    Number.abs v ≤ w ↔ (a.natAbs : Int) ≤ b :=
  h.abs.le_iff h'

/-- the low end of a window is a number that is held within the bound -/
theorem held_lo_window (a b : Float) : Held (Span.window a b).lo := by
  obtain h | ⟨v, w, hv, -, -, h⟩ := window_cases a b
  · rw [h]
    exact held_of_le (by decide +kernel) (by decide +kernel) (by decide +kernel)
  · rw [h]
    exact hv

/-- the high end passes the bound exactly if the smallest window at the low end does -/
theorem hi_window_le_bound_iff (a b : Float) :
    (Span.window a b).hi ≤ bound ↔ (Span.window a b).lo + minWidth ≤ bound := by
  obtain h | ⟨v, w, hv, hw, hle, h⟩ := window_cases a b
  · rw [h]
    exact iff_of_true (by decide +kernel) (by decide +kernel)
  · rw [h, Span.widened]
    split
    · exact Iff.rfl
    · rename_i hwide
      obtain ⟨n, hn, hnb⟩ := hw
      exact iff_of_true ((hn.le_iff hasSteps_bound).2 (by omega))
        (add_minWidth_le_of_not_lt hv ⟨n, hn, hnb⟩ hle hwide)

/-- the high end is never farther behind the bound than the smallest width -/
theorem hi_window_le_top (a b : Float) : (Span.window a b).hi ≤ bound + minWidth := by
  obtain h | ⟨v, w, hv, hw, hle, h⟩ := window_cases a b
  · rw [h]
    decide +kernel
  · rw [h, Span.widened]
    split
    · exact add_minWidth_le_top hv
    · obtain ⟨n, hn, hnb⟩ := hw
      have hle := boundSteps_le_topSteps
      exact (hn.le_iff hasSteps_top).2 (by omega)

/-- above the low end, the distance of the high end from zero is a matter of the upper limit -/
theorem abs_hi_window_le_iff (a b : Float) {l : Float} {n : Nat} (hl : HasSteps l n)
    (hn : boundSteps ≤ n) :
    Number.abs (Span.window a b).hi ≤ l ↔ (Span.window a b).hi ≤ l := by
  have hp := proper_window a b
  obtain ⟨i, hi, hib⟩ := held_lo_window a b
  obtain ⟨j, hj⟩ := exists_hasSteps hp.hi_finite
  have hlt := (hi.lt_iff hj).1 hp.lt
  rw [hj.abs_le_iff hl, hj.le_iff hl]
  omega

end Double

namespace Session

/-- Whatever the two numbers and whatever was shown before, a window has finite ends, the low one
below the high one.  The low end is within the bound.  The high end passes it by the smallest width
at most, and stays within it exactly if the smallest window at the low end would. -/
theorem window_setWindow (s : Session Float) (a b : Float) :
    (s.setWindow a b).window.Proper
    ∧ Number.abs (s.setWindow a b).window.lo ≤ bound
    ∧ Number.abs (s.setWindow a b).window.hi ≤ bound + minWidth
    ∧ (Number.abs (s.setWindow a b).window.hi ≤ bound
      ↔ (s.setWindow a b).window.lo + minWidth ≤ bound) := by
  have htop := Double.boundSteps_le_topSteps
  refine ⟨Double.proper_window a b, (Double.held_lo_window a b).abs_le, ?_, ?_⟩
  · exact (Double.abs_hi_window_le_iff a b Double.hasSteps_top htop).2
      (Double.hi_window_le_top a b)
  · exact (Double.abs_hi_window_le_iff a b Double.hasSteps_bound (Nat.le_refl _)).trans
      (Double.hi_window_le_bound_iff a b)

/-- A window between the bound and itself is made wide enough beyond the bound. -/
theorem not_window_setWindow_within : ¬ ∀ (s : Session Float) (a b : Float),
    (s.setWindow a b).window.Proper
    ∧ Number.abs (s.setWindow a b).window.lo ≤ bound
    ∧ Number.abs (s.setWindow a b).window.hi ≤ bound := by
  intro h
  obtain ⟨-, -, hhi⟩ := h initial bound bound
  exact absurd hhi (by decide +kernel)

end Session

end CurveStudy
