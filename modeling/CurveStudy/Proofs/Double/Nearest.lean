import Mathlib.Tactic.Ring
import CurveStudy.Proofs.Double.Steps

/-!
# Rounding to the nearest number

A mantissa with two more bits, one behind its last and one for all that is further behind, says
enough of a fraction to round it to the nearest whole number, a half going to the even neighbour.
So a fraction in the interval of a number is rounded to this number.

* `Tracks`      the two bits belong to a fraction, `Tracks.shiftRight` after any number of halvings;
* `Tracks.roundedMantissa_eq`   the fraction is rounded to the nearest whole number;
* `Near`        the fraction is in the interval of a number;
* `roundWithAccuracy_of_near`   it is rounded to the number.
-/

namespace CurveStudy.Double
open Float.Model Float.Model.UnpackedFloat

/-- the mantissa and its two bits belong to the fraction `a / b` -/
structure Tracks (em : ExtendedMantissa) (a b : Nat) : Prop where
  mantissa : em.mantissa = a / b
  round : em.roundBit ↔ b ≤ 2 * (a % b)
  sticky : em.stickyBit ↔ 2 * (a % b) ≠ 0 ∧ 2 * (a % b) ≠ b

namespace Tracks
variable {em : ExtendedMantissa} {a b : Nat}

theorem shiftRightOne (h : Tracks em a b) (hb : 0 < b) : Tracks em.shiftRightOne a (b * 2) := by
  have hr : a % b < b := Nat.mod_lt a hb
  have hmod : a % (b * 2) = a % b + b * (a / b % 2) := Nat.mod_mul
  have hbit := Nat.mod_two_eq_zero_or_one (a / b)
  refine ⟨?_, ?_, ?_⟩
  · show em.mantissa / 2 = a / (b * 2)
    rw [h.mantissa, Nat.div_div_eq_div_mul]
  · show (em.mantissa % 2 != 0) = true ↔ _
    rw [h.mantissa, bne_iff_ne, hmod]
    rcases hbit with h0 | h1
    · rw [h0]
      omega
    · rw [h1]
      omega
  · show (em.roundBit || em.stickyBit) = true ↔ _
    rw [Bool.or_eq_true_iff, h.round, h.sticky, hmod]
    rcases hbit with h0 | h1
    · rw [h0]
      omega
    · rw [h1]
      omega

theorem shiftRight (h : Tracks em a b) (hb : 0 < b) (k : Nat) :
    Tracks (em >>> k) a (b * 2 ^ k) := by
  induction k with
  | zero =>
    rw [Nat.pow_zero, Nat.mul_one]
    exact h
  | succ k ih =>
    rw [Nat.pow_succ, ← Nat.mul_assoc, shiftRight_succ]
    exact ih.shiftRightOne (Nat.mul_pos hb (Nat.two_pow_pos k))

theorem of_fraction (a : Nat) (hb : 0 < b) :
    Tracks (.ofMantissaAndAccuracy (a / b) (accuracyOfFraction (a % b) b)) a b := by
  unfold accuracyOfFraction
  by_cases h0 : a % b = 0
  · rw [if_pos h0]
    exact ⟨rfl, iff_of_false Bool.false_ne_true (by omega),
      iff_of_false Bool.false_ne_true (by omega)⟩
  · rw [if_neg h0]
    rcases Nat.lt_trichotomy (2 * (a % b)) b with h | h | h
    · rw [Nat.compare_eq_lt.2 h]
      exact ⟨rfl, iff_of_false Bool.false_ne_true (by omega), iff_of_true rfl (by omega)⟩
    · rw [Nat.compare_eq_eq.2 h]
      exact ⟨rfl, iff_of_true rfl (by omega), iff_of_false Bool.false_ne_true (by omega)⟩
    · rw [Nat.compare_eq_gt.2 h]
      exact ⟨rfl, iff_of_true rfl (by omega), iff_of_true rfl (by omega)⟩

/-- a fraction that is at most half away from a whole number, and less if this is odd -/
theorem roundedMantissa_eq {n : Nat} (h : Tracks em a b) (hb : 0 < b)
    (hl : 2 * (n * b) ≤ 2 * a + b) (hu : 2 * a ≤ 2 * (n * b) + b)
    (hodd : n % 2 = 1 → 2 * (n * b) < 2 * a + b ∧ 2 * a < 2 * (n * b) + b) :
    em.roundedMantissa = n := by
  obtain ⟨q, hq⟩ : ∃ q, a / b = q := ⟨_, rfl⟩
  have hr : a % b < b := Nat.mod_lt a hb
  have ha : b * q + a % b = a := hq ▸ Nat.div_add_mod a b
  have hqb : q * b = b * q := Nat.mul_comm q b
  have hn : n = q ∨ n = q + 1 := by
    rcases Nat.lt_or_ge n q with hlt | hge
    · have := Nat.mul_le_mul_right b hlt
      rw [Nat.succ_mul] at this
      omega
    · rcases Nat.lt_or_ge (q + 1) n with hlt | hle
      · have := Nat.mul_le_mul_right b hlt
        rw [Nat.succ_mul, Nat.succ_mul] at this
        omega
      · omega
  obtain ⟨m, r, s⟩ := em
  obtain ⟨hm, hround, hsticky⟩ := h
  obtain rfl : m = q := hm.trans hq
  have hs1 : (m + 1) * b = m * b + b := Nat.succ_mul m b
  cases r with
  | false =>
    have hlow : ¬ b ≤ 2 * (a % b) := fun h => Bool.false_ne_true (hround.2 h)
    have : (⟨m, false, s⟩ : ExtendedMantissa).roundedMantissa = m := by cases s <;> rfl
    rw [this]
    rcases hn with rfl | rfl
    · rfl
    · rw [hs1] at hl
      omega
  | true =>
    have hhigh : b ≤ 2 * (a % b) := hround.1 rfl
    cases s with
    | true =>
      have htie : 2 * (a % b) ≠ b := (hsticky.1 rfl).2
      show m + 1 = n
      rcases hn with rfl | rfl
      · omega
      · rfl
    | false =>
      have htie : 2 * (a % b) = b := by
        by_contra hne
        exact Bool.false_ne_true (hsticky.2 ⟨by omega, hne⟩)
      show m + m % 2 = n
      rcases hn with rfl | rfl
      · have : n % 2 ≠ 1 := fun h => by
          have := (hodd h).2
          omega
        omega
      · have : (m + 1) % 2 ≠ 1 := fun h => by
          have := (hodd h).1
          rw [hs1] at this
          omega
        omega

end Tracks

/-! ## the interval of a number -/

/-- from a number to the lower end of its interval, in quarters of its last place: below a power of
two the next number is half as far -/
def below (m : Nat) (e : Int) : Nat := if m = 2 ^ 52 ∧ -1074 < e then 1 else 2

theorem below_le (m : Nat) (e : Int) : below m e ≤ 2 := by
  unfold below
  split
  · exact Nat.le_succ 1
  · exact Nat.le_refl 2

/-- the fraction `a / b` of a step is in the interval of the number, which has its two ends if the
mantissa is even -/
structure Near (m : Nat) (e : Int) (a b : Nat) : Prop where
  lower : magnitude (4 * m - below m e) e * b ≤ 4 * a
  upper : 4 * a ≤ magnitude (4 * m + 2) e * b
  odd : m % 2 = 1 →
    magnitude (4 * m - below m e) e * b < 4 * a ∧ 4 * a < magnitude (4 * m + 2) e * b

section
variable {m a b : Nat} {e E t : Int}

/-- the exponent of a rounded fraction is not above that of the number -/
theorem targetExponent_le (hm : m < 2 ^ 53) (hge : -1074 ≤ e) (hE : -1074 ≤ E)
    (hle : E ≤ Format.binary64.targetExponent (totalExponent (a / b) E))
    (h : 4 * magnitude a E ≤ magnitude (4 * m + 2) e * b) :
    Format.binary64.targetExponent (totalExponent (a / b) E) ≤ e := by
  rw [targetExponent_eq, totalExponent] at hle ⊢
  by_cases h0 : a / b = 0
  · rw [h0, Nat.log2_zero] at hle ⊢
    omega
  have hb : 0 < b := Nat.pos_of_ne_zero fun hb => h0 (by rw [hb, Nat.div_zero])
  have hlog : 2 ^ (a / b).log2 * b ≤ a :=
    Nat.le_trans (Nat.mul_le_mul_right b (Nat.log2_self_le h0)) (Nat.div_mul_le_self a b)
  have hlt : 2 ^ ((a / b).log2 + (E + 1074).toNat + 2) < 2 ^ (55 + (e + 1074).toNat) := by
    refine Nat.lt_of_mul_lt_mul_right (a := b) ?_
    calc 2 ^ ((a / b).log2 + (E + 1074).toNat + 2) * b
        = 4 * (2 ^ (a / b).log2 * b * 2 ^ (E + 1074).toNat) := by
          rw [Nat.pow_add, Nat.pow_add]
          ring
      _ ≤ 4 * magnitude a E := Nat.mul_le_mul_left 4 (Nat.mul_le_mul_right _ hlog)
      _ ≤ (4 * m + 2) * 2 ^ (e + 1074).toNat * b := h
      _ < 2 ^ 55 * 2 ^ (e + 1074).toNat * b := by
          refine Nat.mul_lt_mul_of_pos_right (Nat.mul_lt_mul_of_pos_right ?_ ?_) hb
          · omega
          · exact Nat.two_pow_pos _
      _ = 2 ^ (55 + (e + 1074).toNat) * b := by rw [Nat.pow_add]
  have := (Nat.pow_lt_pow_iff_right (by decide)).1 hlt
  omega

/-- a fraction whose exponent is below that of the number is just below a power of two -/
theorem eq_two_pow_of_lt (hc : Canonical m e) (hb : 0 < b) (hE : -1074 ≤ E)
    (ht : Format.binary64.targetExponent (totalExponent (a / b) E) = t) (hte : t < e)
    (h : magnitude (4 * m - below m e) e * b ≤ 4 * magnitude a E) :
    m = 2 ^ 52 ∧ t = e - 1 ∧ magnitude a E < 2 ^ 53 * 2 ^ (t + 1074).toNat * b := by
  rw [targetExponent_eq, totalExponent] at ht
  have hm : 2 ^ 52 ≤ m := hc.two_pow_le (by omega)
  have hlt : magnitude a E < 2 ^ 53 * 2 ^ (t + 1074).toNat * b := by
    have ha : a < 2 ^ ((a / b).log2 + 1) * b :=
      (Nat.div_lt_iff_lt_mul hb).1 Nat.lt_log2_self
    calc magnitude a E < 2 ^ ((a / b).log2 + 1) * b * 2 ^ (E + 1074).toNat :=
          Nat.mul_lt_mul_of_pos_right ha (Nat.two_pow_pos _)
      _ = 2 ^ ((a / b).log2 + 1 + (E + 1074).toNat) * b := by
          rw [Nat.pow_add]
          ring
      _ ≤ 2 ^ (53 + (t + 1074).toNat) * b :=
          Nat.mul_le_mul_right b (Nat.pow_le_pow_right (by decide) (by omega))
      _ = 2 ^ 53 * 2 ^ (t + 1074).toNat * b := by rw [Nat.pow_add]
  obtain ⟨j, hj⟩ : ∃ j, (e - t).toNat = j + 1 := ⟨(e - t).toNat - 1, by omega⟩
  have hscale : (4 * m - below m e) * 2 ^ (j + 1) < 2 ^ 55 := by
    refine Nat.lt_of_mul_lt_mul_right (a := 2 ^ (t + 1074).toNat * b) ?_
    have he : 2 ^ (e + 1074).toNat = 2 ^ (j + 1) * 2 ^ (t + 1074).toNat := by
      rw [← Nat.pow_add]
      congr 1
      omega
    rw [magnitude, he] at h
    calc (4 * m - below m e) * 2 ^ (j + 1) * (2 ^ (t + 1074).toNat * b)
        = (4 * m - below m e) * (2 ^ (j + 1) * 2 ^ (t + 1074).toNat) * b := by ring
      _ ≤ 4 * magnitude a E := h
      _ < 4 * (2 ^ 53 * 2 ^ (t + 1074).toNat * b) := Nat.mul_lt_mul_of_pos_left hlt (by decide)
      _ = 2 ^ 55 * (2 ^ (t + 1074).toNat * b) := by ring
  have hw := below_le m e
  have hj0 : j = 0 := by
    by_contra hne
    have h4 : 2 ^ 2 ≤ 2 ^ (j + 1) := Nat.pow_le_pow_right (by decide) (by omega)
    have := Nat.mul_le_mul_left (4 * m - below m e) h4
    omega
  rw [hj0] at hscale hj
  refine ⟨?_, by omega, hlt⟩
  by_contra hne
  omega

/-! the interval in units of the last place that is kept -/

theorem magnitude_mul_eq (x b : Nat) (hE : -1074 ≤ E) (ht : E ≤ t) :
    magnitude x t * b = x * (b * 2 ^ (t - E).toNat) * 2 ^ (E + 1074).toNat := by
  have hu : (t + 1074).toNat = (t - E).toNat + (E + 1074).toNat := by omega
  rw [magnitude, hu, Nat.pow_add]
  ring

theorem le_magnitude_iff {x : Nat} (hE : -1074 ≤ E) (ht : E ≤ t) :
    magnitude x t * b ≤ 4 * magnitude a E ↔ x * (b * 2 ^ (t - E).toNat) ≤ 4 * a := by
  rw [magnitude_mul_eq x b hE ht, magnitude.eq_def a, ← Nat.mul_assoc 4]
  exact Nat.mul_le_mul_right_iff (Nat.two_pow_pos _)

theorem magnitude_le_iff {x : Nat} (hE : -1074 ≤ E) (ht : E ≤ t) :
    4 * magnitude a E ≤ magnitude x t * b ↔ 4 * a ≤ x * (b * 2 ^ (t - E).toNat) := by
  rw [magnitude_mul_eq x b hE ht, magnitude.eq_def a, ← Nat.mul_assoc 4]
  exact Nat.mul_le_mul_right_iff (Nat.two_pow_pos _)

/-- a fraction that has the exponent of the number -/
theorem roundedMantissa_of_near (hb : 0 < b) (hE : -1074 ≤ E) (hle : E ≤ e)
    (h : Near m e (magnitude a E) b) :
    (ExtendedMantissa.ofMantissaAndAccuracy (a / b) (accuracyOfFraction (a % b) b)
      >>> (e - E).toNat).roundedMantissa = m := by
  have hw := below_le m e
  have htrack := (Tracks.of_fraction a hb).shiftRight hb (e - E).toNat
  have hl := (le_magnitude_iff hE hle).1 h.lower
  have hr := (magnitude_le_iff hE hle).1 h.upper
  have hodd := h.odd
  rw [← Nat.not_le, ← Nat.not_le, le_magnitude_iff hE hle, magnitude_le_iff hE hle, Nat.not_le,
    Nat.not_le] at hodd
  have hB : 0 < b * 2 ^ (e - E).toNat := Nat.mul_pos hb (Nat.two_pow_pos _)
  generalize b * 2 ^ (e - E).toNat = B at htrack hl hr hodd hB
  have hdown : 4 * (m * B) ≤ (4 * m - below m e) * B + 2 * B := by
    rw [← Nat.mul_assoc, ← Nat.add_mul]
    exact Nat.mul_le_mul_right B (by omega)
  have hup : (4 * m + 2) * B = 4 * (m * B) + 2 * B := by rw [Nat.add_mul, Nat.mul_assoc]
  exact htrack.roundedMantissa_eq hB (by omega) (by omega) (by omega)

/-- a fraction just below a power of two is rounded up to a mantissa with one bit too many -/
theorem roundedMantissa_of_near_two_pow (hb : 0 < b) (hE : -1074 ≤ E) (hle : E ≤ e - 1)
    (hlt : magnitude a E < 2 ^ 53 * 2 ^ (e - 1 + 1074).toNat * b)
    (h : Near (2 ^ 52) e (magnitude a E) b) :
    (ExtendedMantissa.ofMantissaAndAccuracy (a / b) (accuracyOfFraction (a % b) b)
      >>> (e - 1 - E).toNat).roundedMantissa = 2 ^ 52 * 2 ^ 1 := by
  have hw : below (2 ^ 52) e = 1 := if_pos ⟨rfl, by omega⟩
  have htrack := (Tracks.of_fraction a hb).shiftRight hb (e - 1 - E).toNat
  have hl := h.lower
  rw [hw, ← magnitude_mul_two_pow _ (show -1074 ≤ e - (1 : Nat) by omega)] at hl
  have hl := (le_magnitude_iff hE hle).1 hl
  have hr : ¬ magnitude (2 ^ 55) (e - 1) * b ≤ 4 * magnitude a E := by
    rw [magnitude, show 2 ^ 55 = 4 * 2 ^ 53 from rfl, Nat.mul_assoc 4, Nat.mul_assoc 4]
    omega
  have hr := Nat.lt_of_not_le ((le_magnitude_iff hE hle).not.1 hr)
  have hB : 0 < b * 2 ^ (e - 1 - E).toNat := Nat.mul_pos hb (Nat.two_pow_pos _)
  generalize b * 2 ^ (e - 1 - E).toNat = B at htrack hl hr hB
  exact htrack.roundedMantissa_eq hB (by omega) (by omega) (by omega)

/-- a fraction in the interval of a number is rounded to the number -/
theorem roundWithAccuracy_of_near (s : Sign) (hm : 0 < m) (hc : Canonical m e) (hb : 0 < b)
    (hE : -1074 ≤ E) (hle : E ≤ Format.binary64.targetExponent (totalExponent (a / b) E))
    (h : Near m e (magnitude a E) b) :
    roundWithAccuracy Format.binary64 s (a / b) E (accuracyOfFraction (a % b) b)
      = .finite s m e hm := by
  obtain ⟨t, ht⟩ : ∃ t, Format.binary64.targetExponent (totalExponent (a / b) E) = t := ⟨_, rfl⟩
  have hte : t ≤ e := ht ▸ targetExponent_le (lt_two_pow_of_canonical hc) hc.ge hE hle h.upper
  have hx := shiftToTargetExponent_eq (accuracyOfFraction (a % b) b) ht (ht ▸ hle)
  rw [ht] at hle
  rcases Int.lt_or_eq_of_le hte with hlt | rfl
  · obtain ⟨rfl, rfl, hup⟩ := eq_two_pow_of_lt hc hb hE ht hlt h.lower
    refine roundWithAccuracy_eq_finite (k := 1) s hm hc ?_ (by rw [hx]; rfl)
    rw [hx]
    exact roundedMantissa_of_near_two_pow hb hE hle hup h
  · refine roundWithAccuracy_eq_finite (k := 0) s hm hc ?_ (by rw [hx]; exact (Int.sub_zero t).symm)
    rw [hx, Nat.pow_zero, Nat.mul_one]
    exact roundedMantissa_of_near hb hE hle h

end

end CurveStudy.Double
