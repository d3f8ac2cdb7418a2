import Mathlib.Algebra.Order.Ring.Rat
import Mathlib.Tactic.Linarith
import Mathlib.Tactic.NormNum
import CurveStudy.Decimal.Rounding

/-!
# The nearest integer

Both ways to round give an integer that is at most one half away, so that they give the one integer
that is less than one half away if there is one.  Both are the same on either side of zero.

* `abs_roundAway_sub_le`, `roundAway_eq`, `roundAway_neg`   a half goes away from zero;
* `abs_roundEven_sub_le`, `roundEven_eq_zero_iff`, `roundEven_neg`   a half goes to the even
  neighbour.
-/

namespace CurveStudy.Decimal

variable {q : Rat}

/-- an integer that is less than one half away is the only one -/
theorem eq_of_abs_sub_le {m n : Int} (hm : |(m : Rat) - q| ≤ 1 / 2) (hn : |(n : Rat) - q| < 1 / 2) :
    m = n := by
  obtain ⟨hm1, hm2⟩ := abs_le.1 hm
  obtain ⟨hn1, hn2⟩ := abs_lt.1 hn
  have h1 : (m : Rat) < n + 1 := by linarith
  have h2 : (n : Rat) < m + 1 := by linarith
  have h1' : m < n + 1 := by exact_mod_cast h1
  have h2' : n < m + 1 := by exact_mod_cast h2
  omega

theorem nonneg_of_abs_sub_le {m : Int} (hm : |(m : Rat) - q| ≤ 1 / 2) (h : 0 ≤ q) : 0 ≤ m := by
  have hq := (abs_le.1 hm).1
  have h' : (-1 : Rat) < m := by linarith
  have : -1 < m := by exact_mod_cast h'
  omega

/-! ## a half goes away from zero -/

theorem abs_roundAway_sub_le (q : Rat) : |(roundAway q : Rat) - q| ≤ 1 / 2 := by
  rw [abs_le]
  unfold roundAway
  split
  · have hlo := Rat.floor_le (-q + 1 / 2)
    have hhi := Rat.lt_floor_add_one (-q + 1 / 2)
    push_cast at hhi ⊢
    constructor <;> linarith
  · have hlo := Rat.floor_le (q + 1 / 2)
    have hhi := Rat.lt_floor_add_one (q + 1 / 2)
    push_cast at hhi
    constructor <;> linarith

theorem roundAway_eq {n : Int} (h : |(n : Rat) - q| < 1 / 2) : roundAway q = n :=
  eq_of_abs_sub_le (abs_roundAway_sub_le q) h

theorem roundAway_eq_zero (h0 : 0 ≤ q) (h : q < 1 / 2) : roundAway q = 0 := by
  refine roundAway_eq ?_
  rwa [Int.cast_zero, zero_sub, abs_neg, abs_of_nonneg h0]

theorem roundAway_nonneg (h : 0 ≤ q) : 0 ≤ roundAway q :=
  nonneg_of_abs_sub_le (abs_roundAway_sub_le q) h

@[simp] theorem roundAway_neg (q : Rat) : roundAway (-q) = -roundAway q := by
  rcases lt_trichotomy q 0 with h | rfl | h
  · rw [roundAway, if_neg (by linarith), roundAway, if_pos h, neg_neg]
  · decide +kernel
  · rw [roundAway, if_pos (by linarith), roundAway, if_neg (by linarith), neg_neg]

/-! ## a half goes to the even neighbour -/

theorem abs_roundEven_sub_le (q : Rat) : |(roundEven q : Rat) - q| ≤ 1 / 2 := by
  have hlo := Rat.floor_le q
  have hhi := Rat.lt_floor_add_one q
  push_cast at hhi
  rw [abs_le]
  unfold roundEven
  dsimp only
  split_ifs <;> push_cast <;> constructor <;> linarith

theorem roundEven_nonneg (h : 0 ≤ q) : 0 ≤ roundEven q :=
  nonneg_of_abs_sub_le (abs_roundEven_sub_le q) h

theorem roundEven_eq_zero_iff (h : 0 ≤ q) : roundEven q = 0 ↔ q ≤ 1 / 2 := by
  have hq := abs_roundEven_sub_le q
  constructor
  · intro h0
    rw [h0, Int.cast_zero, zero_sub, abs_neg, abs_of_nonneg h] at hq
    exact hq
  · intro hle
    rcases hle.lt_or_eq with hlt | rfl
    · refine eq_of_abs_sub_le hq ?_
      rwa [Int.cast_zero, zero_sub, abs_neg, abs_of_nonneg h]
    · decide +kernel

/-- between two integers the lower one of the opposite is the opposite of the upper one -/
theorem floor_neg_of_lt (h : (q.floor : Rat) < q) : (-q).floor = -q.floor - 1 := by
  have hhi := Rat.lt_floor_add_one q
  push_cast at hhi
  have h1 : -q.floor - 1 ≤ (-q).floor := by
    rw [Rat.le_floor_iff]
    push_cast
    linarith
  have h2 : (-q).floor < -q.floor := by
    rw [Rat.floor_lt_iff]
    push_cast
    linarith
  omega

theorem roundEven_neg (q : Rat) : roundEven (-q) = -roundEven q := by
  rcases (Rat.floor_le q).eq_or_lt with h | h
  · rw [← h, ← Rat.intCast_neg, roundEven, roundEven, Rat.floor_intCast, Rat.floor_intCast]
    rw [sub_self, sub_self, if_pos (by norm_num), if_pos (by norm_num)]
  · unfold roundEven
    rw [floor_neg_of_lt h]
    dsimp only
    push_cast
    split_ifs <;> first | omega | linarith

end CurveStudy.Decimal
