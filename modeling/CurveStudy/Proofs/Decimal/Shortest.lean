import Mathlib.Algebra.Order.Field.Power
import Mathlib.Algebra.Order.Ring.Rat
import Mathlib.Tactic.Linarith
import Mathlib.Tactic.NormNum
import Mathlib.Tactic.Ring
import CurveStudy.Decimal.Shortest

/-!
# The shortest decimal is in the interval

A grid finer than the interval is wide has a multiple in the interval.  Seventeen digits are fine
enough if the interval is wider than the value's share of `10 ^ 16`.

* `exists_onGrid?`    a grid that is fine enough has a choice;
* `contains_search`   the choice is in the interval;
* `contains_decimal`  the shortest decimal is in the interval.
-/

namespace CurveStudy.Decimal.Interval

variable {i : Interval} {q : Rat} {p : Int} {c : Nat}

theorem contains_of_lt (hl : i.lower < q) (hu : q < i.upper) : i.contains q := by
  unfold contains
  split
  · exact Bool.and_eq_true_iff.2 ⟨decide_eq_true hl.le, decide_eq_true hu.le⟩
  · exact Bool.and_eq_true_iff.2 ⟨decide_eq_true hl, decide_eq_true hu⟩

theorem contains_of_onGrid? (h : i.onGrid? p = some c) : i.contains (c * 10 ^ p) := by
  obtain ⟨n, hn⟩ : ∃ n, (i.value / (10 : Rat) ^ p).floor.toNat = n := ⟨_, rfl⟩
  unfold onGrid? at h
  dsimp only at h
  rw [hn] at h
  cases hb : i.contains (n * 10 ^ p) <;> cases ha : i.contains ((n + 1 : Nat) * 10 ^ p)
  all_goals rw [hb, ha] at h
  case false.false => cases h
  case false.true =>
    cases h
    exact ha
  case true.false =>
    cases h
    exact hb
  case true.true =>
    dsimp only at h
    split at h
    · cases h
      exact hb
    · cases h
      exact ha

/-- a grid that is finer than the interval is wide -/
theorem exists_onGrid? (h0 : 0 ≤ i.value) (hl : i.lower < i.value) (hu : i.value < i.upper)
    (h : (10 : Rat) ^ p < i.upper - i.lower) : ∃ c, i.onGrid? p = some c := by
  have hunit : (0 : Rat) < 10 ^ p := zpow_pos (by norm_num) p
  obtain ⟨n, hn⟩ : ∃ n, (i.value / (10 : Rat) ^ p).floor.toNat = n := ⟨_, rfl⟩
  have hfloor : (i.value / (10 : Rat) ^ p).floor = n := by
    have : 0 ≤ (i.value / (10 : Rat) ^ p).floor :=
      Rat.le_floor_iff.2 (div_nonneg h0 hunit.le)
    omega
  have hle : n * (10 : Rat) ^ p ≤ i.value := by
    rw [← le_div_iff₀ hunit]
    have := Rat.floor_le (i.value / (10 : Rat) ^ p)
    rwa [hfloor] at this
  have hlt : i.value < (n + 1 : Nat) * (10 : Rat) ^ p := by
    rw [← div_lt_iff₀ hunit]
    have := Rat.lt_floor_add_one (i.value / (10 : Rat) ^ p)
    rwa [hfloor] at this
  have hor : i.contains (n * 10 ^ p) ∨ i.contains ((n + 1 : Nat) * 10 ^ p) := by
    by_cases hb : i.lower < n * 10 ^ p
    · exact .inl (contains_of_lt hb (hle.trans_lt hu))
    · refine .inr (contains_of_lt (hl.trans hlt) ?_)
      push_cast
      linarith
  unfold onGrid?
  dsimp only
  rw [hn]
  cases hb : i.contains (n * 10 ^ p) <;> cases ha : i.contains ((n + 1 : Nat) * 10 ^ p)
  case false.false =>
    rw [hb, ha] at hor
    simp at hor
  case false.true => exact ⟨_, rfl⟩
  case true.false => exact ⟨_, rfl⟩
  case true.true =>
    dsimp only
    split
    · exact ⟨_, rfl⟩
    · exact ⟨_, rfl⟩

/-- if one of the grids has a choice, then the search finds one -/
theorem contains_search {tries j : Nat} (hj : j < tries) (h : ∃ c, i.onGrid? (p - j) = some c) :
    i.contains ((i.search tries p).1 * 10 ^ (i.search tries p).2) := by
  induction tries generalizing p j with
  | zero => exact absurd hj (Nat.not_lt_zero j)
  | succ tries ih =>
    rw [search]
    cases hp : i.onGrid? p with
    | some c => exact contains_of_onGrid? hp
    | none =>
      cases j with
      | zero =>
        obtain ⟨c, hc⟩ := h
        rw [Int.natCast_zero, Int.sub_zero, hp] at hc
        cases hc
      | succ j =>
        refine ih (Nat.lt_of_succ_lt_succ hj) ?_
        rwa [show p - 1 - j = p - (j + 1 : Nat) by omega]

theorem ten_pow_magnitude_le (hq : 0 < q) : (10 : Rat) ^ (magnitude q - 1) ≤ q := by
  obtain ⟨s, hs⟩ : ∃ s, q.den.log2 + 1 = s := ⟨_, rfl⟩
  obtain ⟨n, hn⟩ : ∃ n, (q * 10 ^ s).floor.toNat = n := ⟨_, rfl⟩
  have hscale : (0 : Rat) < 10 ^ s := pow_pos (by norm_num) s
  have hone : 1 ≤ q * 10 ^ s := by
    have hnum : (1 : Rat) ≤ q.num := by exact_mod_cast Rat.num_pos.2 hq
    have hden : (q.den : Rat) ≤ 10 ^ s := by
      have h2 : q.den < 2 ^ s := hs ▸ Nat.lt_log2_self
      exact_mod_cast (Nat.lt_of_lt_of_le h2 (Nat.pow_le_pow_left (by decide) s)).le
    calc (1 : Rat) ≤ q.num := hnum
      _ = q * q.den := (Rat.mul_den_eq_num q).symm
      _ ≤ q * 10 ^ s := mul_le_mul_of_nonneg_left hden hq.le
  have hfloor : 1 ≤ (q * 10 ^ s).floor := Rat.le_floor_iff.2 hone
  have hcast : (n : Rat) ≤ q * 10 ^ s := by
    have := Rat.floor_le (q * 10 ^ s)
    rwa [show (q * 10 ^ s).floor = n by omega] at this
  obtain ⟨l, hl⟩ : ∃ l, (Text.ofNat n).length = l + 1 :=
    Nat.exists_eq_succ_of_ne_zero (Nat.ne_of_gt Nat.length_toDigits_pos)
  have hdigits : 10 ^ l ≤ n := by
    by_contra hlt
    cases l with
    | zero => omega
    | succ l =>
      have := (Nat.length_toDigits_le_iff (by decide) (Nat.succ_pos l)).2 (Nat.lt_of_not_le hlt)
      have hl : (Nat.toDigits 10 n).length = l + 1 + 1 := hl
      omega
  have hmag : magnitude q - 1 = l - s := by
    show ((Text.ofNat (q * 10 ^ (q.den.log2 + 1)).floor.toNat).length : Int)
      - (q.den.log2 + 1 : Nat) - 1 = l - s
    rw [hs, hn, hl]
    omega
  rw [hmag, zpow_sub₀ (by norm_num), zpow_natCast, zpow_natCast, div_le_iff₀ hscale]
  exact le_trans (by exact_mod_cast hdigits) hcast

/-- if seventeen digits are enough, then the shortest decimal is in the interval -/
theorem contains_decimal (hl : i.lower < i.value) (hu : i.value < i.upper) (h0 : 0 < i.value)
    (hw : i.value < 10 ^ 16 * (i.upper - i.lower)) :
    i.contains (i.decimal.1 * 10 ^ i.decimal.2) := by
  refine contains_search (j := 16) (by decide) (exists_onGrid? h0.le hl hu ?_)
  rw [zpow_sub₀ (by norm_num), zpow_natCast, div_lt_iff₀ (by norm_num), mul_comm]
  exact (ten_pow_magnitude_le h0).trans_lt hw

end CurveStudy.Decimal.Interval
