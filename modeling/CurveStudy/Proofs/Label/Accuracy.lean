import Mathlib.Tactic.LinearCombination
import CurveStudy.Proofs.Extended
import CurveStudy.Proofs.Label.Reading

/-!
# How near a label is to its number

With exact arithmetic a label is read back to a number that is at most `5 / 10 ^ 7` away.  A
fraction is nearer than `1 / 10 ^ 9`, and the only one with a denominator of at most
`maxDenominator` that is so near; it is shown wherever there is one, unless the number is taken for
an integer or is too large.

* `one_le_abs_sub_mul_den`, `eq_of_near`   two fractions with small denominators are not near to
  each other;
* `integer?_of`, `withDenominator?_of`, `fraction?_of`   what a number is taken for;
* `slash_mem_text`   which labels have a slash;
* `text_accurate`   all of this for the label of a finite number.
-/

namespace CurveStudy

/-- between two fractions is at least one over the product of their denominators -/
theorem one_le_abs_sub_mul_den {p q : Rat} (h : p ≠ q) : 1 ≤ |p - q| * (p.den * q.den) := by
  have hp : (p.den : Rat) ≠ 0 := by exact_mod_cast p.den_nz
  have hq : (q.den : Rat) ≠ 0 := by exact_mod_cast q.den_nz
  have hn : (p - q) * (p.den * q.den) = ((p.num * q.den - q.num * p.den : Int) : Rat) := by
    push_cast
    linear_combination q.den * Rat.mul_den_eq_num p - p.den * Rat.mul_den_eq_num q
  have h0 : p.num * q.den - q.num * p.den ≠ 0 := by
    intro h0
    rw [h0, Int.cast_zero] at hn
    exact mul_ne_zero (sub_ne_zero.2 h) (mul_ne_zero hp hq) hn
  have habs : |p - q| * (p.den * q.den) = ((|p.num * q.den - q.num * p.den| : Int) : Rat) := by
    rw [Int.cast_abs, ← hn, abs_mul, abs_of_nonneg (by positivity : (0 : Rat) ≤ p.den * q.den)]
  rw [habs]
  exact_mod_cast Int.one_le_abs h0

namespace Label
open Decimal (roundAway roundEven)
open Extended (of)

/-- only one fraction with a small denominator is near to a number -/
theorem eq_of_near {p r q : Rat} (hp : p.den ≤ maxDenominator) (hr : r.den ≤ maxDenominator)
    (hpq : |p - q| < 1 / 10 ^ 9) (hrq : |r - q| < 1 / 10 ^ 9) : p = r := by
  by_contra h
  have hd : (p.den * r.den : Rat) ≤ 100 * 100 := by
    have hp' : (p.den : Rat) ≤ 100 := by exact_mod_cast hp
    have hr' : (r.den : Rat) ≤ 100 := by exact_mod_cast hr
    gcongr
  have hpr : |p - r| < 2 / 10 ^ 9 := by
    have := abs_sub_le p q r
    rw [abs_sub_comm q r] at this
    linarith
  have : |p - r| * (p.den * r.den) < 1 :=
    calc |p - r| * (p.den * r.den) ≤ |p - r| * (100 * 100) := by gcongr
      _ ≤ 2 / 10 ^ 9 * (100 * 100) := by gcongr
      _ < 1 := by norm_num
  exact absurd (one_le_abs_sub_mul_den h) (not_le.2 this)

variable {α : Type} [ExactValue α] {q r : Rat}

/-! ## what a number is taken for -/

@[simp] theorem nearest_of (q : Rat) : Number.nearest (of q : α) = roundAway q :=
  congrArg roundAway (ExactValue.toRat_of q)

theorem integer?_of {n : Int} : integer? (of q : α) = some n
    ↔ roundAway q = n ∧ |(n : Rat) - q| < 1 / 10 ^ 7 ∧ |(n : Rat)| < 10 ^ 15 := by
  have h7 : (Literal.ofDecimal 1 (-7) : α) = of (1 / 10 ^ 7) := by
    rw [Extended.ofDecimal_eq]
    norm_num
  have h15 : (Literal.ofDecimal 1 15 : α) = of (10 ^ 15) := by
    rw [Extended.ofDecimal_eq]
    norm_num
  simp only [integer?, nearest_of, Extended.ofInt_eq, Extended.sub_of, Extended.abs_of, h7, h15,
    Extended.of_lt_of, Option.ite_none_right_eq_some, Option.some_inj]
  constructor
  · rintro ⟨h, rfl⟩
    exact ⟨rfl, h⟩
  · rintro ⟨rfl, h⟩
    exact ⟨h, rfl⟩

/-- a number that is not too large is taken for an integer if one is near to it -/
theorem integer?_of_eq_none (hq : |q| ≤ 10 ^ 12) : integer? (of q : α) = none
    ↔ ∀ m : Int, 1 / 10 ^ 7 ≤ |(m : Rat) - q| := by
  constructor
  · intro h m
    by_contra hm
    rw [not_le] at hm
    have hr : roundAway q = m := Decimal.roundAway_eq (hm.trans (by norm_num))
    have hm' : |(m : Rat)| < 10 ^ 15 := by
      have := abs_add_le ((m : Rat) - q) q
      rw [sub_add_cancel] at this
      linarith
    rw [integer?_of.2 ⟨hr, hm, hm'⟩] at h
    cases h
  · intro h
    rw [Option.eq_none_iff_forall_not_mem]
    intro n hn
    exact absurd (integer?_of.1 hn).2.1 (not_lt.2 (h n))

theorem withDenominator?_of {d : Nat} (hd : d ≠ 0) : withDenominator? (of q : α) d = some r
    ↔ (roundAway (q * d) : Rat) / d = r ∧ |r - q| < 1 / 10 ^ 9 := by
  have h9 : (Literal.ofDecimal 1 (-9) : α) = of (1 / 10 ^ 9) := by
    rw [Extended.ofDecimal_eq]
    norm_num
  have hd' : (d : Rat) ≠ 0 := by exact_mod_cast hd
  simp only [withDenominator?, Extended.ofNat_eq, Extended.mul_of, nearest_of, Extended.ofInt_eq,
    Extended.div_of _ hd', Extended.sub_of, Extended.abs_of, h9, Extended.of_lt_of,
    Rat.mkRat_eq_div, Option.ite_none_right_eq_some, Option.some_inj]
  constructor
  · rintro ⟨h, rfl⟩
    exact ⟨rfl, h⟩
  · rintro ⟨rfl, h⟩
    exact ⟨h, rfl⟩

/-- the denominator of a near fraction finds it -/
theorem withDenominator?_den (hd : r.den ≤ maxDenominator) (hr : |r - q| < 1 / 10 ^ 9) :
    withDenominator? (of q : α) r.den = some r := by
  have hd' : (r.den : Rat) ≤ 100 := by exact_mod_cast hd
  have hn : |(r.num : Rat) - q * r.den| < 1 / 2 :=
    calc |(r.num : Rat) - q * r.den| = |r - q| * r.den := by
          rw [← Rat.mul_den_eq_num, ← sub_mul, abs_mul, Nat.abs_cast]
      _ ≤ 1 / 10 ^ 9 * 100 := by gcongr
      _ < 1 / 2 := by norm_num
  rw [withDenominator?_of r.den_nz, Decimal.roundAway_eq hn, Rat.num_div_den]
  exact ⟨rfl, hr⟩

theorem fraction?_eq (q : Rat) : fraction? (of q : α) = if 10 ^ 12 < |q| then none
    else (List.range' 2 (maxDenominator - 1)).findSome? (withDenominator? (of q : α)) := by
  have h12 : (Literal.ofDecimal 1 12 : α) = of (10 ^ 12) := by
    rw [Extended.ofDecimal_eq]
    norm_num
  simp only [fraction?, Extended.abs_of, h12, Extended.of_lt_of]

theorem near_of_fraction? (h : fraction? (of q : α) = some r) :
    |q| ≤ 10 ^ 12 ∧ r.den ≤ maxDenominator ∧ |r - q| < 1 / 10 ^ 9 := by
  rw [fraction?_eq, Option.ite_none_left_eq_some, not_lt] at h
  obtain ⟨hq, h⟩ := h
  obtain ⟨d, hd, h⟩ := List.exists_of_findSome?_eq_some h
  rw [List.mem_range'_1] at hd
  obtain ⟨rfl, hr⟩ := (withDenominator?_of (by omega)).1 h
  have hdvd : (((roundAway (q * d) : Int) / (d : Int) : Rat).den : Int) ∣ d := by
    rw [← Rat.divInt_eq_div]
    exact Rat.den_dvd _ _
  have hle := Nat.le_of_dvd (by omega) (Int.natCast_dvd_natCast.1 hdvd)
  exact ⟨hq, by exact_mod_cast hle.trans (by omega), hr⟩

/-- a number that is not too large is taken for the fraction that is near to it -/
theorem fraction?_of (hr : r.den ≠ 1) : fraction? (of q : α) = some r
    ↔ |q| ≤ 10 ^ 12 ∧ r.den ≤ maxDenominator ∧ |r - q| < 1 / 10 ^ 9 := by
  refine ⟨near_of_fraction?, ?_⟩
  rintro ⟨hq, hd, hn⟩
  have hmem : r.den ∈ List.range' 2 (maxDenominator - 1) := by
    rw [List.mem_range'_1]
    have := r.den_pos
    have : maxDenominator = 100 := rfl
    omega
  have hsome : (fraction? (of q : α)).isSome := by
    rw [fraction?_eq, if_neg (not_lt.2 hq), List.findSome?_isSome_iff]
    exact ⟨r.den, hmem, by rw [withDenominator?_den hd hn]; rfl⟩
  obtain ⟨p, hp⟩ := Option.isSome_iff_exists.1 hsome
  obtain ⟨-, hpd, hpn⟩ := near_of_fraction? hp
  rw [hp, eq_of_near hpd hd hpn hn]

/-- what is taken for a fraction and for no integer is near to no integer -/
theorem den_ne_one (h : integer? (of q : α) = none) (hr : fraction? (of q : α) = some r) :
    r.den ≠ 1 := by
  intro hd
  obtain ⟨hq, -, hn⟩ := near_of_fraction? hr
  have hm := (integer?_of_eq_none hq).1 h r.num
  rw [Rat.coe_int_num_of_den_eq_one hd] at hm
  linarith

/-! ## the label -/

theorem abs_units_sub_le (q : Rat) :
    |(roundEven (q * 10 ^ places) : Rat) / 10 ^ places - q| ≤ 5 / 10 ^ 7 := by
  have h := Decimal.abs_roundEven_sub_le (q * 10 ^ places)
  have hp : (0 : Rat) < 10 ^ places := by positivity
  calc |(roundEven (q * 10 ^ places) : Rat) / 10 ^ places - q|
      = |(roundEven (q * 10 ^ places) : Rat) - q * 10 ^ places| / 10 ^ places := by
        rw [← abs_of_pos hp, ← abs_div, abs_of_pos hp, sub_div, mul_div_cancel_right₀ _ hp.ne']
    _ ≤ 1 / 2 / 10 ^ places := by gcongr
    _ = 5 / 10 ^ 7 := by norm_num [places]

theorem text_of_cases (q : Rat) : (∃ n, integer? (of q : α) = some n
      ∧ text (of q : α) = Text.ofInt n)
    ∨ (∃ r, integer? (of q : α) = none ∧ fraction? (of q : α) = some r
      ∧ text (of q : α) = fractionText r)
    ∨ (integer? (of q : α) = none ∧ fraction? (of q : α) = none
      ∧ text (of q : α) = decimalText q) := by
  have h := text_cases (ExactValue.isDefined_of q) (Extended.isFinite_of (α := α) q)
  rwa [ExactValue.toRat_of] at h

theorem exists_read?_text (q : Rat) :
    ∃ p, read? (text (of q : α)) = some p ∧ |p - q| ≤ 5 / 10 ^ 7 := by
  rcases text_of_cases (α := α) q with ⟨n, hn, ht⟩ | ⟨r, -, hr, ht⟩ | ⟨-, -, ht⟩
  · obtain ⟨-, hnq, -⟩ := integer?_of.1 hn
    exact ⟨n, ht ▸ read?_ofInt n, hnq.le.trans (by norm_num)⟩
  · obtain ⟨-, -, hrq⟩ := near_of_fraction? hr
    exact ⟨r, ht ▸ read?_fractionText r, hrq.le.trans (by norm_num)⟩
  · exact ⟨_, ht ▸ read?_decimalText q, abs_units_sub_le q⟩

/-- a label has a slash if the number is taken for a fraction and for no integer -/
theorem slash_mem_text : '/' ∈ text (of q : α)
    ↔ integer? (of q : α) = none ∧ ∃ r, fraction? (of q : α) = some r := by
  rcases text_of_cases (α := α) q with ⟨n, hn, ht⟩ | ⟨r, hn, hr, ht⟩ | ⟨hn, hr, ht⟩ <;> rw [ht, hn]
  · exact iff_of_false (slash_not_mem_ofInt n) nofun
  · exact iff_of_true (slash_mem_fractionText.2 (den_ne_one hn hr)) ⟨rfl, r, hr⟩
  · rw [hr]
    exact iff_of_false (slash_not_mem_decimalText q) nofun

theorem abs_num_lt (hq : |q| ≤ 10 ^ 12) (hd : r.den ≤ maxDenominator)
    (hn : |r - q| < 1 / 10 ^ 9) : |r.num| < 2 ^ 63 := by
  have hd' : (r.den : Rat) ≤ 100 := by exact_mod_cast hd
  have hr : |r| ≤ 10 ^ 12 + 1 := by
    have := abs_add_le (r - q) q
    rw [sub_add_cancel] at this
    linarith
  have : |(r.num : Rat)| < 2 ^ 63 :=
    calc |(r.num : Rat)| = |r| * r.den := by rw [← Rat.mul_den_eq_num, abs_mul, Nat.abs_cast]
      _ ≤ (10 ^ 12 + 1) * 100 := by gcongr
      _ < 2 ^ 63 := by norm_num
  exact_mod_cast this

/-- The label of a finite number is read back to a number that is at most `5 / 10 ^ 7` away.  If it
is a fraction, it is in lowest terms with a small denominator, and no other such fraction is so
near.  It is one if the number is not too large, near to a fraction, and near to no integer. -/
theorem text_accurate {v : α} (hv : Scalar.isFinite v) :
    (∃ q, read? (text v) = some q ∧ |q - Number.toRat v| ≤ 5 / 10 ^ 7)
    ∧ ('/' ∈ text v → ∃ (n : Int) (d : Nat), text v = Text.ofInt n ++ '/' :: Text.ofNat d
      ∧ 2 ≤ d ∧ d ≤ 100 ∧ n.natAbs.Coprime d ∧ -2 ^ 63 ≤ n ∧ n < 2 ^ 63
      ∧ |(n / d : Rat) - Number.toRat v| < 1 / 10 ^ 9
      ∧ ∀ q : Rat, q.den ≤ 100 → |q - Number.toRat v| < 1 / 10 ^ 9 → q = n / d)
    ∧ ('/' ∈ text v ↔ |Number.toRat v| ≤ 10 ^ 12
      ∧ (∀ m : Int, 1 / 10 ^ 7 ≤ |(m : Rat) - Number.toRat v|)
      ∧ ∃ q : Rat, q.den ≤ 100 ∧ |q - Number.toRat v| < 1 / 10 ^ 9) := by
  obtain ⟨p, rfl⟩ := Extended.isFinite_iff.1 hv
  rw [ExactValue.toRat_of]
  refine ⟨exists_read?_text p, fun h => ?_, fun h => ?_, ?_⟩
  · obtain ⟨hm, r, hr⟩ := slash_mem_text.1 h
    obtain ⟨hp, hd, hn⟩ := near_of_fraction? hr
    obtain ⟨hlo, hhi⟩ := abs_lt.1 (abs_num_lt hp hd hn)
    have hd1 := den_ne_one hm hr
    have ht := text_of_fraction (ExactValue.isDefined_of p) (Extended.isFinite_of p) hm hr
    rw [fractionText, if_neg hd1] at ht
    have hd2 : 2 ≤ r.den := by
      have := r.den_pos
      omega
    refine ⟨r.num, r.den, ht, hd2, hd, r.reduced, hlo.le, hhi, ?_⟩
    rw [Rat.num_div_den]
    exact ⟨hn, fun q hq hqn => eq_of_near hq hd hqn hn⟩
  · obtain ⟨hn, r, hr⟩ := slash_mem_text.1 h
    obtain ⟨hp, hd, hrn⟩ := near_of_fraction? hr
    exact ⟨hp, (integer?_of_eq_none hp).1 hn, r, hd, hrn⟩
  · rintro ⟨hp, hm, r, hd, hrn⟩
    have hd1 : r.den ≠ 1 := by
      intro hd1
      have := hm r.num
      rw [Rat.coe_int_num_of_den_eq_one hd1] at this
      linarith
    exact slash_mem_text.2 ⟨(integer?_of_eq_none hp).2 hm, r, (fraction?_of hd1).2 ⟨hp, hd, hrn⟩⟩

/-- `333333333/10^9` is labelled `1/3` -/
theorem text_accurate_third : Scalar.isFinite (Partial.num (333333333 / 10 ^ 9))
    ∧ text (Partial.num (333333333 / 10 ^ 9)) = "1/3".toList
    ∧ (∃ q, read? (text (Partial.num (333333333 / 10 ^ 9))) = some q
      ∧ |q - 333333333 / 10 ^ 9| ≤ 5 / 10 ^ 7)
    ∧ ∃ (n : Int) (d : Nat),
      text (Partial.num (333333333 / 10 ^ 9)) = Text.ofInt n ++ '/' :: Text.ofNat d
      ∧ |(n / d : Rat) - 333333333 / 10 ^ 9| < 1 / 10 ^ 9 := by
  have ht : text (Partial.num (333333333 / 10 ^ 9)) = "1/3".toList := by decide +kernel
  obtain ⟨hread, hfrac, -⟩ := text_accurate (v := Partial.num (333333333 / 10 ^ 9)) rfl
  have hs : '/' ∈ text (Partial.num (333333333 / 10 ^ 9)) := by
    rw [ht]
    decide
  obtain ⟨n, d, hnd, -, -, -, -, -, hn, -⟩ := hfrac hs
  exact ⟨rfl, ht, hread, n, d, hnd, hn⟩

end Label
end CurveStudy
