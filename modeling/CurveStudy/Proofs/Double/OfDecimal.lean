import Mathlib.Tactic.Ring
import CurveStudy.Proofs.Double.Bits
import CurveStudy.Proofs.Double.Nearest

/-!
# Decimals that are rounded

A decimal in the interval of a number is read as this number.  Whichever way it is computed, there
is one rounding, of a quotient or of a product.

* `div_of_near`, `mul_of_near`   quotients and products in the interval of a number;
* `unpack_toFloat`, `exists_unpack_power`   whole numbers and powers of ten that are not rounded;
* `lt_digits_add`, `digits_le`   the decimal is not out of range;
* `ofDecimal_of_near`   a decimal in the interval of a number.
-/

namespace CurveStudy.Double
open Float.Model Float.Model.UnpackedFloat

/-! ## quotients and products -/

section
variable {m a b a' b' : Nat} {e : Int}

theorem mul_le_congr {x : Nat} (hb : 0 < b) (hb' : 0 < b') (h : a * b' = a' * b) :
    x * b ≤ 4 * a ↔ x * b' ≤ 4 * a' := by
  have hx : x * b * b' = x * b' * b := Nat.mul_right_comm ..
  have ha : 4 * a * b' = 4 * a' * b := by rw [Nat.mul_assoc, h, Nat.mul_assoc]
  rw [← Nat.mul_le_mul_right_iff hb', hx, ha]
  exact Nat.mul_le_mul_right_iff hb

theorem le_mul_congr {x : Nat} (hb : 0 < b) (hb' : 0 < b') (h : a * b' = a' * b) :
    4 * a ≤ x * b ↔ 4 * a' ≤ x * b' := by
  have hx : x * b * b' = x * b' * b := Nat.mul_right_comm ..
  have ha : 4 * a * b' = 4 * a' * b := by rw [Nat.mul_assoc, h, Nat.mul_assoc]
  rw [← Nat.mul_le_mul_right_iff hb', hx, ha]
  exact Nat.mul_le_mul_right_iff hb

/-- it does not matter how the fraction is written -/
theorem Near.congr (h : Near m e a b) (hb : 0 < b) (hb' : 0 < b') (hab : a * b' = a' * b) :
    Near m e a' b' where
  lower := (mul_le_congr hb hb' hab).1 h.lower
  upper := (le_mul_congr hb hb' hab).1 h.upper
  odd ho := by
    obtain ⟨hl, hu⟩ := h.odd ho
    rw [← Nat.not_le, ← Nat.not_le, ← mul_le_congr hb hb' hab, ← le_mul_congr hb hb' hab,
      Nat.not_le, Nat.not_le]
    exact ⟨hl, hu⟩

end

section
variable {m m₁ m₂ : Nat} {e e₁ e₂ : Int} (hm : 0 < m) (hc : Canonical m e) (h₁ : 0 < m₁)
  (h₂ : 0 < m₂)
include hc

theorem div_of_near (he : -1074 ≤ e₁ - e₂) (h : Near m e (magnitude m₁ (e₁ - e₂)) m₂) :
    UnpackedFloat.div Format.binary64 (.finite .positive m₁ e₁ h₁) (.finite .positive m₂ e₂ h₂)
      = .finite .positive m e hm := by
  obtain ⟨E, hE⟩ : ∃ E, min (e₁ - e₂) (Format.binary64.targetExponent
    (totalExponent m₁ e₁ - totalExponent m₂ e₂)) = E := ⟨_, rfl⟩
  obtain ⟨j, hj⟩ : ∃ j, (e₁ - e₂ - E).toNat = j := ⟨_, rfl⟩
  show (fun E => roundWithAccuracy Format.binary64 .positive (m₁ <<< (e₁ - e₂ - E).toNat / m₂) E
    (accuracyOfFraction (m₁ <<< (e₁ - e₂ - E).toNat % m₂) m₂)) (min (e₁ - e₂) _) = _
  rw [hE]
  dsimp only
  rw [hj, Nat.shiftLeft_eq]
  rw [targetExponent_eq, totalExponent, totalExponent] at hE
  have hmag : magnitude (m₁ * 2 ^ j) E = magnitude m₁ (e₁ - e₂) := by
    rw [show E = e₁ - e₂ - j by omega]
    exact magnitude_mul_two_pow m₁ (by omega)
  refine roundWithAccuracy_of_near .positive hm hc h₂ (by omega) ?_ (hmag.symm ▸ h)
  rw [targetExponent_eq, totalExponent]
  by_cases h0 : E = -1074
  · omega
  -- the quotient has as many bits as are kept
  have hq : 2 ^ 52 ≤ m₁ * 2 ^ j / m₂ := by
    refine (Nat.le_div_iff_mul_le h₂).2 ?_
    calc 2 ^ 52 * m₂ ≤ 2 ^ 52 * 2 ^ (m₂.log2 + 1) :=
          Nat.mul_le_mul_left _ (Nat.le_of_lt Nat.lt_log2_self)
      _ = 2 ^ (52 + (m₂.log2 + 1)) := (Nat.pow_add ..).symm
      _ ≤ 2 ^ (m₁.log2 + j) := Nat.pow_le_pow_right (by decide) (by omega)
      _ = 2 ^ m₁.log2 * 2 ^ j := Nat.pow_add ..
      _ ≤ m₁ * 2 ^ j := Nat.mul_le_mul_right _ (Nat.log2_self_le (Nat.ne_of_gt h₁))
  have := (Nat.le_log2 (by omega)).2 hq
  omega

theorem mul_of_near (he : -1074 ≤ e₁ + e₂) (h52 : 2 ^ 52 ≤ m₁ * m₂)
    (h : Near m e (magnitude (m₁ * m₂) (e₁ + e₂)) 1) :
    UnpackedFloat.mul Format.binary64 (.finite .positive m₁ e₁ h₁) (.finite .positive m₂ e₂ h₂)
      = .finite .positive m e hm := by
  have hlog := (Nat.le_log2 (by omega)).2 h52
  have hr := roundWithAccuracy_of_near (a := m₁ * m₂) .positive hm hc Nat.one_pos he (by
    rw [targetExponent_eq, totalExponent, Nat.div_one]
    omega) h
  rw [Nat.div_one, Nat.mod_one] at hr
  exact hr

end

/-! ## whole numbers and powers of ten -/

/-- a mantissa that only has to be moved up -/
theorem round_eq_finite (s : Sign) {m k : Nat} {e : Int} (hm : 0 < m) (hp : 0 < m * 2 ^ k)
    (hc : Canonical (m * 2 ^ k) (e - k)) :
    UnpackedFloat.round Format.binary64 s m e = .finite s (m * 2 ^ k) (e - k) hp := by
  have ht := hc.target
  rw [totalExponent, log2_mul_two_pow hm] at ht
  have ht : Format.binary64.targetExponent (totalExponent m e) = e - k := by
    rw [← ht, totalExponent]
    congr 1
    omega
  have hr := roundWithAccuracy_mul_two_pow s hp hc 0
  rw [Nat.pow_zero, Nat.mul_one, Int.natCast_zero, Int.sub_zero] at hr
  rw [UnpackedFloat.round, decreaseExponent, ht, Nat.shiftLeft_eq,
    show (e - (e - k)).toNat = k by omega]
  exact hr

theorem unpack_toFloat {n k : Nat} (h0 : 0 < n) (h : n < 2 ^ 53) (hk : 52 - n.log2 = k)
    (hp : 0 < n * 2 ^ k) :
    n.toUInt64.toFloat.toModel.unpack = .finite .positive (n * 2 ^ k) (0 - k) hp := by
  have hlog : n.log2 ≤ 52 := log2_le h
  have hu : n.toUInt64.toNat = n := Nat.mod_eq_of_lt (Nat.lt_trans h (by decide))
  have h52 : (n * 2 ^ k).log2 = 52 := by
    rw [log2_mul_two_pow h0]
    omega
  obtain ⟨hlo, hhi⟩ := (Nat.log2_eq_iff (Nat.ne_of_gt hp)).1 h52
  have hc : Canonical (n * 2 ^ k) (0 - k) := .of_lt hhi (by omega) (by omega) (.inl hlo)
  show (Float.Model.pack (UnpackedFloat.normalize Format.binary64 n.toUInt64.toNat 0
    .positive)).unpack = _
  rw [hu, UnpackedFloat.normalize, Int.compare_eq_gt.2 (by omega)]
  show (Float.Model.pack (UnpackedFloat.round Format.binary64 .positive n 0)).unpack = _
  rw [round_eq_finite .positive h0 hp hc]
  exact unpack_pack_finite .positive hp hc

/-- the table of powers of ten -/
theorem ofFloat_power : ∀ k (h : k < Float.exactlyRepresentablePowersOfTen.size),
    let v := Float.exactlyRepresentablePowersOfTen[k]
    v.isFinite ∧ (Binary.ofFloat v).negative = false
    ∧ -52 ≤ (Binary.ofFloat v).exponent ∧ (Binary.ofFloat v).exponent ≤ 22
    ∧ (Binary.ofFloat v).mantissa * 2 ^ ((Binary.ofFloat v).exponent + 52).toNat
      = 10 ^ k * 2 ^ 52 := by
  decide +kernel

theorem exists_unpack_power {k : Nat} (h : k < Float.exactlyRepresentablePowersOfTen.size) :
    ∃ m e hm, Float.exactlyRepresentablePowersOfTen[k].toModel.unpack = .finite .positive m e hm
      ∧ -52 ≤ e ∧ e ≤ 22 ∧ m * 2 ^ (e + 52).toNat = 10 ^ k * 2 ^ 52 := by
  obtain ⟨hf, hn, hlo, hhi, hp⟩ := ofFloat_power k h
  obtain ⟨v, hv⟩ : ∃ v, Float.exactlyRepresentablePowersOfTen[k] = v := ⟨_, rfl⟩
  rw [hv] at hf hn hlo hhi hp ⊢
  have hf : v.toModel.unpack.isFinite := hf
  cases hu : v.toModel.unpack with
  | infinity s => rw [hu] at hf; cases hf
  | notANumber => rw [hu] at hf; cases hf
  | zero s =>
    rw [(ofFloat_of_zero hu).1, Nat.zero_mul] at hp
    exact absurd hp.symm (Nat.ne_of_gt (Nat.mul_pos (Nat.pow_pos (by decide)) (by decide)))
  | finite s m e hm =>
    obtain ⟨rfl, rfl, hs⟩ := ofFloat_of_finite hu
    cases s with
    | negative =>
      rw [hn] at hs
      exact absurd (hs.2 rfl) Bool.false_ne_true
    | positive => exact ⟨_, _, hm, rfl, hlo, hhi, hp⟩

/-! ## decimals -/

section
variable {m c k : Nat} {e : Int}

/-- the numbers are not smaller than the smallest -/
theorem lt_digits_add (hm : 0 < m) (h : Near m e (magnitude c 0) (10 ^ k)) :
    k < (Text.ofNat c).length + 324 := by
  obtain ⟨n, hn⟩ : ∃ n, (Text.ofNat c).length = n := ⟨_, rfl⟩
  have hc : c < 10 ^ n :=
    (Nat.length_toDigits_le_iff (by decide) (hn ▸ Nat.length_toDigits_pos)).1 (Nat.le_of_eq hn)
  have h2 : 2 ≤ magnitude (4 * m - below m e) e := by
    have := below_le m e
    exact Nat.le_trans (by omega) (Nat.le_mul_of_pos_right _ (Nat.two_pow_pos _))
  obtain ⟨u, hu⟩ : ∃ u, 2 ^ (0 + 1074 : Int).toNat = u := ⟨_, rfl⟩
  have hu0 : 0 < u := hu ▸ Nat.two_pow_pos _
  have hu2 : 2 * u ≤ 10 ^ 324 := hu ▸ by decide +kernel
  have hl := h.lower
  rw [magnitude.eq_def c, hu] at hl
  rw [hn]
  refine (Nat.pow_lt_pow_iff_right (a := 10) (by decide)).1 ?_
  refine Nat.lt_of_mul_lt_mul_left (a := 2) ?_
  calc 2 * 10 ^ k ≤ magnitude (4 * m - below m e) e * 10 ^ k := Nat.mul_le_mul_right _ h2
    _ ≤ 4 * (c * u) := hl
    _ < 4 * (10 ^ n * u) :=
        Nat.mul_lt_mul_of_pos_left (Nat.mul_lt_mul_of_pos_right hc hu0) (by decide)
    _ = 2 * (10 ^ n * (2 * u)) := by ring
    _ ≤ 2 * (10 ^ n * 10 ^ 324) := Nat.mul_le_mul_left 2 (Nat.mul_le_mul_left _ hu2)
    _ = 2 * 10 ^ (n + 324) := by rw [Nat.pow_add]

/-- the numbers are not larger than the largest -/
theorem digits_le (hc : Canonical m e) (h : Near m e (magnitude c 0) (10 ^ k)) :
    (Text.ofNat c).length ≤ 309 + k := by
  have hm : m < 2 ^ 53 := lt_two_pow_of_canonical hc
  have hle := hc.le
  obtain ⟨u, hu⟩ : ∃ u, 2 ^ (0 + 1074 : Int).toNat = u := ⟨_, rfl⟩
  have hu0 : 0 < u := hu ▸ Nat.two_pow_pos _
  have hmax : 2 ^ 55 * 2 ^ (971 + 1074 : Int).toNat ≤ 4 * (10 ^ 309 * u) :=
    hu ▸ by decide +kernel
  have hr := h.upper
  rw [magnitude.eq_def c, hu, magnitude] at hr
  refine (Nat.length_toDigits_le_iff (by decide) (by omega)).2 ?_
  refine Nat.lt_of_mul_lt_mul_right (a := 4 * u) ?_
  calc c * (4 * u) = 4 * (c * u) := Nat.mul_left_comm ..
    _ ≤ (4 * m + 2) * 2 ^ (e + 1074).toNat * 10 ^ k := hr
    _ ≤ (4 * m + 2) * 2 ^ (971 + 1074 : Int).toNat * 10 ^ k :=
        Nat.mul_le_mul_right _ (Nat.mul_le_mul_left _ (Nat.pow_le_pow_right (by decide) (by omega)))
    _ < 2 ^ 55 * 2 ^ (971 + 1074 : Int).toNat * 10 ^ k :=
        Nat.mul_lt_mul_of_pos_right (Nat.mul_lt_mul_of_pos_right (by omega) (Nat.two_pow_pos _))
          (Nat.pow_pos (by decide))
    _ ≤ 4 * (10 ^ 309 * u) * 10 ^ k := Nat.mul_le_mul_right _ hmax
    _ = 10 ^ (309 + k) * (4 * u) := by
        rw [Nat.pow_add, Nat.mul_left_comm 4, Nat.mul_right_comm]

theorem pos_of_near (hm : 0 < m) (h : Near m e (magnitude c 0) (10 ^ k)) : 0 < c := by
  have hl := h.lower
  have := below_le m e
  have hp : 0 < magnitude (4 * m - below m e) e * 10 ^ k :=
    Nat.mul_pos (magnitude_pos (by omega) e) (Nat.pow_pos (by decide))
  refine Nat.pos_of_ne_zero fun h0 => ?_
  rw [h0, magnitude.eq_def 0, Nat.zero_mul] at hl
  omega

theorem ofScientific_of_near (hm : 0 < m) (hc : Canonical m e)
    (h : Near m e (magnitude c 0) (10 ^ k)) :
    UnpackedFloat.ofScientific Format.binary64 c (-k) = .finite .positive m e hm := by
  have hc0 : 0 < c := pos_of_near hm h
  have hlen : (Text.ofNat c).length ≤ c.log2 + 1 :=
    (Nat.length_toDigits_le_iff (by decide) (Nat.succ_pos _)).2
      (Nat.lt_of_lt_of_le Nat.lt_log2_self (Nat.pow_le_pow_left (by decide) _))
  have hk := lt_digits_add hm h
  have h1 : ¬ -(k : Int) > 2 ^ Format.binary64.exponentBits := by
    show ¬ -(k : Int) > 2 ^ 11
    omega
  have h2 : ¬ -(k : Int) < -(2 ^ Format.binary64.exponentBits + (c.log2 : Int)) := by
    show ¬ -(k : Int) < -(2 ^ 11 + (c.log2 : Int))
    omega
  rw [UnpackedFloat.ofScientific, dif_neg (Nat.ne_of_gt hc0), if_neg h1, if_neg h2]
  cases k with
  | zero =>
    have hs : c <<< Format.binary64.mantissaBits * 10 ^ (-(0 : Nat) : Int).toNat = c * 2 ^ 53 :=
      (Nat.mul_one _).trans (Nat.shiftLeft_eq ..)
    have hx : -(Format.binary64.mantissaBits : Int) + 0 = 0 - (53 : Nat) := rfl
    rw [if_pos (by omega)]
    refine mul_of_near hm hc _ _ (by decide) ?_ ?_
    · rw [hs]
      omega
    · rw [hs, hx, magnitude_mul_two_pow c (by decide)]
      exact h
  | succ k =>
    rw [if_neg (by omega)]
    exact div_of_near hm hc _ _ (by decide) h

/-! the short way, with whole numbers and powers of ten that are not rounded -/

section
variable {v : Float} {hm : 0 < m} (hv : v.toModel.unpack = .finite .positive m e hm)
  (h53 : c < 2 ^ 53)
include hv h53

theorem toFloat_div_power (h : Near m e (magnitude c 0) (10 ^ k))
    (hk : k < Float.exactlyRepresentablePowersOfTen.size) :
    c.toUInt64.toFloat / Float.exactlyRepresentablePowersOfTen[k] = v := by
  have hc := canonical_unpack hv
  have hc0 : 0 < c := pos_of_near hm h
  have hlog : c.log2 ≤ 52 := log2_le h53
  obtain ⟨m', e', hm', hu, hlo, hhi, hp⟩ := exists_unpack_power hk
  obtain ⟨j, hj⟩ : ∃ j, 52 - c.log2 = j := ⟨_, rfl⟩
  have hcj : 0 < c * 2 ^ j := Nat.mul_pos hc0 (Nat.two_pow_pos j)
  have hmag : magnitude (c * 2 ^ j) (0 - j - e') = magnitude c (-e') := by
    rw [show (0 : Int) - j - e' = -e' - j by omega]
    exact magnitude_mul_two_pow c (by omega)
  have hcross : magnitude c 0 * m' = magnitude c (-e') * 10 ^ k := by
    refine Nat.eq_of_mul_eq_mul_right (Nat.two_pow_pos 52) ?_
    calc magnitude c 0 * m' * 2 ^ 52
        = c * m' * (2 ^ (0 + 1074 : Int).toNat * 2 ^ 52) := by
          rw [magnitude]
          ring
      _ = c * m' * (2 ^ (-e' + 1074).toNat * 2 ^ (e' + 52).toNat) := by
          rw [← Nat.pow_add, ← Nat.pow_add]
          congr 2
          omega
      _ = magnitude c (-e') * (m' * 2 ^ (e' + 52).toNat) := by
          rw [magnitude]
          ring
      _ = magnitude c (-e') * 10 ^ k * 2 ^ 52 := by rw [hp, Nat.mul_assoc]
  show Float.ofModel (Float.Model.pack (UnpackedFloat.div Format.binary64
    c.toUInt64.toFloat.toModel.unpack Float.exactlyRepresentablePowersOfTen[k].toModel.unpack)) = v
  rw [unpack_toFloat hc0 h53 hj hcj, hu, div_of_near hm hc _ hm' (by omega)]
  · exact ofModel_pack hv
  · rw [hmag]
    exact h.congr (Nat.pow_pos (by decide)) hm' hcross

theorem toFloat_mul_power_zero (h : Near m e (magnitude c 0) (10 ^ 0))
    (hk : 0 < Float.exactlyRepresentablePowersOfTen.size) :
    c.toUInt64.toFloat * Float.exactlyRepresentablePowersOfTen[0] = v := by
  have hc := canonical_unpack hv
  have hc0 : 0 < c := pos_of_near hm h
  obtain ⟨j, hj⟩ : ∃ j, 52 - c.log2 = j := ⟨_, rfl⟩
  have hcj : 0 < c * 2 ^ j := Nat.mul_pos hc0 (Nat.two_pow_pos j)
  have hone : Float.exactlyRepresentablePowersOfTen[0].toModel.unpack
      = .finite .positive (2 ^ 52) (-52) (by decide) := unpack_one
  show Float.ofModel (Float.Model.pack (UnpackedFloat.mul Format.binary64
    c.toUInt64.toFloat.toModel.unpack Float.exactlyRepresentablePowersOfTen[0].toModel.unpack)) = v
  rw [unpack_toFloat hc0 h53 hj hcj, hone, mul_of_near hm hc _ _ (by omega)]
  · exact ofModel_pack hv
  · exact Nat.le_mul_of_pos_left _ hcj
  · have hx : (0 : Int) - j + -52 = 0 - (j + 52 : Nat) := by omega
    rw [Nat.mul_assoc, ← Nat.pow_add, hx, magnitude_mul_two_pow c (by omega)]
    exact h

end

/-- a decimal in the interval of a number is read as this number -/
theorem ofDecimal_of_near {v : Float} {hm : 0 < m}
    (hv : v.toModel.unpack = .finite .positive m e hm)
    (h : Near m e (magnitude c 0) (10 ^ k)) : ofDecimal c (-k) = v := by
  have hc := canonical_unpack hv
  have hlo := lt_digits_add hm h
  have hhi := digits_le hc h
  have h1 : ¬ (c = 0 ∨ -(k : Int) + (Text.ofNat c).length < -largestPower) := by
    rintro (h0 | h0)
    · exact Nat.ne_of_gt (pos_of_near hm h) h0
    · rw [largestPower] at h0
      omega
  have h2 : ¬ largestPower < -(k : Int) + (Text.ofNat c).length := by
    rw [largestPower]
    omega
  rw [ofDecimal, if_neg h1, if_neg h2, Int.natAbs_neg, Int.natAbs_natCast, Float.ofScientific]
  have hs : 0 < k → decide (-(k : Int) < 0) = true := fun h0 => decide_eq_true (by omega)
  by_cases hf : c < 2 ^ 53 ∧ k ≤ 22
  · rw [dif_pos hf]
    cases k with
    | zero => exact toFloat_mul_power_zero hv hf.1 h (by decide)
    | succ k =>
      exact (if_pos (hs k.succ_pos)).trans (toFloat_div_power hv hf.1 h (Nat.lt_succ_of_le hf.2))
  · have hr : Float.ofModel (Float.Model.ofScientific c (-k)) = v := by
      rw [Float.Model.ofScientific, ofScientific_of_near hm hc h]
      exact ofModel_pack hv
    rw [dif_neg hf]
    cases k with
    | zero => exact hr
    | succ k =>
      show Float.ofModel (Float.Model.ofScientific c (if _ then Int.negOfNat (k + 1) else _)) = v
      rw [if_pos (hs k.succ_pos)]
      exact hr

end

end CurveStudy.Double
