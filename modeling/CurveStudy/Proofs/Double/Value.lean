import Mathlib.Algebra.Order.Field.Basic
import CurveStudy.Number
import CurveStudy.Proofs.Double.OfDecimal
import CurveStudy.Proofs.Double.Text

/-!
# Exact values and whole numbers

The exact value of a finite number is its number of steps, each of which is `2 ^ -1074`.  A whole
number below `2 ^ 53` is not rounded, and a product with one is off by less than one unit in its
last place.

* `HasSteps.toRat_eq`   the exact value;
* `unpack_ofNat`   whole numbers;
* `HasSteps.mul_ofNat`, `abs_toRat_mul_ofNat_sub_le`   products with them.
-/

namespace CurveStudy.Double
open Float.Model Float.Model.UnpackedFloat

theorem magnitude_eq_mul_zpow {m : Nat} {e : Int} (he : -1074 ≤ e) :
    (magnitude m e : Rat) = m * 2 ^ e * 2 ^ 1074 := by
  rw [magnitude, Nat.cast_mul, Nat.cast_pow, Nat.cast_ofNat, ← zpow_natCast,
    Int.toNat_of_nonneg (by omega), zpow_add₀ two_ne_zero, mul_assoc]
  norm_cast

namespace HasSteps
variable {v : Float}

theorem toRat_eq {n : Int} (h : HasSteps v n) : Number.toRat v = n / 2 ^ 1074 := by
  show (Binary.ofFloat v).toRat = _
  have h2 : (2 : Rat) ^ 1074 ≠ 0 := pow_ne_zero _ two_ne_zero
  unfold HasSteps at h
  generalize hv : v.toModel.unpack = u at h
  rw [Binary.toRat, Binary.magnitude]
  cases h with
  | zero s =>
    obtain ⟨hm, -⟩ := ofFloat_of_zero hv
    simp [hm]
  | @finite s m e hm hc =>
    obtain ⟨hm, he, hn⟩ := ofFloat_of_finite hv
    have hmag := magnitude_eq_mul_zpow (m := m) hc.ge
    rw [hm, he, eq_div_iff h2]
    cases s with
    | negative =>
      rw [if_pos (hn.2 rfl), apply_negative, Int.cast_neg, Int.cast_natCast, hmag, neg_mul]
    | positive =>
      rw [if_neg fun h => Sign.noConfusion (hn.1 h), apply_positive, Int.cast_natCast, hmag]

/-- a number above zero is its mantissa and its exponent -/
theorem exists_unpack {n : Nat} (h : HasSteps v n) (h0 : 0 < n) :
    ∃ m e hm, v.toModel.unpack = .finite .positive m e hm ∧ Canonical m e ∧ magnitude m e = n := by
  obtain ⟨a, ha⟩ : ∃ a : Int, (n : Int) = a := ⟨_, rfl⟩
  rw [HasSteps, ha] at h
  generalize hv : v.toModel.unpack = u at h
  cases h with
  | zero s => omega
  | @finite s m e hm hc =>
    cases s with
    | negative =>
      rw [apply_negative] at ha
      omega
    | positive =>
      rw [apply_positive] at ha
      exact ⟨m, e, hm, rfl, hc, by omega⟩

end HasSteps

section
variable {v w : Float} (hv : Scalar.isFinite v)
include hv

theorem lt_iff_toRat (hw : Scalar.isFinite w) : v < w ↔ Number.toRat v < Number.toRat w := by
  obtain ⟨a, ha⟩ := exists_hasSteps hv
  obtain ⟨b, hb⟩ := exists_hasSteps hw
  rw [ha.lt_iff hb, ha.toRat_eq, hb.toRat_eq, div_lt_div_iff_of_pos_right (by positivity),
    Int.cast_lt]

theorem le_iff_toRat (hw : Scalar.isFinite w) : v ≤ w ↔ Number.toRat v ≤ Number.toRat w := by
  obtain ⟨a, ha⟩ := exists_hasSteps hv
  obtain ⟨b, hb⟩ := exists_hasSteps hw
  rw [ha.le_iff hb, ha.toRat_eq, hb.toRat_eq, div_le_div_iff_of_pos_right (by positivity),
    Int.cast_le]

/-- how far a number is from a zero -/
theorem abs_zero_sub {s : Sign} (hw : w.toModel.unpack = .zero s) :
    Scalar.isFinite (Number.abs (w - v))
      ∧ Number.toRat (Number.abs (w - v)) = |Number.toRat v| := by
  obtain ⟨a, ha⟩ := exists_hasSteps hv
  have hz : HasSteps w 0 := by
    rw [HasSteps, hw]
    exact .zero s
  have habs := (hz.zero_sub ha).abs
  refine ⟨habs.isFinite, ?_⟩
  rw [habs.toRat_eq, ha.toRat_eq, abs_div, abs_of_pos (by positivity : (0 : Rat) < 2 ^ 1074),
    Int.natAbs_neg, Int.cast_natCast, Nat.cast_natAbs, Int.cast_abs]

end

/-! ## whole numbers -/

theorem near_self (m : Nat) (e : Int) (hm : 0 < m) : Near m e (magnitude m e) (10 ^ 0) := by
  have hp : 0 < 2 ^ (e + 1074).toNat := Nat.two_pow_pos _
  have hb : 1 ≤ below m e := by
    unfold below
    split <;> decide
  have hlow : magnitude (4 * m - below m e) e < magnitude (4 * m) e :=
    Nat.mul_lt_mul_of_pos_right (by omega) hp
  have hhigh : magnitude (4 * m) e < magnitude (4 * m + 2) e :=
    Nat.mul_lt_mul_of_pos_right (by omega) hp
  have h4 : magnitude (4 * m) e = 4 * magnitude m e := Nat.mul_assoc ..
  exact ⟨by omega, by omega, fun _ => by omega⟩

section
variable {n k : Nat} (h0 : 0 < n) (h53 : n < 2 ^ 53)
include h0 h53

theorem unpack_ofNat (hk : 52 - n.log2 = k) (hp : 0 < n * 2 ^ k) :
    (Number.ofNat n : Float).toModel.unpack = .finite .positive (n * 2 ^ k) (0 - k) hp := by
  have hu := unpack_toFloat h0 h53 hk hp
  have hlog := log2_le h53
  have hmag : magnitude (n * 2 ^ k) (0 - k) = magnitude n 0 := magnitude_mul_two_pow n (by omega)
  have hn : (Number.ofNat n : Float) = n.toUInt64.toFloat :=
    ofDecimal_of_near (k := 0) hu (hmag ▸ near_self _ _ hp)
  rw [hn, hu]

end

theorem HasSteps.mul_ofNat {v : Float} {a d k : Nat} (h : HasSteps v a) (ha : 2 ^ 1000 ≤ a)
    (h0 : 0 < d) (h53 : d < 2 ^ 53) (hk : k ≤ 2044) (hlt : a * d < 2 ^ (k + 53)) :
    ∃ n : Nat, HasSteps (v * Number.ofNat d) n ∧ n ≤ a * d + 2 ^ k ∧ a * d ≤ n + 2 ^ k := by
  obtain ⟨m, e, hm, hv, hc, rfl⟩ := h.exists_unpack (Nat.lt_of_lt_of_le (Nat.two_pow_pos _) ha)
  obtain ⟨j, hj⟩ : ∃ j, 52 - d.log2 = j := ⟨_, rfl⟩
  have hp : 0 < d * 2 ^ j := Nat.mul_pos h0 (Nat.two_pow_pos j)
  have hd := unpack_ofNat h0 h53 hj hp
  -- a number this large has room for the exponent of the other one
  have he : -1074 ≤ e - j := by
    have hlt : 2 ^ 1000 < 2 ^ (53 + (e + 1074).toNat) := by
      rw [Nat.pow_add]
      exact Nat.lt_of_le_of_lt ha
        (Nat.mul_lt_mul_of_pos_right (lt_two_pow_of_canonical hc) (Nat.two_pow_pos _))
    have := (Nat.pow_lt_pow_iff_right (by decide)).1 hlt
    omega
  have hmag : magnitude (m * d * 2 ^ j) (e - j) = magnitude m e * d := by
    rw [magnitude_mul_two_pow _ he, magnitude, magnitude, Nat.mul_right_comm]
  have h52 : 52 ≤ (m * d * 2 ^ j).log2 := by
    have hlog := log2_le h53
    rw [Nat.mul_assoc, Nat.le_log2 (Nat.ne_of_gt (Nat.mul_pos hm hp))]
    calc 2 ^ 52 = 2 ^ d.log2 * 2 ^ j := by rw [← Nat.pow_add]; congr 1; omega
      _ ≤ d * 2 ^ j := Nat.mul_le_mul_right _ (Nat.log2_self_le (Nat.ne_of_gt h0))
      _ ≤ m * (d * 2 ^ j) := Nat.le_mul_of_pos_left _ hm
  obtain ⟨n, hn, hup, hdown⟩ := steps_roundWithAccuracy .positive (m := m * d * 2 ^ j)
    (e := e - j) (Nat.mul_pos (Nat.mul_pos hm h0) (Nat.two_pow_pos j)) he
    (by rw [targetExponent_eq, totalExponent]; omega) hk (hmag ▸ hlt)
  rw [hmag] at hup hdown
  refine ⟨n, ?_, hup, hdown⟩
  show Steps (Float.Model.pack (UnpackedFloat.mul Format.binary64 v.toModel.unpack
    (Number.ofNat d : Float).toModel.unpack)).unpack n
  rw [hv, hd]
  show Steps (Float.Model.pack (roundWithAccuracy Format.binary64 .positive (m * (d * 2 ^ j))
    (e + (0 - j)) .exact)).unpack n
  rw [← Nat.mul_assoc, show e + (0 - (j : Int)) = e - j by omega]
  exact hn.pack

/-- a number that is not too small has steps enough to be multiplied -/
theorem exists_steps_of_le {v : Float} (hv : Scalar.isFinite v)
    (h : 1 / 2 ^ 74 ≤ Number.toRat v) : ∃ a : Nat, HasSteps v a ∧ 2 ^ 1000 ≤ a := by
  obtain ⟨a, ha⟩ := exists_hasSteps hv
  have hk : (2 : Rat) ^ 1074 = 2 ^ 1000 * 2 ^ 74 := pow_add 2 1000 74
  have ha0 : ((2 ^ 1000 : Nat) : Rat) ≤ a := by
    rw [ha.toRat_eq, hk, div_le_div_iff₀ (by positivity) (by positivity), one_mul] at h
    rw [Nat.cast_pow, Nat.cast_ofNat]
    exact le_of_mul_le_mul_right h (by positivity)
  have hpos : (0 : Rat) ≤ a := (Nat.cast_nonneg _).trans ha0
  obtain ⟨b, rfl⟩ := Int.eq_ofNat_of_zero_le (by exact_mod_cast hpos)
  exact ⟨b, ha, Nat.cast_le.1 (ha0.trans_eq (Int.cast_natCast b))⟩

/-- a product below one is off by `2 ^ -53` at most -/
theorem abs_toRat_mul_ofNat_sub_le {v : Float} (hv : Scalar.isFinite v)
    (hlo : 1 / 2 ^ 74 ≤ Number.toRat v) {d : Nat} (h0 : 0 < d) (h53 : d < 2 ^ 53)
    (hlt : Number.toRat v * d < 1) :
    |Number.toRat (v * Number.ofNat d) - Number.toRat v * d| ≤ 1 / 2 ^ 53 := by
  obtain ⟨a, ha, ha0⟩ := exists_steps_of_le hv hlo
  obtain ⟨k, hk⟩ : ∃ k, 1021 = k := ⟨_, rfl⟩
  have hU : (2 : Rat) ^ 1074 = 2 ^ k * 2 ^ 53 := hk ▸ pow_add 2 1021 53
  have hU0 : (0 : Rat) < 2 ^ k * 2 ^ 53 := by positivity
  rw [ha.toRat_eq, hU, Int.cast_natCast] at hlt ⊢
  have hlt' : a * d < 2 ^ (k + 53) := by
    rw [div_mul_eq_mul_div, div_lt_one hU0, ← pow_add] at hlt
    exact_mod_cast hlt
  obtain ⟨n, hn, hup, hdown⟩ := ha.mul_ofNat ha0 h0 h53 (by omega) hlt'
  have hup : (n : Rat) ≤ a * d + 2 ^ k := by exact_mod_cast hup
  have hdown : (a * d : Rat) ≤ n + 2 ^ k := by exact_mod_cast hdown
  rw [hn.toRat_eq, hU, Int.cast_natCast]
  calc |(n : Rat) / (2 ^ k * 2 ^ 53) - a / (2 ^ k * 2 ^ 53) * d|
      = |(n : Rat) - a * d| / (2 ^ k * 2 ^ 53) := by
        rw [div_mul_eq_mul_div, ← sub_div, abs_div, abs_of_pos hU0]
    _ ≤ 2 ^ k / (2 ^ k * 2 ^ 53) := by
        gcongr
        exact abs_le.2 ⟨by linarith, by linarith⟩
    _ = 1 / 2 ^ 53 := by rw [div_mul_eq_div_div, div_self (by positivity)]

end CurveStudy.Double
