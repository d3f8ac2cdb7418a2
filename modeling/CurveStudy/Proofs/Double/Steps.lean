import Mathlib.Tactic.Ring
import CurveStudy.Number
import CurveStudy.Proofs.Double

/-!
# Finite doubles as whole numbers

A finite number is a whole number of steps away from zero, a step being the smallest positive
number, `2 ^ -1074`.  Comparisons are those of the numbers of steps.  A sum or a difference is that
of the numbers of steps but for less than one unit in its last place.

* `Steps u n`   the number `u`, taken apart, is `n` steps away from zero; `HasSteps` for a `Float`;
* `HasSteps.of_toBits`   a number that is given by its bits;
* `Steps.compare_eq`, `HasSteps.lt_iff`, `HasSteps.le_iff`   comparison;
* `lt_infinity`, `neg_infinity_lt`   the infinities;
* `Steps.pack`   a number that is put into bits and taken out again;
* `steps_round`  rounding is off by one unit in the last place at most;
* `HasSteps.neg`, `HasSteps.abs`, `HasSteps.add`, `HasSteps.sub`   arithmetic.
-/

namespace CurveStudy.Double
open Float.Model Float.Model.UnpackedFloat

/-! ## canonical mantissas -/

namespace Canonical
variable {m m' : Nat} {e e' : Int}

theorem ge (h : Canonical m e) : -1074 ≤ e := by
  have ht := h.target
  rw [targetExponent_eq] at ht
  omega

/-- above the smallest exponent the hidden bit is set -/
theorem two_pow_le (h : Canonical m e) (he : e ≠ -1074) : 2 ^ 52 ≤ m := by
  have ht := h.target
  rw [targetExponent_eq, totalExponent] at ht
  have hl : m.log2 = 52 := by omega
  have h0 : m ≠ 0 := by
    rintro rfl
    rw [Nat.log2_zero] at hl
    cases hl
  have := Nat.log2_self_le h0
  rwa [hl] at this

theorem of_lt {e : Int} (hm : m < 2 ^ 53) (h1 : -1074 ≤ e) (h2 : e ≤ 971)
    (h : 2 ^ 52 ≤ m ∨ e = -1074) : Canonical m e := by
  rcases h with h | rfl
  · obtain ⟨m, rfl⟩ := Nat.exists_eq_add_of_le h
    exact canonical_normal (by omega) h1 h2
  · by_cases hs : m < 2 ^ 52
    · exact canonical_subnormal hs
    · obtain ⟨m, rfl⟩ := Nat.exists_eq_add_of_le (Nat.not_lt.1 hs)
      exact canonical_normal (by omega) h1 h2

end Canonical

/-- the steps of a mantissa and an exponent -/
def magnitude (m : Nat) (e : Int) : Nat := m * 2 ^ (e + 1074).toNat

theorem magnitude_pos {m : Nat} (hm : 0 < m) (e : Int) : 0 < magnitude m e :=
  Nat.mul_pos hm (Nat.two_pow_pos _)

theorem magnitude_lt_of_lt {m m' : Nat} {e e' : Int} (h : Canonical m e) (h' : Canonical m' e')
    (he : e < e') : magnitude m e < magnitude m' e' := by
  have hge := h.ge
  have hm : m < 2 ^ 53 := lt_two_pow_of_canonical h
  have hm' : 2 ^ 52 ≤ m' := h'.two_pow_le (by omega)
  calc magnitude m e < 2 ^ 53 * 2 ^ (e + 1074).toNat :=
        Nat.mul_lt_mul_of_pos_right hm (Nat.two_pow_pos _)
    _ = 2 ^ 52 * 2 ^ ((e + 1074).toNat + 1) := by rw [← Nat.pow_add, ← Nat.pow_add]; congr 1; omega
    _ ≤ 2 ^ 52 * 2 ^ (e' + 1074).toNat :=
        Nat.mul_le_mul_left _ (Nat.pow_le_pow_right (by omega) (by omega))
    _ ≤ magnitude m' e' := Nat.mul_le_mul_right _ hm'

/-- mantissas move against exponents -/
theorem magnitude_mul_two_pow (m : Nat) {e : Int} {k : Nat} (h : -1074 ≤ e - k) :
    magnitude (m * 2 ^ k) (e - k) = magnitude m e := by
  rw [magnitude, magnitude, Nat.mul_assoc, ← Nat.pow_add]
  congr 2
  omega

/-! ## signs -/

@[simp] theorem apply_negative (n : Int) : Sign.negative.apply n = -n := rfl
@[simp] theorem apply_positive (n : Int) : Sign.positive.apply n = n := rfl

@[simp] theorem apply_neg (s : Sign) (n : Int) : (-s).apply n = -s.apply n := by
  cases s with
  | negative => exact (Int.neg_neg n).symm
  | positive => rfl

/-! ## numbers of steps -/

/-- the number is zero, or canonical, and `n` steps away from zero -/
inductive Steps : UnpackedFloat → Int → Prop where
  | zero (s : Sign) : Steps (.zero s) 0
  | finite (s : Sign) {m : Nat} {e : Int} (hm : 0 < m) (h : Canonical m e) :
      Steps (.finite s m e hm) (s.apply (magnitude m e))

theorem compare_magnitude {m m' : Nat} {e e' : Int} (h : Canonical m e) (h' : Canonical m' e') :
    (compare e e').then (compare m m') = compare (magnitude m e) (magnitude m' e') := by
  rcases Int.lt_trichotomy e e' with he | rfl | he
  · rw [Int.compare_eq_lt.2 he, Nat.compare_eq_lt.2 (magnitude_lt_of_lt h h' he)]
    rfl
  · have hc : 0 < 2 ^ (e + 1074).toNat := Nat.two_pow_pos _
    rw [Int.compare_eq_eq.2 rfl]
    show compare m m' = compare (m * _) (m' * _)
    rcases Nat.lt_trichotomy m m' with hm | rfl | hm
    · rw [Nat.compare_eq_lt.2 hm, Nat.compare_eq_lt.2 (Nat.mul_lt_mul_of_pos_right hm hc)]
    · rw [Nat.compare_eq_eq.2 rfl, Nat.compare_eq_eq.2 rfl]
    · rw [Nat.compare_eq_gt.2 hm, Nat.compare_eq_gt.2 (Nat.mul_lt_mul_of_pos_right hm hc)]
  · rw [Int.compare_eq_gt.2 he, Nat.compare_eq_gt.2 (magnitude_lt_of_lt h' h he)]
    rfl

theorem compare_neg_neg (a b : Nat) : compare (-(a : Int)) (-b) = (compare a b).swap := by
  rcases Nat.lt_trichotomy a b with h | rfl | h
  · rw [Nat.compare_eq_lt.2 h]
    exact Int.compare_eq_gt.2 (by omega)
  · rw [Nat.compare_eq_eq.2 rfl]
    exact Int.compare_eq_eq.2 rfl
  · rw [Nat.compare_eq_gt.2 h]
    exact Int.compare_eq_lt.2 (by omega)

theorem compare_natCast (a b : Nat) : compare (a : Int) b = compare a b := by
  rcases Nat.lt_trichotomy a b with h | rfl | h
  · rw [Nat.compare_eq_lt.2 h]
    exact Int.compare_eq_lt.2 (by omega)
  · rw [Nat.compare_eq_eq.2 rfl]
    exact Int.compare_eq_eq.2 rfl
  · rw [Nat.compare_eq_gt.2 h]
    exact Int.compare_eq_gt.2 (by omega)

namespace Steps
variable {u v : UnpackedFloat} {a b : Int}

theorem isFinite (h : Steps u a) : u.isFinite := by
  cases h <;> rfl

/-- the order of two numbers is the order of their steps -/
theorem compare_eq (h : Steps u a) (h' : Steps v b) :
    UnpackedFloat.compare u v = some (compare a b) := by
  cases h with
  | zero s =>
    cases h' with
    | zero s' => rfl
    | @finite s' m' e' hm' h' =>
      have hp := magnitude_pos hm' e'
      cases s' with
      | negative => exact congrArg some (Int.compare_eq_gt.2 (by simpa using hp)).symm
      | positive => exact congrArg some (Int.compare_eq_lt.2 (by simpa using hp)).symm
  | @finite s m e hm h =>
    have hp := magnitude_pos hm e
    cases h' with
    | zero s' =>
      cases s with
      | negative => exact congrArg some (Int.compare_eq_lt.2 (by simpa using hp)).symm
      | positive => exact congrArg some (Int.compare_eq_gt.2 (by simpa using hp)).symm
    | @finite s' m' e' hm' h' =>
      have hp' := magnitude_pos hm' e'
      cases s <;> cases s'
      case negative.negative =>
        rw [apply_negative, apply_negative, compare_neg_neg, ← compare_magnitude h h']
        rfl
      case negative.positive =>
        refine congrArg some (Int.compare_eq_lt.2 ?_).symm
        rw [apply_negative, apply_positive]
        omega
      case positive.negative =>
        refine congrArg some (Int.compare_eq_gt.2 ?_).symm
        rw [apply_negative, apply_positive]
        omega
      case positive.positive =>
        rw [apply_positive, apply_positive, compare_natCast, ← compare_magnitude h h']
        rfl

/-- infinity lies above all finite numbers -/
theorem compare_infinity (h : Steps u a) :
    UnpackedFloat.compare u (.infinity .positive) = some .lt := by
  cases h <;> rfl

/-- the opposite of infinity lies below them -/
theorem compare_neg_infinity (h : Steps u a) :
    UnpackedFloat.compare (.infinity .negative) u = some .lt := by
  cases h <;> rfl

theorem neg (h : Steps u a) : Steps u.neg (-a) := by
  cases h with
  | zero s => exact .zero (-s)
  | finite s hm h =>
    rw [← apply_neg]
    exact .finite (-s) hm h

end Steps

/-! ## into bits and out again -/

section
variable (s : Sign) {x : BitVec Format.binary64.exponentBits}
  {m : BitVec Format.binary64.mantissaBitsWithoutImplicit}

@[simp] theorem unpackSign_packComponents :
    unpackSign (packComponents Format.binary64 s x m) = s.toBitVec := by
  ext i hi
  obtain rfl : i = 0 := by omega
  show ((s.toBitVec ++ x ++ m).extractLsb 63 63).getLsbD 0 = _
  rw [BitVec.getLsbD_extractLsb, BitVec.getLsbD_append, BitVec.getLsbD_append]
  rfl

@[simp] theorem ofBitVec_toBitVec : Sign.ofBitVec s.toBitVec = s := by
  cases s <;> rfl

theorem unpack_normal (h0 : x ≠ 0#_) (h1 : x ≠ -1#_) (hm : 0 < (1#1 ++ m).toNat) :
    unpack Format.binary64 (packComponents Format.binary64 s x m)
      = .finite s (1#1 ++ m).toNat ((x.toNat : Int) - 1075) hm := by
  have hx : unpackExponent (packComponents Format.binary64 s x m) = x :=
    unpackExponent_packComponents
  have hf : unpackMantissa (packComponents Format.binary64 s x m) = m :=
    unpackMantissa_packComponents
  have hs := unpackSign_packComponents s (x := x) (m := m)
  generalize packComponents Format.binary64 s x m = b at hx hf hs
  subst hx hf
  unfold UnpackedFloat.unpack
  dsimp only
  rw [if_neg h1, if_neg h0, hs, ofBitVec_toBitVec]
  rfl

theorem unpack_subnormal (h : m ≠ 0#_) (hm : 0 < m.toNat) :
    unpack Format.binary64 (packComponents Format.binary64 s 0#_ m)
      = .finite s m.toNat (-1074) hm := by
  have hx : unpackExponent (packComponents Format.binary64 s 0#_ m) = 0#_ :=
    unpackExponent_packComponents
  have hf : unpackMantissa (packComponents Format.binary64 s 0#_ m) = m :=
    unpackMantissa_packComponents
  have hs := unpackSign_packComponents s (x := 0#_) (m := m)
  generalize packComponents Format.binary64 s 0#_ m = b at hx hf hs
  subst hf
  unfold UnpackedFloat.unpack
  dsimp only
  rw [hx, if_neg (by decide), if_pos rfl, dif_neg h, hs, ofBitVec_toBitVec]
  rfl

end

theorem finite_congr {s : Sign} {m m' : Nat} {e e' : Int} (hm : 0 < m) (hm' : 0 < m')
    (h : m = m') (he : e = e') : UnpackedFloat.finite s m e hm = .finite s m' e' hm' := by
  subst h he
  rfl

theorem pack_normal (s : Sign) {m : Nat} {e : Int} (hm : 0 < m) (h : m.log2 = 52) (he : e ≤ 971) :
    UnpackedFloat.pack Format.binary64 (.finite s m e hm)
      = packComponents Format.binary64 s (.ofNat _ (e + (1023 : Nat) + (52 : Nat)).toNat)
        (.ofNat _ m) := by
  have hbias : Format.binary64.exponentBias = 1023 := rfl
  unfold UnpackedFloat.pack
  dsimp only
  rw [hbias, if_neg (by omega), if_pos (by rw [h]; rfl)]

theorem pack_subnormal (s : Sign) {m : Nat} {e : Int} (hm : 0 < m) (h : m.log2 < 52)
    (he : e ≤ 971) : UnpackedFloat.pack Format.binary64 (.finite s m e hm)
      = packComponents Format.binary64 s 0#_ (.ofNat _ m) := by
  have hbias : Format.binary64.exponentBias = 1023 := rfl
  unfold UnpackedFloat.pack
  dsimp only
  rw [hbias, if_neg (by omega), if_neg (by show m.log2 + 1 ≠ 53; omega)]

theorem unpack_pack_finite (s : Sign) {m : Nat} {e : Int} (hm : 0 < m) (h : Canonical m e) :
    (Float.Model.pack (.finite s m e hm)).unpack = .finite s m e hm := by
  have hge := h.ge
  have hle := h.le
  have hlt : m < 2 ^ 53 := lt_two_pow_of_canonical h
  show unpack Format.binary64 (UnpackedFloat.pack Format.binary64 (.finite s m e hm)) = _
  by_cases hn : 2 ^ 52 ≤ m
  · have hlog : m.log2 = 52 := (Nat.log2_eq_iff (by omega)).2 ⟨hn, hlt⟩
    have hx : (BitVec.ofNat 11 (e + (1023 : Nat) + (52 : Nat)).toNat).toNat
        = (e + (1023 : Nat) + (52 : Nat)).toNat := by
      rw [BitVec.toNat_ofNat, Nat.mod_eq_of_lt (by omega)]
    have hm' : (1#1 ++ BitVec.ofNat 52 m).toNat = m := by
      rw [toNat_one_append, BitVec.toNat_ofNat]
      omega
    rw [pack_normal s hm hlog hle]
    refine (unpack_normal s ?_ ?_ (by rw [hm']; exact hm)).trans (finite_congr _ _ hm' ?_)
    · intro h0
      have h0 := congrArg BitVec.toNat h0
      rw [hx] at h0
      change _ = 0 at h0
      omega
    · intro h1
      have h1 := congrArg BitVec.toNat h1
      rw [hx] at h1
      change _ = 2047 at h1
      omega
    · rw [hx]
      omega
  · have hlog : m.log2 ≤ 51 := log2_le (by omega)
    have hm' : (BitVec.ofNat 52 m).toNat = m := by
      rw [BitVec.toNat_ofNat, Nat.mod_eq_of_lt (by omega)]
    have he : e = -1074 := by
      by_contra he
      exact hn (h.two_pow_le he)
    rw [pack_subnormal s hm (by omega) hle]
    refine (unpack_subnormal s ?_ (by rw [hm']; exact hm)).trans (finite_congr _ _ hm' he.symm)
    intro h0
    have h0 := congrArg BitVec.toNat h0
    rw [hm'] at h0
    exact Nat.ne_of_gt hm h0

theorem Steps.pack {u : UnpackedFloat} {a : Int} (h : Steps u a) :
    Steps (Float.Model.pack u).unpack a := by
  cases h with
  | zero s => cases s <;> exact .zero _
  | finite s hm h =>
    rw [unpack_pack_finite s hm h]
    exact .finite s hm h

/-! ## rounding -/

theorem le_roundedMantissa (em : ExtendedMantissa) : em.mantissa ≤ em.roundedMantissa := by
  obtain ⟨m, r, s⟩ := em
  show m ≤ (ExtendedMantissa.accuracy ⟨m, r, s⟩).roundToNearestEven m
  cases r <;> cases s <;> simp [ExtendedMantissa.accuracy, Accuracy.roundToNearestEven]

/-- a quotient that is rounded to a whole number is off by one at most -/
theorem mul_le_add_of_div {m c r : Nat} (hc : 0 < c) (h1 : m / c ≤ r) (h2 : r ≤ m / c + 1) :
    r * c ≤ m + c ∧ m ≤ r * c + c := by
  have hq : m / c * c ≤ m := Nat.div_mul_le_self m c
  have hq' : m < m / c * c + c := by
    rw [← Nat.succ_mul]
    exact (Nat.div_lt_iff_lt_mul hc).1 (Nat.lt_succ_self _)
  obtain rfl | rfl : r = m / c ∨ r = m / c + 1 := by omega
  · omega
  · rw [Nat.succ_mul]
    omega

theorem roundWithAccuracy_eq_zero (s : Sign) {m : Nat} {e : Int}
    (hr : (shiftToTargetExponent Format.binary64 m e .exact).1.roundedMantissa = 0) :
    roundWithAccuracy Format.binary64 s m e .exact = .zero s := by
  rw [roundWithAccuracy]
  dsimp only
  rw [hr, shiftToTargetExponent, shiftToExponent]
  refine dif_pos ?_
  rw [mantissa_shiftRight]
  exact Nat.zero_div _

/-- rounding moves a number by less than one unit in its last place, which is `2 ^ k` steps or
less -/
theorem steps_roundWithAccuracy (s : Sign) {m k : Nat} {e : Int} (hm : 0 < m) (he : -1074 ≤ e)
    (hle : e ≤ Format.binary64.targetExponent (totalExponent m e)) (hk : k ≤ 2044)
    (h : magnitude m e < 2 ^ (k + 53)) :
    ∃ n : Nat, Steps (roundWithAccuracy Format.binary64 s m e .exact) (s.apply n)
      ∧ n ≤ magnitude m e + 2 ^ k ∧ magnitude m e ≤ n + 2 ^ k := by
  obtain ⟨t, ht⟩ : ∃ t, Format.binary64.targetExponent (totalExponent m e) = t := ⟨_, rfl⟩
  obtain ⟨j, hj⟩ : ∃ j, (t - e).toNat = j := ⟨_, rfl⟩
  obtain ⟨r, hr⟩ : ∃ r,
      (shiftToTargetExponent Format.binary64 m e .exact).1.roundedMantissa = r := ⟨_, rfl⟩
  have hx := shiftToTargetExponent_eq .exact ht (ht ▸ hle)
  have he1 : (shiftToTargetExponent Format.binary64 m e .exact).2 = t := congrArg Prod.snd hx
  have hq : (shiftToTargetExponent Format.binary64 m e .exact).1.mantissa = m / 2 ^ j := by
    rw [hx, hj, mantissa_shiftRight]
    rfl
  have hlog : t = max (m.log2 + 1 + e - 53) (-1074) := by
    rw [← ht, targetExponent_eq, totalExponent]
  have htk : t + 1074 ≤ k := by
    have hlt : 2 ^ (m.log2 + (e + 1074).toNat) < 2 ^ (k + 53) := by
      rw [Nat.pow_add]
      exact Nat.lt_of_le_of_lt (Nat.mul_le_mul_right _ (Nat.log2_self_le (Nat.ne_of_gt hm))) h
    have := (Nat.pow_lt_pow_iff_right (by decide)).1 hlt
    omega
  have h1 : m / 2 ^ j ≤ r := by
    rw [← hq, ← hr]
    exact le_roundedMantissa _
  have h2 : r ≤ m / 2 ^ j + 1 := by
    rw [← hq, ← hr]
    exact roundedMantissa_le _
  have hnear : magnitude r t ≤ magnitude m e + 2 ^ k ∧ magnitude m e ≤ magnitude r t + 2 ^ k := by
    obtain ⟨a, ha⟩ : ∃ a, (e + 1074).toNat = a := ⟨_, rfl⟩
    have hrt : magnitude r t = r * 2 ^ j * 2 ^ a := by
      rw [magnitude, Nat.mul_assoc, ← Nat.pow_add]
      congr 2
      omega
    have hja : 2 ^ j * 2 ^ a ≤ 2 ^ k := by
      rw [← Nat.pow_add]
      exact Nat.pow_le_pow_right (by omega) (by omega)
    obtain ⟨hup, hdown⟩ := mul_le_add_of_div (Nat.two_pow_pos j) h1 h2
    have hup := Nat.mul_le_mul_right (2 ^ a) hup
    have hdown := Nat.mul_le_mul_right (2 ^ a) hdown
    rw [Nat.add_mul] at hup hdown
    rw [hrt, magnitude, ha]
    omega
  have hbits : 2 ^ 52 ≤ r ∨ t = -1074 := by
    by_cases h0 : t = -1074
    · exact .inr h0
    · have hl : m.log2 = 52 + j := by omega
      refine .inl (Nat.le_trans ((Nat.le_div_iff_mul_le (Nat.two_pow_pos j)).2 ?_) h1)
      rw [← Nat.pow_add, ← hl]
      exact Nat.log2_self_le (Nat.ne_of_gt hm)
  have hr53 : r ≤ 2 ^ 53 := by
    refine Nat.le_trans h2 ((Nat.div_lt_iff_lt_mul (Nat.two_pow_pos j)).2 ?_)
    rw [← Nat.pow_add]
    exact Nat.lt_of_lt_of_le Nat.lt_log2_self (Nat.pow_le_pow_right (by omega) (by omega))
  by_cases hr0 : r = 0
  · refine ⟨0, ?_, by omega, ?_⟩
    · rw [roundWithAccuracy_eq_zero s (hr.trans hr0)]
      cases s <;> exact .zero _
    · rw [hr0, magnitude, Nat.zero_mul] at hnear
      exact hnear.2
  refine ⟨magnitude r t, ?_, hnear⟩
  rcases Nat.lt_or_eq_of_le hr53 with hlt | rfl
  · have hc : Canonical r t := .of_lt hlt (by omega) (by omega) hbits
    rw [roundWithAccuracy_eq_finite (k := 0) s (Nat.pos_of_ne_zero hr0) hc (by rw [hr]; simp)
      (by rw [he1]; simp)]
    exact .finite s _ hc
  · -- one bit too many: the mantissa is halved
    have hc : Canonical (2 ^ 52) (t + 1) :=
      .of_lt (by decide) (by omega) (by omega) (.inl (by omega))
    rw [roundWithAccuracy_eq_finite (k := 1) s (by decide) hc hr (by rw [he1]; omega)]
    have hmag : magnitude (2 ^ 52 * 2 ^ 1) (t + 1 - (1 : Nat)) = magnitude (2 ^ 52) (t + 1) :=
      magnitude_mul_two_pow _ (by omega)
    rw [show t + 1 - (1 : Nat) = t by omega] at hmag
    rw [show (2 ^ 53 : Nat) = 2 ^ 52 * 2 ^ 1 from rfl, hmag]
    exact .finite s _ hc

theorem steps_round (s : Sign) {m k : Nat} {e : Int} (hm : 0 < m) (he : -1074 ≤ e) (hk : k ≤ 2044)
    (h : magnitude m e < 2 ^ (k + 53)) :
    ∃ n : Nat, Steps (UnpackedFloat.round Format.binary64 s m e) (s.apply n)
      ∧ n ≤ magnitude m e + 2 ^ k ∧ magnitude m e ≤ n + 2 ^ k := by
  obtain ⟨t, ht⟩ : ∃ t, Format.binary64.targetExponent (totalExponent m e) = t := ⟨_, rfl⟩
  obtain ⟨j, hj⟩ : ∃ j, (e - t).toNat = j := ⟨_, rfl⟩
  have hge : -1074 ≤ t := by
    rw [targetExponent_eq] at ht
    omega
  have htot : totalExponent (m * 2 ^ j) (e - j) = totalExponent m e := by
    rw [totalExponent, totalExponent, log2_mul_two_pow hm]
    omega
  have hmag : magnitude (m * 2 ^ j) (e - j) = magnitude m e := magnitude_mul_two_pow m (by omega)
  rw [UnpackedFloat.round, decreaseExponent, ht, Nat.shiftLeft_eq, hj, ← hmag]
  refine steps_roundWithAccuracy s (Nat.mul_pos hm (Nat.two_pow_pos j)) (by omega) ?_ hk ?_
  · rw [htot, ht]
    omega
  · rwa [hmag]

/-- the steps of a whole number of units -/
def signedMagnitude (a : Int) (e : Int) : Int := a * (2 ^ (e + 1074).toNat : Nat)

@[simp] theorem signedMagnitude_natCast (m : Nat) (e : Int) : signedMagnitude m e = magnitude m e :=
  (Int.natCast_mul ..).symm

@[simp] theorem signedMagnitude_neg (a e : Int) : signedMagnitude (-a) e = -signedMagnitude a e :=
  Int.neg_mul ..

theorem signedMagnitude_add (a b e : Int) :
    signedMagnitude (a + b) e = signedMagnitude a e + signedMagnitude b e :=
  Int.add_mul ..

@[simp] theorem signedMagnitude_apply (s : Sign) (m : Nat) (e : Int) :
    signedMagnitude (s.apply m) e = s.apply (magnitude m e) := by
  cases s with
  | negative => simp
  | positive => simp

theorem steps_normalize {a e : Int} {k : Nat} (he : -1074 ≤ e) (hk : k ≤ 2044)
    (h : (signedMagnitude a e).natAbs < 2 ^ (k + 53)) :
    ∃ n, Steps (UnpackedFloat.normalize Format.binary64 a e .positive) n
      ∧ (n - signedMagnitude a e).natAbs ≤ 2 ^ k := by
  rcases Int.lt_trichotomy a 0 with ha | rfl | ha
  · obtain ⟨m, rfl⟩ : ∃ m : Nat, a = -m := ⟨a.natAbs, by omega⟩
    rw [signedMagnitude_neg, signedMagnitude_natCast] at h ⊢
    obtain ⟨n, hn, h1, h2⟩ := steps_round .negative (m := m) (by omega) he hk (by omega)
    rw [UnpackedFloat.normalize, Int.compare_eq_lt.2 ha, Int.neg_neg, Int.toNat_natCast]
    refine ⟨_, hn, ?_⟩
    rw [apply_negative]
    omega
  · rw [UnpackedFloat.normalize, Int.compare_eq_eq.2 rfl]
    refine ⟨0, .zero .positive, ?_⟩
    rw [signedMagnitude, Int.zero_mul]
    exact Nat.zero_le _
  · obtain ⟨m, rfl⟩ : ∃ m : Nat, a = m := ⟨a.natAbs, by omega⟩
    rw [signedMagnitude_natCast] at h ⊢
    obtain ⟨n, hn, h1, h2⟩ := steps_round .positive (m := m) (by omega) he hk (by omega)
    rw [UnpackedFloat.normalize, Int.compare_eq_gt.2 ha, Int.toNat_natCast]
    refine ⟨_, hn, ?_⟩
    rw [apply_positive]
    omega

/-! ## sums and differences -/

namespace Steps
variable {u v : UnpackedFloat} {a b : Int} {k : Nat}

theorem signedMagnitude_decreaseExponent (s : Sign) (m : Nat) {e e' : Int} (he : -1074 ≤ e')
    (h : e' ≤ e) :
    signedMagnitude (s.apply (decreaseExponent m e e').1) e' = s.apply (magnitude m e) := by
  have hm := magnitude_mul_two_pow m (e := e) (k := (e - e').toNat) (by omega)
  rw [show e - (e - e').toNat = e' by omega] at hm
  rw [signedMagnitude_apply, decreaseExponent, Nat.shiftLeft_eq]
  exact congrArg (fun n : Nat => s.apply n) hm

/-- a sum is off by less than one unit in its last place -/
theorem add (h : Steps u a) (h' : Steps v b) (hk : k ≤ 2044)
    (hab : (a + b).natAbs < 2 ^ (k + 53)) :
    ∃ n, Steps (UnpackedFloat.add Format.binary64 u v) n ∧ (n - (a + b)).natAbs ≤ 2 ^ k := by
  cases h with
  | zero s =>
    cases h' with
    | zero s' => exact ⟨0, by cases s <;> cases s' <;> exact .zero _, by simp⟩
    | finite s' hm' h' => exact ⟨_, .finite s' hm' h', by simp⟩
  | @finite s m e hm h =>
    cases h' with
    | zero s' => exact ⟨_, .finite s hm h, by simp⟩
    | @finite s' m' e' hm' h' =>
      have hge : -1074 ≤ min e e' := Int.le_min.2 ⟨h.ge, h'.ge⟩
      have hsum : signedMagnitude (s.apply (decreaseExponent m e (min e e')).1
          + s'.apply (decreaseExponent m' e' (min e e')).1) (min e e')
          = s.apply (magnitude m e) + s'.apply (magnitude m' e') := by
        rw [signedMagnitude_add, signedMagnitude_decreaseExponent s m hge (Int.min_le_left ..),
          signedMagnitude_decreaseExponent s' m' hge (Int.min_le_right ..)]
      rw [← hsum] at hab ⊢
      exact steps_normalize hge hk hab

/-- a difference is the sum with the opposite, but for the sign of a zero -/
theorem sub (h : Steps u a) (h' : Steps v b) (hk : k ≤ 2044)
    (hab : (a - b).natAbs < 2 ^ (k + 53)) :
    ∃ n, Steps (UnpackedFloat.sub Format.binary64 u v) n ∧ (n - (a - b)).natAbs ≤ 2 ^ k := by
  cases h with
  | zero s =>
    cases h' with
    | zero s' => exact ⟨0, by cases s <;> cases s' <;> exact .zero _, by simp⟩
    | finite s' hm' h' => exact ⟨_, (Steps.finite s' hm' h').neg, by simp⟩
  | @finite s m e hm h =>
    cases h' with
    | zero s' => exact ⟨_, .finite s hm h, by simp⟩
    | @finite s' m' e' hm' h' =>
      have hge : -1074 ≤ min e e' := Int.le_min.2 ⟨h.ge, h'.ge⟩
      have hdiff : signedMagnitude (s.apply (decreaseExponent m e (min e e')).1
          - s'.apply (decreaseExponent m' e' (min e e')).1) (min e e')
          = s.apply (magnitude m e) - s'.apply (magnitude m' e') := by
        rw [Int.sub_eq_add_neg, signedMagnitude_add, signedMagnitude_neg,
          signedMagnitude_decreaseExponent s m hge (Int.min_le_left ..),
          signedMagnitude_decreaseExponent s' m' hge (Int.min_le_right ..), ← Int.sub_eq_add_neg]
      rw [← hdiff] at hab ⊢
      exact steps_normalize hge hk hab

end Steps

/-! ## the type `Float` -/

theorem lt_iff_compare {v w : Float} : v < w
    ↔ UnpackedFloat.compare v.toModel.unpack w.toModel.unpack = some .lt := by
  show decide (v.toModel < w.toModel) = true ↔ _
  rw [decide_eq_true_iff]
  show (UnpackedFloat.compare v.toModel.unpack w.toModel.unpack == some .lt) = true ↔ _
  rw [beq_iff_eq]

/-- the number is finite, and `n` steps away from zero -/
def HasSteps (v : Float) (n : Int) : Prop := Steps v.toModel.unpack n

theorem exists_hasSteps {v : Float} (h : Scalar.isFinite v) : ∃ n, HasSteps v n := by
  have h' : v.toModel.unpack.isFinite := h
  unfold HasSteps
  cases hv : v.toModel.unpack with
  | infinity s => rw [hv] at h'; cases h'
  | notANumber => rw [hv] at h'; cases h'
  | zero s => exact ⟨0, .zero s⟩
  | finite s m e hm => exact ⟨_, .finite s hm (canonical_unpack hv)⟩

theorem lt_infinity {v : Float} (h : Scalar.isFinite v) : v < 1.0 / 0.0 := by
  obtain ⟨n, hn⟩ := exists_hasSteps h
  have hb : (1.0 / 0.0 : Float).toModel.toBits = 0x7FF0000000000000 := by decide +kernel
  rw [lt_iff_compare, unpack_of_toBits hb]
  exact Steps.compare_infinity hn

theorem neg_infinity_lt {v : Float} (h : Scalar.isFinite v) : -1.0 / 0.0 < v := by
  obtain ⟨n, hn⟩ := exists_hasSteps h
  have hb : (-1.0 / 0.0 : Float).toModel.toBits = 0xFFF0000000000000 := by decide +kernel
  rw [lt_iff_compare, unpack_of_toBits hb]
  exact Steps.compare_neg_infinity hn

namespace HasSteps
variable {v w : Float} {a b : Int} {k : Nat}

theorem isFinite (h : HasSteps v a) : Scalar.isFinite v := Steps.isFinite h

/-- a number that is given by its bits, with the steps of its mantissa and exponent -/
theorem of_toBits {c : UInt64} {m : Nat} {e : Int} (hm : 0 < m) (hv : v.toModel.toBits = c)
    (hc : unpack Format.binary64 c.toBitVec = .finite .positive m e hm) :
    HasSteps v (magnitude m e) := by
  rw [HasSteps, unpack_of_toBits hv, hc]
  exact .finite .positive hm (canonical_unpack hc)

theorem lt_iff (h : HasSteps v a) (h' : HasSteps w b) : v < w ↔ a < b := by
  rw [lt_iff_compare, Steps.compare_eq h h', Option.some.injEq, Int.compare_eq_lt]

theorem le_iff (h : HasSteps v a) (h' : HasSteps w b) : v ≤ w ↔ a ≤ b := by
  have hc := Steps.compare_eq h h'
  show decide (v.toModel ≤ w.toModel) = true ↔ _
  rw [decide_eq_true_iff]
  show (UnpackedFloat.compare v.toModel.unpack w.toModel.unpack).any (·.isLE) = true ↔ _
  rw [hc, Option.any_some, Int.isLE_compare]

theorem neg (h : HasSteps v a) : HasSteps (-v) (-a) := (Steps.neg h).pack

theorem add (h : HasSteps v a) (h' : HasSteps w b) (hk : k ≤ 2044)
    (hab : (a + b).natAbs < 2 ^ (k + 53)) :
    ∃ n, HasSteps (v + w) n ∧ (n - (a + b)).natAbs ≤ 2 ^ k := by
  obtain ⟨n, hn, hd⟩ := Steps.add h h' hk hab
  exact ⟨n, hn.pack, hd⟩

theorem sub (h : HasSteps v a) (h' : HasSteps w b) (hk : k ≤ 2044)
    (hab : (a - b).natAbs < 2 ^ (k + 53)) :
    ∃ n, HasSteps (v - w) n ∧ (n - (a - b)).natAbs ≤ 2 ^ k := by
  obtain ⟨n, hn, hd⟩ := Steps.sub h h' hk hab
  exact ⟨n, hn.pack, hd⟩

theorem exists_unpack_zero (h : HasSteps v 0) : ∃ s, v.toModel.unpack = .zero s := by
  obtain ⟨a, ha⟩ : ∃ a : Int, 0 = a := ⟨_, rfl⟩
  rw [HasSteps, ha] at h
  generalize v.toModel.unpack = u at h
  cases h with
  | zero s => exact ⟨s, rfl⟩
  | @finite s m e hm hc =>
    have hp := magnitude_pos hm e
    cases s with
    | negative => rw [apply_negative] at ha; omega
    | positive => rw [apply_positive] at ha; omega

/-- a difference from zero is not rounded -/
theorem zero_sub (h : HasSteps v 0) (h' : HasSteps w b) : HasSteps (v - w) (-b) := by
  obtain ⟨s, hs⟩ := h.exists_unpack_zero
  refine Steps.pack ?_
  show Steps (UnpackedFloat.sub Format.binary64 v.toModel.unpack w.toModel.unpack) (-b)
  rw [hs]
  unfold HasSteps at h'
  generalize w.toModel.unpack = u at h'
  cases h' with
  | zero s' => cases s <;> cases s' <;> exact .zero _
  | finite s' hm hc => exact (Steps.finite s' hm hc).neg

/-- the distance from zero -/
theorem abs (h : HasSteps v a) : HasSteps (Number.abs v) a.natAbs := by
  have hneg : v < 0 ↔ a < 0 := h.lt_iff (.zero .positive)
  unfold Number.abs
  split
  · rename_i h0
    have h0 := hneg.1 h0
    rw [Int.ofNat_natAbs_of_nonpos (by omega)]
    exact h.neg
  · rename_i h0
    have h0 : ¬a < 0 := fun h => h0 (hneg.2 h)
    rw [Int.natAbs_of_nonneg (by omega)]
    exact h

end HasSteps

theorem isDefined_of_isFinite {v : Float} (h : Scalar.isFinite v) : Number.isDefined v := by
  obtain ⟨n, hn⟩ := exists_hasSteps h
  show (UnpackedFloat.compare v.toModel.unpack v.toModel.unpack == some .eq) = true
  rw [Steps.compare_eq hn hn, Int.compare_eq_eq.2 rfl]
  rfl

end CurveStudy.Double
