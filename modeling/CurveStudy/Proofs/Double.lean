import Mathlib.Tactic.Ring
import CurveStudy.Double
import CurveStudy.Proofs.Shape

/-!
# Finite doubles

The numbers that are written down in trees are finite in double precision, and so is the product of
a finite number with `1` or `-1`, because it is not rounded: the mantissa is moved up by the
fifty-two places of the mantissa of `1` and down by as many.  The predecessor of a finite number may
be rounded, but never up to the next power of two behind the largest number.

* `Canonical`   what a mantissa and an exponent that come out of sixty-four bits have in common;
* `roundWithAccuracy_mul_two_pow`   a mantissa that is moved up and down again is not rounded;
* `isFinite_mul_one`, `isFinite_neg_one_mul`   the products are finite;
* `isFinite_round`   rounding less than half a step above the largest number is finite;
* `isFinite_neg`, `isFinite_sub_one`   the opposite and the predecessor are finite.
-/

namespace CurveStudy

instance : FiniteLiterals Float where
  zero := by decide +kernel
  one := by decide +kernel
  neg_one := by decide +kernel
  two := by decide +kernel
  half := by decide +kernel
  pi := by decide +kernel

namespace Double
open Float.Model Float.Model.UnpackedFloat

/-- the mantissa needs no rounding and the exponent is not too large -/
structure Canonical (m : Nat) (e : Int) : Prop where
  target : Format.binary64.targetExponent (totalExponent m e) = e
  le : e ≤ 971

theorem targetExponent_eq (t : Int) : Format.binary64.targetExponent t = max (t - 53) (-1074) :=
  rfl

theorem log2_le {m k : Nat} (h : m < 2 ^ (k + 1)) : m.log2 ≤ k := by
  by_cases h0 : m = 0
  · rw [h0, Nat.log2_zero]
    omega
  · exact Nat.le_of_lt_succ ((Nat.log2_lt h0).2 h)

theorem canonical_subnormal {m : Nat} (hm : m < 2 ^ 52) : Canonical m (-1074) := by
  refine ⟨?_, by omega⟩
  have h : m.log2 ≤ 51 := log2_le hm
  rw [targetExponent_eq, totalExponent]
  omega

theorem canonical_normal {m : Nat} {e : Int} (hm : m < 2 ^ 52) (h1 : -1074 ≤ e) (h2 : e ≤ 971) :
    Canonical (2 ^ 52 + m) e := by
  refine ⟨?_, h2⟩
  have h : (2 ^ 52 + m).log2 = 52 := by
    refine (Nat.log2_eq_iff (by omega)).2 ⟨by omega, ?_⟩
    omega
  rw [targetExponent_eq, totalExponent, h]
  omega

theorem toNat_one_append (v : BitVec 52) : (1#1 ++ v).toNat = 2 ^ 52 + v.toNat := by
  rw [BitVec.toNat_append, ← Nat.shiftLeft_add_eq_or_of_lt v.isLt]
  rfl

/-- the bits of a finite number other than zero, without the hidden bit or with it -/
theorem unpack_eq_finite {b : BitVec Format.binary64.numBits} {s : Sign} {m : Nat} {e : Int}
    {h : 0 < m} (hb : unpack Format.binary64 b = .finite s m e h) :
    s = .ofBitVec (unpackSign b)
    ∧ ((unpackExponent b).toNat = 0 ∧ m = (unpackMantissa b).toNat ∧ e = -1074
      ∨ (unpackExponent b).toNat ≠ 0 ∧ (unpackExponent b).toNat ≠ 2047
        ∧ m = 2 ^ 52 + (unpackMantissa b).toNat ∧ e = (unpackExponent b).toNat - 1075) := by
  unfold UnpackedFloat.unpack at hb
  dsimp only at hb
  by_cases h1 : unpackExponent b = -1#_
  · rw [if_pos h1] at hb
    by_cases hm0 : unpackMantissa b = 0#_
    · rw [if_pos hm0] at hb
      cases hb
    · rw [if_neg hm0] at hb
      cases hb
  · have h1' : (unpackExponent b).toNat ≠ 2047 := fun h' => h1 (BitVec.eq_of_toNat_eq h')
    rw [if_neg h1] at hb
    by_cases h0 : unpackExponent b = 0#_
    · rw [if_pos h0] at hb
      by_cases hm0 : unpackMantissa b = 0#_
      · rw [dif_pos hm0] at hb
        cases hb
      · rw [dif_neg hm0] at hb
        cases hb
        refine ⟨rfl, .inl ⟨congrArg BitVec.toNat h0, rfl, ?_⟩⟩
        rw [h0]
        rfl
    · have h0' : (unpackExponent b).toNat ≠ 0 := fun h' => h0 (BitVec.eq_of_toNat_eq h')
      rw [if_neg h0] at hb
      cases hb
      exact ⟨rfl, .inr ⟨h0', h1', toNat_one_append _, rfl⟩⟩

theorem unpack_eq_zero {b : BitVec Format.binary64.numBits} {s : Sign}
    (hb : unpack Format.binary64 b = .zero s) : s = .ofBitVec (unpackSign b)
    ∧ (unpackExponent b).toNat = 0 ∧ (unpackMantissa b).toNat = 0 := by
  unfold UnpackedFloat.unpack at hb
  dsimp only at hb
  by_cases h1 : unpackExponent b = -1#_
  · rw [if_pos h1] at hb
    by_cases hm0 : unpackMantissa b = 0#_
    · rw [if_pos hm0] at hb
      cases hb
    · rw [if_neg hm0] at hb
      cases hb
  · rw [if_neg h1] at hb
    by_cases h0 : unpackExponent b = 0#_
    · rw [if_pos h0] at hb
      by_cases hm0 : unpackMantissa b = 0#_
      · rw [dif_pos hm0] at hb
        cases hb
        exact ⟨rfl, congrArg BitVec.toNat h0, congrArg BitVec.toNat hm0⟩
      · rw [dif_neg hm0] at hb
        cases hb
    · rw [if_neg h0] at hb
      cases hb

/-- a number that is given by its bits -/
theorem unpack_of_toBits {v : Float} {b : UInt64} (h : v.toModel.toBits = b) :
    v.toModel.unpack = unpack Format.binary64 b.toBitVec := by
  rw [← h, Float.Model.unpack]

theorem canonical_unpack {b : BitVec Format.binary64.numBits} {s : Sign} {m : Nat} {e : Int}
    {h : 0 < m} (hb : unpack Format.binary64 b = .finite s m e h) : Canonical m e := by
  have hm : (unpackMantissa b).toNat < 2 ^ 52 := (unpackMantissa b).isLt
  have hx : (unpackExponent b).toNat < 2048 := (unpackExponent b).isLt
  obtain ⟨-, ⟨-, rfl, rfl⟩ | ⟨h0, h1, rfl, rfl⟩⟩ := unpack_eq_finite hb
  · exact canonical_subnormal hm
  · exact canonical_normal hm (by omega) (by omega)

/-! ## rounding what needs no rounding -/

theorem log2_mul_two_pow {m : Nat} (hm : 0 < m) (k : Nat) : (m * 2 ^ k).log2 = m.log2 + k := by
  have h0 : m * 2 ^ k ≠ 0 := Nat.ne_of_gt (Nat.mul_pos hm (Nat.two_pow_pos k))
  refine (Nat.log2_eq_iff h0).2 ⟨?_, ?_⟩
  · rw [Nat.pow_add]
    exact Nat.mul_le_mul_right _ (Nat.log2_self_le (Nat.ne_of_gt hm))
  · rw [Nat.add_right_comm, Nat.pow_add]
    exact Nat.mul_lt_mul_of_pos_right Nat.lt_log2_self (Nat.two_pow_pos k)

@[simp] theorem shiftRight_exact (m k : Nat) :
    (ExtendedMantissa.ofMantissaAndAccuracy (m * 2 ^ k) .exact) >>> k = ⟨m, false, false⟩ := by
  show Nat.repeat ExtendedMantissa.shiftRightOne k ⟨m * 2 ^ k, false, false⟩ = _
  induction k generalizing m with
  | zero => rw [Nat.pow_zero, Nat.mul_one, Nat.repeat]
  | succ k ih =>
    have h := ih (m * 2)
    rw [Nat.mul_assoc, ← Nat.pow_succ'] at h
    rw [Nat.repeat, h, ExtendedMantissa.shiftRightOne]
    simp

theorem shiftToTargetExponent_exact {m : Nat} {e : Int} (hm : 0 < m) (h : Canonical m e)
    (k : Nat) : shiftToTargetExponent Format.binary64 (m * 2 ^ k) (e - k) .exact
      = (⟨m, false, false⟩, e) := by
  have ht : totalExponent (m * 2 ^ k) (e - k) = totalExponent m e := by
    rw [totalExponent, totalExponent, log2_mul_two_pow hm]
    omega
  have hk : (e - (e - k)).toNat = k := by omega
  have he : e - k + k = e := by omega
  rw [shiftToTargetExponent, ht, h.target, shiftToExponent, hk, shiftRight_exact, he]

theorem shiftToTargetExponent_eq {m : Nat} {e t : Int} (acc : Accuracy)
    (ht : Format.binary64.targetExponent (totalExponent m e) = t) (hle : e ≤ t) :
    shiftToTargetExponent Format.binary64 m e acc
      = (ExtendedMantissa.ofMantissaAndAccuracy m acc >>> (t - e).toNat, t) := by
  have he : e + (t - e).toNat = t := by omega
  rw [shiftToTargetExponent, shiftToExponent, ht, he]

/-- a mantissa with too many bits after the first rounding is a multiple of a power of two -/
theorem roundWithAccuracy_eq_finite (s : Sign) {m m' k : Nat} {e e' : Int} {acc : Accuracy}
    (hm : 0 < m') (h : Canonical m' e')
    (hr : (shiftToTargetExponent Format.binary64 m e acc).1.roundedMantissa = m' * 2 ^ k)
    (he : (shiftToTargetExponent Format.binary64 m e acc).2 = e' - k) :
    roundWithAccuracy Format.binary64 s m e acc = .finite s m' e' hm := by
  rw [roundWithAccuracy]
  dsimp only
  rw [hr, he, shiftToTargetExponent_exact hm h k]
  exact dif_neg (Nat.ne_of_gt hm)

theorem roundWithAccuracy_mul_two_pow (s : Sign) {m : Nat} {e : Int} (hm : 0 < m)
    (h : Canonical m e) (k : Nat) :
    roundWithAccuracy Format.binary64 s (m * 2 ^ k) (e - k) .exact = .finite s m e hm := by
  have hx := shiftToTargetExponent_exact hm h k
  refine roundWithAccuracy_eq_finite (k := 0) s hm h ?_ ?_
  · rw [hx, Nat.pow_zero, Nat.mul_one]
    rfl
  · rw [hx]
    exact (Int.sub_zero e).symm

/-! ## back into bits -/

theorem isFinite_unpack {b : BitVec Format.binary64.numBits} (h : unpackExponent b ≠ -1#_) :
    (unpack Format.binary64 b).isFinite := by
  unfold UnpackedFloat.unpack
  dsimp only
  rw [if_neg h]
  by_cases h0 : unpackExponent b = 0#_
  · rw [if_pos h0]
    by_cases hm0 : unpackMantissa b = 0#_
    · rw [dif_pos hm0]
      rfl
    · rw [dif_neg hm0]
      rfl
  · rw [if_neg h0]
    rfl

theorem isFinite_unpack_pack (s : Sign) {m : Nat} {e : Int} (hm : 0 < m) (h : e ≤ 971) :
    (Float.Model.pack (.finite s m e hm)).unpack.isFinite := by
  refine isFinite_unpack ?_
  show unpackExponent (UnpackedFloat.pack Format.binary64 (.finite s m e hm)) ≠ -1#_
  have hbias : Format.binary64.exponentBias = 1023 := rfl
  have hx : (e + (1023 : Nat) + (52 : Nat)).toNat < 2047 := by omega
  unfold UnpackedFloat.pack
  dsimp only
  rw [hbias, if_neg (by omega)]
  split
  · rw [unpackExponent_packComponents]
    intro h'
    have h' : (e + (1023 : Nat) + (52 : Nat)).toNat % 2 ^ 11 = 2047 := congrArg BitVec.toNat h'
    rw [Nat.mod_eq_of_lt (by omega)] at h'
    omega
  · rw [unpackExponent_packComponents]
    decide

theorem isFinite_unpack_pack_zero (s : Sign) :
    (Float.Model.pack (.zero s)).unpack.isFinite := by
  cases s <;> rfl

theorem isFinite_unpack_pack_dite {p : Prop} [Decidable p] {u : p → UnpackedFloat}
    {v : ¬ p → UnpackedFloat} (hu : ∀ h, (Float.Model.pack (u h)).unpack.isFinite)
    (hv : ∀ h, (Float.Model.pack (v h)).unpack.isFinite) :
    (Float.Model.pack (if h : p then u h else v h)).unpack.isFinite := by
  by_cases h : p
  · rw [dif_pos h]
    exact hu h
  · rw [dif_neg h]
    exact hv h

/-! ## products with `1` and `-1` -/

@[simp] theorem unpack_one :
    (1.0 : Float).toModel.unpack = .finite .positive (2 ^ 52) (-52) (by decide) := by
  have h : (1.0 : Float).toModel.toBits = 0x3FF0000000000000 := by decide +kernel
  rw [unpack_of_toBits h]
  rfl

@[simp] theorem unpack_neg_one :
    (-1.0 : Float).toModel.unpack = .finite .negative (2 ^ 52) (-52) (by decide) := by
  have h : (-1.0 : Float).toModel.toBits = 0xBFF0000000000000 := by decide +kernel
  rw [unpack_of_toBits h]
  rfl

theorem isFinite_pack_mul {a b : UnpackedFloat} (ha : a.isFinite) (hb : b.isFinite)
    (h : ∀ s m e hm, a = .finite s m e hm → ∀ s' m' e' hm', b = .finite s' m' e' hm' →
      (Float.Model.pack (roundWithAccuracy Format.binary64 (s * s') (m * m') (e + e')
        .exact)).unpack.isFinite) :
    (Float.Model.pack (UnpackedFloat.mul Format.binary64 a b)).unpack.isFinite := by
  cases a with
  | infinity s => cases ha
  | notANumber => cases ha
  | zero s =>
    cases b with
    | infinity s' => cases hb
    | notANumber => cases hb
    | zero s' => exact isFinite_unpack_pack_zero _
    | finite s' m' e' hm' => exact isFinite_unpack_pack_zero _
  | finite s m e hm =>
    cases b with
    | infinity s' => cases hb
    | notANumber => cases hb
    | zero s' => exact isFinite_unpack_pack_zero _
    | finite s' m' e' hm' => exact h s m e hm rfl s' m' e' hm' rfl

theorem isFinite_mul_one (c : Float) (h : Scalar.isFinite c) : Scalar.isFinite (c * 1) := by
  refine isFinite_pack_mul (a := c.toModel.unpack) (b := (1.0 : Float).toModel.unpack) h ?_ ?_
  · rw [unpack_one]
    rfl
  · intro s m e hm hc s' m' e' hm' h1
    rw [unpack_one] at h1
    cases h1
    have hc := canonical_unpack hc
    show (Float.Model.pack (roundWithAccuracy Format.binary64 _ (m * 2 ^ 52) (e - (52 : Nat))
      .exact)).unpack.isFinite
    rw [roundWithAccuracy_mul_two_pow _ hm hc]
    exact isFinite_unpack_pack _ hm hc.le

theorem isFinite_neg_one_mul (c : Float) (h : Scalar.isFinite c) :
    Scalar.isFinite (-1 * c) := by
  refine isFinite_pack_mul (a := (-1.0 : Float).toModel.unpack) (b := c.toModel.unpack) ?_ h ?_
  · rw [unpack_neg_one]
    rfl
  · intro s m e hm h1 s' m' e' hm' hc
    rw [unpack_neg_one] at h1
    cases h1
    have hc := canonical_unpack hc
    show (Float.Model.pack (roundWithAccuracy Format.binary64 _ (2 ^ 52 * m') (-52 + e')
      .exact)).unpack.isFinite
    rw [Nat.mul_comm, Int.add_comm]
    show (Float.Model.pack (roundWithAccuracy Format.binary64 _ (m' * 2 ^ 52) (e' - (52 : Nat))
      .exact)).unpack.isFinite
    rw [roundWithAccuracy_mul_two_pow _ hm' hc]
    exact isFinite_unpack_pack _ hm' hc.le

/-! ## rounding below the largest number -/

theorem shiftRight_succ (em : ExtendedMantissa) (k : Nat) :
    em >>> (k + 1) = (em >>> k).shiftRightOne := rfl

@[simp] theorem mantissa_shiftRight (em : ExtendedMantissa) (k : Nat) :
    (em >>> k).mantissa = em.mantissa / 2 ^ k := by
  induction k with
  | zero => exact (Nat.div_one _).symm
  | succ k ih =>
    rw [shiftRight_succ, ExtendedMantissa.shiftRightOne, ih, Nat.div_div_eq_div_mul, Nat.pow_succ]

theorem roundedMantissa_le (em : ExtendedMantissa) : em.roundedMantissa ≤ em.mantissa + 1 := by
  obtain ⟨m, r, s⟩ := em
  show (ExtendedMantissa.accuracy ⟨m, r, s⟩).roundToNearestEven m ≤ m + 1
  cases r <;> cases s
  · exact Nat.le_succ m
  · exact Nat.le_succ m
  · show m + m % 2 ≤ m + 1
    omega
  · exact Nat.le_refl (m + 1)

theorem roundedMantissa_of_roundBit {em : ExtendedMantissa} (h : em.roundBit = false) :
    em.roundedMantissa = em.mantissa := by
  obtain ⟨m, r, s⟩ := em
  cases h
  cases s <;> rfl

/-- what is less than half a step above `n` is rounded to `n` at most -/
theorem roundedMantissa_shiftRight_le {m k n : Nat} (h : 2 * m < (2 * n + 1) * 2 ^ k) :
    (ExtendedMantissa.ofMantissaAndAccuracy m .exact >>> k).roundedMantissa ≤ n := by
  have hq : (ExtendedMantissa.ofMantissaAndAccuracy m .exact >>> k).mantissa = m / 2 ^ k :=
    mantissa_shiftRight _ k
  have hn : m / 2 ^ k ≤ n := by
    refine Nat.le_of_lt_succ ((Nat.div_lt_iff_lt_mul (Nat.two_pow_pos k)).2 ?_)
    have : (2 * n + 1) * 2 ^ k ≤ 2 * (n.succ * 2 ^ k) := by
      rw [← Nat.mul_assoc]
      exact Nat.mul_le_mul_right _ (by omega)
    omega
  rcases Nat.lt_or_eq_of_le hn with hlt | heq
  · have := roundedMantissa_le (ExtendedMantissa.ofMantissaAndAccuracy m .exact >>> k)
    omega
  · -- the bit behind the last is not set, so nothing is added
    have hr : (ExtendedMantissa.ofMantissaAndAccuracy m .exact >>> k).roundBit = false := by
      cases k with
      | zero => rfl
      | succ k =>
        rw [shiftRight_succ]
        show ((ExtendedMantissa.ofMantissaAndAccuracy m .exact >>> k).mantissa % 2 != 0) = false
        have hk : (ExtendedMantissa.ofMantissaAndAccuracy m .exact >>> k).mantissa = m / 2 ^ k :=
          mantissa_shiftRight _ k
        have h2 : m / 2 ^ k / 2 = n := by rw [Nat.div_div_eq_div_mul, ← Nat.pow_succ, heq]
        have h1 : m / 2 ^ k < 2 * n + 1 := by
          refine (Nat.div_lt_iff_lt_mul (Nat.two_pow_pos k)).2 ?_
          rw [Nat.pow_succ, ← Nat.mul_assoc] at h
          omega
        rw [hk, bne_eq_false_iff_eq]
        omega
    exact Nat.le_of_eq (by rw [roundedMantissa_of_roundBit hr, hq, heq])

/-- the exponent of a number that is rounded to fifty-three bits, where it does not overflow -/
theorem exponent_round_le {m : Nat} {e : Int}
    (hle : e ≤ Format.binary64.targetExponent (totalExponent m e)) (he : e ≤ 971)
    (h : 2 * m < (2 ^ 54 - 1) * 2 ^ (971 - e).toNat) :
    (shiftToTargetExponent Format.binary64
      (shiftToTargetExponent Format.binary64 m e .exact).1.roundedMantissa
      (shiftToTargetExponent Format.binary64 m e .exact).2 .exact).2 ≤ 971 := by
  obtain ⟨t, ht⟩ : ∃ t, Format.binary64.targetExponent (totalExponent m e) = t := ⟨_, rfl⟩
  have hk : e + (t - e).toNat = t := by omega
  obtain ⟨r, hr⟩ : ∃ r,
      (ExtendedMantissa.ofMantissaAndAccuracy m .exact >>> (t - e).toNat).roundedMantissa = r :=
    ⟨_, rfl⟩
  have hlog : t = max (m.log2 + 1 + e - 53) (-1074) := by
    rw [← ht, targetExponent_eq, totalExponent]
  have hm : m.log2 ≤ 52 + (971 - e).toNat := by
    refine log2_le ?_
    rw [show 52 + (971 - e).toNat + 1 = 53 + (971 - e).toNat by omega, Nat.pow_add]
    omega
  have hr' : r.log2 ≤ 52 ∧ t ≤ 971 ∨ r.log2 ≤ 53 ∧ t ≤ 970 := by
    rw [← hr]
    by_cases h971 : t = 971
    · have h' : 2 * m < (2 * (2 ^ 53 - 1) + 1) * 2 ^ (t - e).toNat := by
        rw [h971]
        exact h
      refine .inl ⟨log2_le ?_, Int.le_of_eq h971⟩
      exact Nat.lt_of_le_of_lt (roundedMantissa_shiftRight_le h') (by decide)
    · have hlt : m < 2 ^ (53 + (t - e).toNat) :=
        Nat.lt_of_lt_of_le Nat.lt_log2_self (Nat.pow_le_pow_right (by omega) (by omega))
      have h' : 2 * m < (2 * 2 ^ 53 + 1) * 2 ^ (t - e).toNat := by
        rw [Nat.pow_add] at hlt
        omega
      refine .inr ⟨log2_le ?_, by omega⟩
      exact Nat.lt_of_le_of_lt (roundedMantissa_shiftRight_le h') (by decide)
  rw [shiftToTargetExponent, shiftToTargetExponent, ht, shiftToExponent, shiftToExponent]
  dsimp only
  rw [hr, hk, targetExponent_eq, totalExponent]
  omega

theorem isFinite_roundWithAccuracy (s : Sign) {m : Nat} {e : Int}
    (hle : e ≤ Format.binary64.targetExponent (totalExponent m e)) (he : e ≤ 971)
    (h : 2 * m < (2 ^ 54 - 1) * 2 ^ (971 - e).toNat) :
    (Float.Model.pack (roundWithAccuracy Format.binary64 s m e .exact)).unpack.isFinite := by
  have hx := exponent_round_le hle he h
  unfold roundWithAccuracy
  exact isFinite_unpack_pack_dite (fun _ => isFinite_unpack_pack_zero s)
    fun h0 => isFinite_unpack_pack s (Nat.pos_of_ne_zero h0) hx

theorem isFinite_round (s : Sign) {m : Nat} {e : Int} (hm : 0 < m) (he : e ≤ 971)
    (h : 2 * m < (2 ^ 54 - 1) * 2 ^ (971 - e).toNat) :
    (Float.Model.pack (UnpackedFloat.round Format.binary64 s m e)).unpack.isFinite := by
  obtain ⟨t, ht⟩ : ∃ t, Format.binary64.targetExponent (totalExponent m e) = t := ⟨_, rfl⟩
  obtain ⟨k, hk⟩ : ∃ k, (e - t).toNat = k := ⟨_, rfl⟩
  have htot : totalExponent (m * 2 ^ k) (e - k) = totalExponent m e := by
    rw [totalExponent, totalExponent, log2_mul_two_pow hm]
    omega
  rw [UnpackedFloat.round, decreaseExponent, ht, Nat.shiftLeft_eq, hk]
  dsimp only
  refine isFinite_roundWithAccuracy s ?_ (by omega) ?_
  · rw [htot, ht]
    omega
  · rw [show (971 - (e - k)).toNat = (971 - e).toNat + k by omega, Nat.pow_add, ← Nat.mul_assoc,
      ← Nat.mul_assoc]
    exact Nat.mul_lt_mul_of_pos_right h (Nat.two_pow_pos k)

/-! ## opposites and predecessors -/

theorem lt_two_pow_of_canonical {m : Nat} {e : Int} (h : Canonical m e) : m < 2 ^ 53 := by
  have ht := h.target
  rw [targetExponent_eq, totalExponent] at ht
  exact Nat.lt_of_lt_of_le Nat.lt_log2_self (Nat.pow_le_pow_right (by omega) (by omega))

theorem isFinite_neg (c : Float) (h : Scalar.isFinite c) : Scalar.isFinite (-c) := by
  have h' : c.toModel.unpack.isFinite := h
  show (Float.Model.pack (UnpackedFloat.neg c.toModel.unpack)).unpack.isFinite
  cases hc : c.toModel.unpack with
  | infinity s => rw [hc] at h'; cases h'
  | notANumber => rw [hc] at h'; cases h'
  | zero s => exact isFinite_unpack_pack_zero _
  | finite s m e hm => exact isFinite_unpack_pack _ hm (canonical_unpack hc).le

theorem isFinite_normalize {a e : Int} (he : e ≤ 971)
    (h : 2 * a.natAbs < (2 ^ 54 - 1) * 2 ^ (971 - e).toNat) :
    (Float.Model.pack (UnpackedFloat.normalize Format.binary64 a e .positive)).unpack.isFinite := by
  unfold UnpackedFloat.normalize
  split
  · rename_i ha
    have ha : a < 0 := Int.compare_eq_lt.1 ha
    exact isFinite_round _ (by omega) he (by rwa [show (-a).toNat = a.natAbs by omega])
  · exact isFinite_unpack_pack_zero _
  · rename_i ha
    have ha : 0 < a := Int.compare_eq_gt.1 ha
    exact isFinite_round _ (by omega) he (by rwa [show a.toNat = a.natAbs by omega])

theorem natAbs_apply_sub_le (s : Sign) (u v : Nat) :
    (s.apply u - Sign.positive.apply v).natAbs ≤ u + v := by
  cases s with
  | negative =>
    show (-(u : Int) - v).natAbs ≤ u + v
    omega
  | positive =>
    show ((u : Int) - v).natAbs ≤ u + v
    omega

theorem isFinite_sub_one (c : Float) (h : Scalar.isFinite c) : Scalar.isFinite (c - 1) := by
  have h' : c.toModel.unpack.isFinite := h
  show (Float.Model.pack (UnpackedFloat.sub Format.binary64 c.toModel.unpack
    (1.0 : Float).toModel.unpack)).unpack.isFinite
  rw [unpack_one]
  cases hc : c.toModel.unpack with
  | infinity s => rw [hc] at h'; cases h'
  | notANumber => rw [hc] at h'; cases h'
  | zero s => exact isFinite_unpack_pack _ (by decide) (by decide)
  | finite s m e hm =>
    have hx := canonical_unpack hc
    have hm' := lt_two_pow_of_canonical hx
    have he := hx.le
    obtain ⟨E, hE⟩ : ∃ E, min e (-52) = E := ⟨_, rfl⟩
    have hn : (s.apply (m <<< (e - E).toNat : Nat)
        - Sign.positive.apply (2 ^ 52 <<< (-52 - E).toNat : Nat)).natAbs
        ≤ m * 2 ^ (e - E).toNat + 2 ^ (-E).toNat := by
      have h1 : 2 ^ 52 <<< (-52 - E).toNat = 2 ^ (-E).toNat := by
        rw [Nat.shiftLeft_eq, ← Nat.pow_add]
        congr 1
        omega
      rw [h1, Nat.shiftLeft_eq]
      exact natAbs_apply_sub_le s _ _
    show (Float.Model.pack (UnpackedFloat.normalize Format.binary64
      (s.apply (m <<< (e - min e (-52)).toNat : Nat)
      - Sign.positive.apply (2 ^ 52 <<< (-52 - min e (-52)).toNat : Nat)) (min e (-52))
      .positive)).unpack.isFinite
    rw [hE]
    refine isFinite_normalize (by omega) ?_
    have hj : m * 2 ^ (e - E).toNat ≤ (2 ^ 53 - 1) * 2 ^ (971 - E).toNat :=
      Nat.mul_le_mul (by omega) (Nat.pow_le_pow_right (by omega) (by omega))
    have hi : 4 * 2 ^ (-E).toNat ≤ 2 ^ (971 - E).toNat := by
      rw [show 4 = 2 ^ 2 from rfl, ← Nat.pow_add]
      exact Nat.pow_le_pow_right (by omega) (by omega)
    have h0 : 0 < 2 ^ (-E).toNat := Nat.two_pow_pos _
    omega

end Double

instance : FiniteNumbers Float where
  neg h := Double.isFinite_neg _ h
  sub_one h := Double.isFinite_sub_one _ h

end CurveStudy
