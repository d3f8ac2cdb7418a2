import Mathlib.Algebra.Order.Field.Power
import Mathlib.Algebra.Order.Ring.Rat
import Mathlib.Tactic.Linarith
import Mathlib.Tactic.NormNum
import Mathlib.Tactic.Ring
import CurveStudy.Proofs.Decimal.Positional
import CurveStudy.Proofs.Decimal.Shortest
import CurveStudy.Proofs.Double.OfDecimal
import CurveStudy.Proofs.Grammar.Text

/-!
# The texts of doubles

The text of a finite number is the shortest decimal in its interval, and this is rounded to the
number again.

* `contains_decimal`   the decimal is in the interval;
* `value_interval_text`   it is read back;
* `exists_digits`   every finite number is read back.
-/

namespace CurveStudy.Double
open Float.Model Float.Model.UnpackedFloat

/-! ## the interval -/

/-- numbers of steps are rational numbers on another scale -/
theorem exists_scale : ∃ u : Rat, 0 < u ∧ ∀ (m : Nat) (e : Int), -1074 ≤ e →
    (magnitude m e : Rat) = m * 2 ^ (e - 2) * (4 * u) := by
  have h2 : (2 : Rat) ≠ 0 := by norm_num
  refine ⟨2 ^ (1074 : Int), zpow_pos (by norm_num) _, fun m e he => ?_⟩
  rw [magnitude, Nat.cast_mul, Nat.cast_pow, Nat.cast_ofNat, ← zpow_natCast,
    Int.toNat_of_nonneg (by omega), show e + 1074 = e - 2 + 2 + 1074 by omega, zpow_add₀ h2,
    zpow_add₀ h2]
  generalize (2 : Rat) ^ (1074 : Int) = u
  ring

section
variable {x c k : Nat} {e : Int}

theorem exists_cast_magnitude (he : -1074 ≤ e) : ∃ u : Rat, 0 < u
    ∧ ((magnitude x e * 10 ^ k : Nat) : Rat) = x * 2 ^ (e - 2) * 10 ^ k * u
    ∧ ((4 * magnitude c 0 : Nat) : Rat) = c * u := by
  obtain ⟨u, hu, h⟩ := exists_scale
  refine ⟨4 * u, mul_pos (by norm_num) hu, ?_, ?_⟩
  · rw [Nat.cast_mul, h x e he, Nat.cast_pow, Nat.cast_ofNat]
    ring
  · rw [Nat.cast_mul, h c 0 (by omega), Nat.cast_ofNat,
      show (2 : Rat) ^ (0 - 2 : Int) = 1 / 4 by norm_num]
    ring

theorem magnitude_mul_le_iff (he : -1074 ≤ e) :
    magnitude x e * 10 ^ k ≤ 4 * magnitude c 0 ↔ (x * 2 ^ (e - 2) : Rat) ≤ c / 10 ^ k := by
  obtain ⟨u, hu, hx, hc⟩ := exists_cast_magnitude (x := x) (c := c) (k := k) he
  have hten : (0 : Rat) < 10 ^ k := pow_pos (by norm_num) k
  rw [← Nat.cast_le (α := Rat), hx, hc, mul_le_mul_iff_left₀ hu, le_div_iff₀ hten]

theorem le_magnitude_mul_iff (he : -1074 ≤ e) :
    4 * magnitude c 0 ≤ magnitude x e * 10 ^ k ↔ (c / 10 ^ k : Rat) ≤ x * 2 ^ (e - 2) := by
  obtain ⟨u, hu, hx, hc⟩ := exists_cast_magnitude (x := x) (c := c) (k := k) he
  have hten : (0 : Rat) < 10 ^ k := pow_pos (by norm_num) k
  rw [← Nat.cast_le (α := Rat), hx, hc, mul_le_mul_iff_left₀ hu, div_le_iff₀ hten]

end

theorem interval_eq (b : Binary) : b.interval
    = { lower := (4 * b.mantissa - below b.mantissa b.exponent : Nat) * 2 ^ (b.exponent - 2)
        value := b.mantissa * 2 ^ b.exponent
        upper := (4 * b.mantissa + 2 : Nat) * 2 ^ (b.exponent - 2)
        closed := b.mantissa % 2 = 0 } :=
  rfl

section
variable {b : Binary} {c k : Nat}

/-- the interval, as a fraction of a step -/
theorem near_of_contains (he : -1074 ≤ b.exponent) (h : b.interval.contains (c / 10 ^ k)) :
    Near b.mantissa b.exponent (magnitude c 0) (10 ^ k) := by
  rw [interval_eq, Decimal.Interval.contains] at h
  dsimp only at h
  by_cases h0 : b.mantissa % 2 = 0
  · rw [if_pos (decide_eq_true h0), Bool.and_eq_true_iff, decide_eq_true_iff,
      decide_eq_true_iff] at h
    exact ⟨(magnitude_mul_le_iff he).2 h.1, (le_magnitude_mul_iff he).2 h.2, by omega⟩
  · rw [if_neg (by rwa [decide_eq_true_iff]), Bool.and_eq_true_iff, decide_eq_true_iff,
      decide_eq_true_iff] at h
    refine ⟨(magnitude_mul_le_iff he).2 h.1.le, (le_magnitude_mul_iff he).2 h.2.le, fun _ => ?_⟩
    rw [← Nat.not_le, ← Nat.not_le, le_magnitude_mul_iff he, magnitude_mul_le_iff he, not_le,
      not_le]
    exact h

/-- seventeen digits are enough for every number -/
theorem contains_decimal (hm : 0 < b.mantissa) (h53 : b.mantissa < 2 ^ 53) :
    b.interval.contains (b.interval.decimal.1 * 10 ^ b.interval.decimal.2) := by
  obtain ⟨q, hq⟩ : ∃ q : Rat, (2 : Rat) ^ (b.exponent - 2) = q := ⟨_, rfl⟩
  have hq0 : 0 < q := hq ▸ zpow_pos (by norm_num) _
  have hvalue : (b.mantissa : Rat) * 2 ^ b.exponent = (4 * b.mantissa : Nat) * q := by
    rw [show b.exponent = b.exponent - 2 + 2 by omega, zpow_add₀ (by norm_num), hq]
    push_cast
    ring
  obtain ⟨w, hw⟩ : ∃ w, below b.mantissa b.exponent = w := ⟨_, rfl⟩
  have hwide : 1 ≤ w ∧ w ≤ 2 ∧ 4 * b.mantissa < 10 ^ 16 * (w + 2) := by
    rw [below] at hw
    split at hw <;> omega
  have hlow : ((4 * b.mantissa - w : Nat) : Rat) = (4 * b.mantissa : Nat) - w :=
    Nat.cast_sub (by omega)
  have hone : (1 : Rat) ≤ w := by exact_mod_cast hwide.1
  have hwidth : ((4 * b.mantissa : Nat) : Rat) < 10 ^ 16 * (w + 2) := by exact_mod_cast hwide.2.2
  rw [interval_eq, hvalue, hq, hw, hlow, Nat.cast_add]
  refine Decimal.Interval.contains_decimal ?_ ?_ ?_ ?_
  · exact mul_lt_mul_of_pos_right (by linarith) hq0
  · exact mul_lt_mul_of_pos_right (by norm_num) hq0
  · exact mul_pos (by exact_mod_cast (by omega : 0 < 4 * b.mantissa)) hq0
  · refine (mul_lt_mul_of_pos_right hwidth hq0).trans_eq ?_
    push_cast
    ring

end

/-! ## the text -/

section
variable {v u : Float} {s : Sign} {m : Nat} {e : Int} {hm : 0 < m}

theorem value_interval_text (hv : v.toModel.unpack = .finite s m e hm)
    (hu : u.toModel.unpack = .finite .positive m e hm) :
    Plain (Binary.ofFloat v).interval.text
    ∧ (Numeral.value (Binary.ofFloat v).interval.text : Float) = u := by
  have hc := canonical_unpack hv
  obtain ⟨hmant, hexp, -⟩ := ofFloat_of_finite hv
  have hd := contains_decimal (b := Binary.ofFloat v) (hmant.symm ▸ hm)
    (hmant.symm ▸ lt_two_pow_of_canonical hc)
  obtain ⟨n, k, hn, hval, heq⟩ := Decimal.exists_value_positional (α := Float)
    (Binary.ofFloat v).interval.decimal.1 (Binary.ofFloat v).interval.decimal.2
  rw [← heq] at hd
  have hnear := near_of_contains (hexp.symm ▸ hc.ge) hd
  rw [hmant, hexp] at hnear
  exact ⟨hn, hval.trans (ofDecimal_of_near hu hnear)⟩

theorem text_of_isFinite {b : Binary} (hb : Binary.ofFloat v = b)
    (h : v.toModel.unpack.isFinite) : text v
    = if b.negative then '-' :: (if b.mantissa = 0 then ['0'] else b.interval.text)
      else if b.mantissa = 0 then ['0'] else b.interval.text := by
  have hnan : v.isNaN = false := by
    show v.toModel.unpack.isNaN = false
    cases hu : v.toModel.unpack with
    | notANumber => rw [hu] at h; cases h
    | infinity s => rfl
    | zero s => rfl
    | finite s m e hm => rfl
  have hinf : v.isInf = false := by
    show v.toModel.unpack.isInf = false
    cases hu : v.toModel.unpack with
    | infinity s => rw [hu] at h; cases h
    | notANumber => rfl
    | zero s => rfl
    | finite s m e hm => rfl
  rw [text, hnan, hinf, hb]
  rfl

theorem plain_zero : Plain ['0'] :=
  .whole (List.cons_ne_nil _ _) (List.forall_mem_singleton.2 rfl)

theorem value_zero : (Numeral.value ['0'] : Float)
    = Float.ofModel (Float.Model.pack (.zero .positive)) := by
  decide +kernel

/-- a finite number is written as a plain numeral that is read back to the number, or with a minus
in front of one that is read back to the opposite -/
theorem exists_digits (h : Scalar.isFinite v) : ∃ t, Plain t
    ∧ (text v = t ∧ Numeral.value t = v ∨ text v = '-' :: t ∧ Numeral.value t = -v) := by
  have h' : v.toModel.unpack.isFinite := h
  have ht := text_of_isFinite rfl h'
  have hneg : -v = Float.ofModel (Float.Model.pack (UnpackedFloat.neg v.toModel.unpack)) := rfl
  cases hv : v.toModel.unpack with
  | infinity s => rw [hv] at h'; cases h'
  | notANumber => rw [hv] at h'; cases h'
  | zero s =>
    obtain ⟨hm0, hs⟩ := ofFloat_of_zero hv
    rw [if_pos hm0] at ht
    rw [hv] at hneg
    refine ⟨['0'], plain_zero, ?_⟩
    cases s with
    | negative =>
      rw [if_pos (hs.2 rfl)] at ht
      exact .inr ⟨ht, value_zero.trans hneg.symm⟩
    | positive =>
      rw [if_neg fun hn => Sign.noConfusion (hs.1 hn)] at ht
      exact .inl ⟨ht, value_zero.trans (ofModel_pack_zero hv)⟩
  | finite s m e hm =>
    obtain ⟨hmant, -, hs⟩ := ofFloat_of_finite hv
    have hm0 : (Binary.ofFloat v).mantissa ≠ 0 := hmant.symm ▸ Nat.ne_of_gt hm
    rw [if_neg hm0] at ht
    rw [hv] at hneg
    cases s with
    | negative =>
      have hu : (-v).toModel.unpack = .finite .positive m e hm := by
        rw [hneg]
        exact unpack_pack_finite .positive hm (canonical_unpack hv)
      obtain ⟨hn, hval⟩ := value_interval_text hv hu
      rw [if_pos (hs.2 rfl)] at ht
      exact ⟨_, hn, .inr ⟨ht, hval⟩⟩
    | positive =>
      obtain ⟨hn, hval⟩ := value_interval_text hv hv
      rw [if_neg fun hn => Sign.noConfusion (hs.1 hn)] at ht
      exact ⟨_, hn, .inl ⟨ht, hval⟩⟩

end

end Double

instance : PlainText Float where
  unsigned {v} h hs := by
    obtain ⟨t, ht, ⟨hv, hval⟩ | ⟨hv, -⟩⟩ := Double.exists_digits h
    · rw [show Literal.text v = t from hv]
      exact ⟨ht, hval⟩
    · rw [show Literal.text v = '-' :: t from hv] at hs
      cases hs
  signed {v u} h hu := by
    obtain ⟨t, ht, ⟨hv, -⟩ | ⟨hv, hval⟩⟩ := Double.exists_digits h
    · obtain ⟨c, w, rfl, hc⟩ := ht.exists_digit
      obtain ⟨rfl, -⟩ := List.cons.inj (hv.symm.trans hu)
      cases hc
    · obtain ⟨-, rfl⟩ := List.cons.inj (hv.symm.trans hu)
      exact ⟨ht, hval⟩

end CurveStudy
