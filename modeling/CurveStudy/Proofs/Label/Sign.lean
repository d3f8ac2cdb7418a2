import CurveStudy.Proofs.Double.Opposite
import CurveStudy.Proofs.Double.Value
import CurveStudy.Proofs.Label.Reading

/-!
# The sign of a label

The label of the opposite of a positive number is its label behind a minus, from `1e-7` on, and
below that both are `0`.  In between, up to `5 / 10 ^ 7`, the digits of the label are all zero, and
the minus stays in front of them.

* `integer?_mirrored`, `fraction?_mirrored`   what the opposite of a number is taken for;
* `SignedAlike`   the labels of a number and of its opposite agree;
* `text_neg`      when they do, and what the labels are otherwise.
-/

namespace CurveStudy.Label
open Literal (ofDecimal)
open Number (nearest)
open Double (Mirrored)

/-! ## texts of opposite values -/

theorem ofInt_neg {n : Int} (h : 0 < n) : Text.ofInt (-n) = '-' :: Text.ofInt n := by
  rw [Text.ofInt, if_pos (by omega), Text.ofInt, if_neg (by omega), Int.natAbs_neg]

section
variable {q : Rat} (h : 0 < q)
include h

@[simp] theorem fractionText_neg : fractionText (-q) = '-' :: fractionText q := by
  unfold fractionText
  rw [Rat.neg_den, Rat.neg_num, ofInt_neg (Rat.num_pos.2 h)]
  split <;> rfl

@[simp] theorem decimalText_neg : decimalText (-q) = '-' :: decimalText q := by
  have hn : -q < 0 := neg_lt_zero.2 h
  rw [decimalText, decimalText, if_pos hn, if_neg h.not_gt, neg_mul, Decimal.roundEven_neg,
    Int.natAbs_neg]

end

/-! ## what the opposite of a number is taken for -/

theorem findSome?_congr {α β : Type} {f g : α → Option β} {l : List α} (h : ∀ x ∈ l, f x = g x) :
    l.findSome? f = l.findSome? g := by
  induction l with
  | nil => rfl
  | cons x l ih =>
    rw [List.findSome?_cons, List.findSome?_cons, h x (List.mem_cons_self ..),
      ih fun y hy => h y (List.mem_cons_of_mem x hy)]

section
variable {v w : Float} (h : Mirrored v w) (hv : Scalar.isFinite v)
include h hv

theorem integer?_mirrored : integer? w = (integer? v).map (-·) := by
  have hn := Double.mirrored_ofInt (nearest v)
  simp only [integer?, h.nearest, (hn.sub h hv).abs_lt_iff, hn.abs_lt_iff]
  split <;> rfl

theorem withDenominator?_mirrored {d : Nat} (h0 : 0 < d) (h53 : d < 2 ^ 53) :
    withDenominator? w d = (withDenominator? v d).map (-·) := by
  have hd := Double.unpack_ofNat h0 h53 rfl (Nat.mul_pos h0 (Nat.two_pow_pos _))
  have hn := Double.mirrored_ofInt (nearest (v * Number.ofNat d))
  simp only [withDenominator?, (h.mul hd).nearest, ((hn.div hd).sub h hv).abs_lt_iff,
    ← Rat.neg_mkRat]
  split <;> rfl

theorem fraction?_mirrored : fraction? w = (fraction? v).map (-·) := by
  simp only [fraction?, h.lt_abs_iff]
  split
  · rfl
  · rw [List.map_findSome?]
    refine findSome?_congr fun d hd => ?_
    have hd := List.mem_range'_1.1 hd
    have hmax : maxDenominator = 100 := rfl
    exact withDenominator?_mirrored h hv (by omega) (by omega)

end

theorem exists_of_fraction? {v : Float} {q : Rat} (h : fraction? v = some q) :
    ∃ d : Nat, 0 < d ∧ d ≤ maxDenominator ∧ withDenominator? v d = some q := by
  rw [fraction?, Option.ite_none_left_eq_some] at h
  obtain ⟨d, hd, h⟩ := List.exists_of_findSome?_eq_some h.2
  have hd := List.mem_range'_1.1 hd
  have hmax : maxDenominator = 100 := rfl
  exact ⟨d, by omega, by omega, h⟩

/-! ## numbers that are not near to zero -/

theorem unpack_ofInt_zero : (Number.ofInt 0 : Float).toModel.unpack = .zero .positive := rfl

section
variable {v : Float} (hv : Scalar.isFinite v)
include hv

theorem nonneg_iff_toRat : 0 ≤ v ↔ 0 ≤ Number.toRat v := by
  have hz : Number.toRat (0 : Float) = 0 := by decide +kernel
  rw [Double.le_iff_toRat (by decide +kernel) hv, hz]

/-- a number is not nearer to a zero than a bound below it -/
theorem not_abs_zero_sub_lt {z t : Float} {s : Float.Model.UnpackedFloat.Sign}
    (hz : z.toModel.unpack = .zero s) (ht : Scalar.isFinite t) (h0 : 0 ≤ v) (h : t ≤ v) :
    ¬ Number.abs (z - v) < t := by
  obtain ⟨hf, hr⟩ := Double.abs_zero_sub hv hz
  rw [Double.lt_iff_toRat hf ht, hr, abs_of_nonneg ((nonneg_iff_toRat hv).1 h0), not_lt]
  exact (Double.le_iff_toRat ht hv).1 h

end

/-- up to here a number is taken for zero -/
def nearZero : Float := ofDecimal 1 (-7)

theorem isFinite_nearZero : Scalar.isFinite nearZero := by decide +kernel

theorem toRat_nearZero : 1 / 2 ^ 74 ≤ Number.toRat nearZero
    ∧ Number.toRat nearZero ≤ 5 / 10 ^ 7 := by
  decide +kernel

section
variable {v : Float} (hv : Scalar.isFinite v) (h7 : nearZero ≤ v)
include hv h7

theorem nearZero_le_toRat : Number.toRat nearZero ≤ Number.toRat v :=
  (Double.le_iff_toRat isFinite_nearZero hv).1 h7

theorem toRat_ge_of_nearZero_le : 1 / 2 ^ 74 ≤ Number.toRat v :=
  toRat_nearZero.1.trans (nearZero_le_toRat hv h7)

theorem nonneg_of_nearZero_le : 0 ≤ v := by
  rw [nonneg_iff_toRat hv]
  exact (by positivity : (0 : Rat) ≤ 1 / 2 ^ 74).trans (toRat_ge_of_nearZero_le hv h7)

/-- products with whole numbers have no sign -/
theorem toRat_mul_nonneg {d : Nat} (h0 : 0 < d) (h53 : d < 2 ^ 53) :
    0 ≤ Number.toRat (v * Number.ofNat d) := by
  obtain ⟨a, ha, ha0⟩ := Double.exists_steps_of_le hv (toRat_ge_of_nearZero_le hv h7)
  obtain ⟨m, e, hm, hu, -, -⟩ := ha.exists_unpack (Nat.lt_of_lt_of_le (Nat.two_pow_pos _) ha0)
  have hd := Double.unpack_ofNat h0 h53 rfl (Nat.mul_pos h0 (Nat.two_pow_pos _))
  refine Double.toRat_nonneg_of_unsigned ?_
  show Double.Unsigned (Float.Model.pack (Float.Model.UnpackedFloat.mul .binary64
    v.toModel.unpack (Number.ofNat d : Float).toModel.unpack)).unpack
  rw [hu, hd]
  exact (Double.unsigned_mul ..).pack

theorem pos_of_integer? {n : Int} (h : integer? v = some n) : 0 < n := by
  have h0 := nonneg_of_nearZero_le hv h7
  simp only [integer?, Option.ite_none_right_eq_some, Option.some_inj] at h
  obtain ⟨⟨hn, -⟩, rfl⟩ := h
  refine lt_of_le_of_ne (Decimal.roundAway_nonneg ((nonneg_iff_toRat hv).1 h0)) fun he => ?_
  rw [← he] at hn
  exact not_abs_zero_sub_lt hv unpack_ofInt_zero isFinite_nearZero h0 h7 hn

theorem pos_of_withDenominator? {d : Nat} {q : Rat} (h0 : 0 < d) (h53 : d < 2 ^ 53)
    (h : withDenominator? v d = some q) : 0 < q := by
  have hd := Double.unpack_ofNat h0 h53 rfl (Nat.mul_pos h0 (Nat.two_pow_pos _))
  have hv0 := nonneg_of_nearZero_le hv h7
  have h9 : (ofDecimal 1 (-9) : Float) ≤ nearZero := by decide +kernel
  have h9f : Scalar.isFinite (ofDecimal 1 (-9) : Float) := by decide +kernel
  simp only [withDenominator?, Option.ite_none_right_eq_some, Option.some_inj] at h
  obtain ⟨hn, rfl⟩ := h
  have hpos : 0 < nearest (v * Number.ofNat d) := by
    refine lt_of_le_of_ne (Decimal.roundAway_nonneg (toRat_mul_nonneg hv h7 h0 h53)) fun he => ?_
    rw [← he] at hn
    refine not_abs_zero_sub_lt (s := .positive) hv ?_ h9f hv0 ?_ hn
    · show (Float.Model.pack (Float.Model.UnpackedFloat.div .binary64
        (Number.ofInt 0 : Float).toModel.unpack (Number.ofNat d : Float).toModel.unpack)).unpack = _
      rw [unpack_ofInt_zero, hd]
      show (Float.Model.pack (.zero .positive)).unpack = .zero .positive
      rfl
    · refine (Double.le_iff_toRat h9f hv).2 (le_trans ?_ (nearZero_le_toRat hv h7))
      exact (Double.le_iff_toRat h9f isFinite_nearZero).1 h9
  rw [Rat.mkRat_eq_div]
  exact div_pos (Int.cast_pos.2 hpos) (Nat.cast_pos.2 h0)

theorem pos_of_fraction? {q : Rat} (h : fraction? v = some q) : 0 < q := by
  obtain ⟨d, h0, hd, h⟩ := exists_of_fraction? h
  exact pos_of_withDenominator? hv h7 h0 (lt_of_le_of_lt hd (by decide)) h

/-- from here on the label of the opposite has a minus in front -/
theorem text_neg_of_nearZero_le : text (-v) = '-' :: text v := by
  have hm := Mirrored.neg_self hv
  have hv' := Double.isFinite_neg v hv
  have hd' := Double.isDefined_of_isFinite hv'
  have hn' := integer?_mirrored hm hv
  have hq' := fraction?_mirrored hm hv
  rcases text_cases (Double.isDefined_of_isFinite hv) hv with
    ⟨n, hn, ht⟩ | ⟨q, hn, hq, ht⟩ | ⟨hn, hq, ht⟩
  · rw [hn] at hn'
    rw [ht, text_of_integer hd' hv' hn', ofInt_neg (pos_of_integer? hv h7 hn)]
  · rw [hn] at hn'
    rw [hq] at hq'
    rw [ht, text_of_fraction hd' hv' hn' hq', fractionText_neg (pos_of_fraction? hv h7 hq)]
  · rw [hn] at hn'
    rw [hq] at hq'
    have hpos : 0 < Number.toRat v :=
      lt_of_lt_of_le (by positivity) (toRat_ge_of_nearZero_le hv h7)
    rw [ht, text_of_decimal hd' hv' hn' hq', hm.toRat, decimalText_neg hpos]

/-! ## labels with digits that are all zero -/

/-- up to `5 / 10 ^ 7` no small multiple is near to another integer than zero -/
theorem nearest_mul_eq_zero (h5 : Number.toRat v ≤ 5 / 10 ^ 7) {d : Nat} (h0 : 0 < d)
    (hd : d ≤ maxDenominator) : nearest (v * Number.ofNat d) = 0 := by
  have hlo := toRat_ge_of_nearZero_le hv h7
  have hpos : 0 < Number.toRat v := lt_of_lt_of_le (by positivity) hlo
  have hd' : (d : Rat) ≤ 100 := by exact_mod_cast hd
  have hmul : Number.toRat v * d ≤ 5 / 10 ^ 7 * 100 := by gcongr
  have hoff := Double.abs_toRat_mul_ofNat_sub_le hv hlo h0 (lt_of_le_of_lt hd (by decide))
    (lt_of_le_of_lt hmul (by norm_num))
  have hup := (abs_le.1 hoff).2
  refine Decimal.roundAway_eq_zero ?_ (by linarith)
  exact toRat_mul_nonneg hv h7 h0 (lt_of_le_of_lt hd (by decide))

theorem fraction?_eq_none (h5 : Number.toRat v ≤ 5 / 10 ^ 7) : fraction? v = none := by
  refine Option.eq_none_iff_forall_not_mem.2 fun q hq => ?_
  obtain ⟨d, h0, hd, h⟩ := exists_of_fraction? hq
  have hpos := pos_of_fraction? hv h7 hq
  simp only [withDenominator?, nearest_mul_eq_zero hv h7 h5 h0 hd, Option.ite_none_right_eq_some,
    Option.some_inj] at h
  rw [← h.2, Rat.mkRat_eq_div, Int.cast_zero, zero_div] at hpos
  exact lt_irrefl 0 hpos

theorem integer?_eq_none (h5 : Number.toRat v ≤ 5 / 10 ^ 7) : integer? v = none := by
  refine Option.eq_none_iff_forall_not_mem.2 fun n hn => ?_
  have hpos := pos_of_integer? hv h7 hn
  have h0 := (nonneg_iff_toRat hv).1 (nonneg_of_nearZero_le hv h7)
  have hz : nearest v = 0 := Decimal.roundAway_eq_zero h0 (lt_of_le_of_lt h5 (by norm_num))
  simp only [integer?, hz, Option.mem_def, Option.ite_none_right_eq_some, Option.some_inj] at hn
  omega

theorem read?_text_eq_zero_iff : read? (text v) = some 0 ↔ Number.toRat v ≤ 5 / 10 ^ 7 := by
  rcases text_cases (Double.isDefined_of_isFinite hv) hv with
    ⟨n, hn, ht⟩ | ⟨q, -, hq, ht⟩ | ⟨-, -, ht⟩
  · rw [ht, read?_ofInt, Option.some_inj, Int.cast_eq_zero]
    refine iff_of_false (pos_of_integer? hv h7 hn).ne' fun h5 => ?_
    rw [integer?_eq_none hv h7 h5] at hn
    cases hn
  · rw [ht, read?_fractionText, Option.some_inj]
    refine iff_of_false (pos_of_fraction? hv h7 hq).ne' fun h5 => ?_
    rw [fraction?_eq_none hv h7 h5] at hq
    cases hq
  · have h0 := (nonneg_iff_toRat hv).1 (nonneg_of_nearZero_le hv h7)
    have hp : (0 : Rat) < 10 ^ places := by positivity
    rw [ht, read?_decimalText, Option.some_inj, div_eq_zero_iff, or_iff_left hp.ne',
      Int.cast_eq_zero, Decimal.roundEven_eq_zero_iff (mul_nonneg h0 hp.le), ← le_div_iff₀ hp]
    norm_num [places]

theorem text_eq_zero (h5 : Number.toRat v ≤ 5 / 10 ^ 7) : text v = ['0'] := by
  have h0 := (nonneg_iff_toRat hv).1 (nonneg_of_nearZero_le hv h7)
  have hr : Decimal.roundEven (Number.toRat v * 10 ^ places) = 0 := by
    rw [Decimal.roundEven_eq_zero_iff (mul_nonneg h0 (by positivity)),
      ← le_div_iff₀ (by positivity)]
    exact h5.trans (by norm_num [places])
  rw [text_of_decimal (Double.isDefined_of_isFinite hv) hv (integer?_eq_none hv h7 h5)
    (fraction?_eq_none hv h7 h5), decimalText, hr, if_neg (not_lt.2 h0)]
  decide +kernel

end

/-- what is below the bound is taken for zero, and so is its opposite -/
theorem text_eq_zero_of_lt {v : Float} (hv : Scalar.isFinite v) (h0 : 0 ≤ v) (h : v < nearZero) :
    text v = ['0'] ∧ text (-v) = ['0'] := by
  have hv' := Double.isFinite_neg v hv
  have hr0 := (nonneg_iff_toRat hv).1 h0
  have hr := (Double.lt_iff_toRat hv isFinite_nearZero).1 h
  have hz : nearest v = 0 :=
    Decimal.roundAway_eq_zero hr0 (hr.trans (lt_of_le_of_lt toRat_nearZero.2 (by norm_num)))
  obtain ⟨hf, habs⟩ := Double.abs_zero_sub hv unpack_ofInt_zero
  have hlt : Number.abs (Number.ofInt 0 - v) < nearZero := by
    rwa [Double.lt_iff_toRat hf isFinite_nearZero, habs, abs_of_nonneg hr0]
  have hlarge : Number.abs (Number.ofInt 0 : Float) < ofDecimal 1 15 := by decide +kernel
  have hn : integer? v = some 0 := by
    rw [integer?, hz]
    exact if_pos ⟨hlt, hlarge⟩
  have hn' : integer? (-v) = some 0 := by
    rw [integer?_mirrored (Mirrored.neg_self hv) hv, hn]
    rfl
  rw [text_of_integer (Double.isDefined_of_isFinite hv) hv hn,
    text_of_integer (Double.isDefined_of_isFinite hv') hv' hn']
  exact ⟨rfl, rfl⟩

/-! ## the labels of a number and of its opposite -/

/-- A label of zero is the same for both.  Another label has a minus in front for the opposite. -/
def SignedAlike (v : Float) : Prop :=
  (read? (text v) = some 0 → text v = ['0'] ∧ text (-v) = ['0'])
  ∧ (read? (text v) ≠ some 0 → text (-v) = '-' :: text v)

/-- The labels of a number and of its opposite agree below `1e-7`, where both are zero, and above
`5 / 10 ^ 7`.  In between the one is zero, and the other has a minus in front all the same. -/
theorem text_neg {v : Float} (hv : Scalar.isFinite v) (h0 : 0 ≤ v) :
    (SignedAlike v ↔ v < ofDecimal 1 (-7) ∨ 5 / 10 ^ 7 < Number.toRat v)
    ∧ (v < ofDecimal 1 (-7) → text v = ['0'] ∧ text (-v) = ['0'])
    ∧ (ofDecimal 1 (-7) ≤ v → text (-v) = '-' :: text v
      ∧ (Number.toRat v ≤ 5 / 10 ^ 7 → text v = ['0'])) := by
  refine ⟨?_, text_eq_zero_of_lt hv h0,
    fun h7 => ⟨text_neg_of_nearZero_le hv h7, text_eq_zero hv h7⟩⟩
  by_cases h : v < nearZero
  · obtain ⟨ht, ht'⟩ := text_eq_zero_of_lt hv h0 h
    have hread : read? (text v) = some 0 := by
      rw [ht]
      exact read?_ofInt 0
    exact iff_of_true ⟨fun _ => ⟨ht, ht'⟩, fun hne => absurd hread hne⟩ (.inl h)
  · have h7 : nearZero ≤ v := by
      rw [Double.lt_iff_toRat hv isFinite_nearZero, not_lt] at h
      exact (Double.le_iff_toRat isFinite_nearZero hv).2 h
    have hread := read?_text_eq_zero_iff hv h7
    have hneg := text_neg_of_nearZero_le hv h7
    by_cases h5 : Number.toRat v ≤ 5 / 10 ^ 7
    · refine iff_of_false (fun hs => ?_) (not_or_intro h (not_lt.2 h5))
      have hzero := (hs.1 (hread.2 h5)).2
      rw [hneg] at hzero
      cases hzero
    · exact iff_of_true ⟨fun hr => absurd (hread.1 hr) h5, fun _ => hneg⟩ (.inr (not_le.1 h5))

/-- `0.5` and its opposite -/
theorem text_neg_half : Scalar.isFinite (0.5 : Float) ∧ (0 : Float) ≤ 0.5
    ∧ SignedAlike (0.5 : Float) ∧ text (0.5 : Float) = "1/2".toList
    ∧ text (-0.5 : Float) = "-1/2".toList := by
  have hf : Scalar.isFinite (0.5 : Float) := by decide +kernel
  have h0 : (0 : Float) ≤ 0.5 := by decide +kernel
  have ht : text (0.5 : Float) = "1/2".toList := by decide +kernel
  obtain ⟨halike, -, hneg⟩ := text_neg hf h0
  obtain ⟨hn, -⟩ := hneg (by decide +kernel)
  refine ⟨hf, h0, halike.2 (.inr (by decide +kernel)), ht, ?_⟩
  rw [hn, ht]
  rfl

/-- `2e-7` has the label of zero, and its opposite has a minus in front of it -/
theorem not_signedAlike : ¬ ∀ v : Float, Scalar.isFinite v → 0 ≤ v → SignedAlike v := by
  intro h
  have hf : Scalar.isFinite (ofDecimal 2 (-7) : Float) := by decide +kernel
  have h0 : (0 : Float) ≤ ofDecimal 2 (-7) := by decide +kernel
  have h7 : nearZero ≤ ofDecimal 2 (-7) := by decide +kernel
  have h5 : Number.toRat (ofDecimal 2 (-7) : Float) ≤ 5 / 10 ^ 7 := by decide +kernel
  have hzero := ((h _ hf h0).1 ((read?_text_eq_zero_iff hf h7).2 h5)).2
  rw [text_neg_of_nearZero_le hf h7] at hzero
  cases hzero

end CurveStudy.Label
