import Mathlib.Algebra.Order.Ring.Rat
import Mathlib.Tactic.Linarith
import Mathlib.Tactic.NormNum
import Mathlib.Tactic.Ring
import CurveStudy.Proofs.Grammar.Text

/-!
# Halves of whole numbers

The rational numbers as exact numbers, of which the halves of whole numbers count as finite.  They
are written as plain numerals that have the digit `5` behind the point or no point, and are read
back to the same number.  A power has a whole exponent, and the functions are zero everywhere.

* `Half.text`   the text of half a natural number, `value_text` what it is read back to.
-/

namespace CurveStudy

namespace Half

/-- half of `n` -/
def text (n : Nat) : Text :=
  if n % 2 = 0 then Text.ofNat (n / 2) else Text.ofNat (n / 2) ++ ['.', '5']

theorem plain_text (n : Nat) : Plain (text n) := by
  unfold text
  split
  · exact .whole Nat.toDigits_ne_nil Numeral.isDigit_of_mem_ofNat
  · exact .decimal Nat.toDigits_ne_nil Numeral.isDigit_of_mem_ofNat
      (List.forall_mem_singleton.2 rfl)

end Half

instance : Scalar Rat where
  half := 1 / 2
  pi := 3
  pow b n := b ^ n.num
  apply _ _ := 0
  isFinite q := (2 * q).isInt

instance : Literal Rat where
  ofDecimal m e := m * 10 ^ e
  text q :=
    let digits := Half.text (2 * q).num.natAbs
    if q < 0 then '-' :: digits else digits

instance : Exact Rat where
  __ := (inferInstance : Scalar Rat)
  __ := (inferInstance : CommRing Rat)
  mul_div c a b := mul_div_assoc c a b
  pow_zero b := Rat.zpow_zero b
  pow_one b := Rat.zpow_one b

namespace Half

theorem isFinite_iff {q : Rat} : Scalar.isFinite q ↔ ∃ n : Int, q = n / 2 := by
  show (2 * q).isInt ↔ _
  rw [Rat.isInt, beq_iff_eq]
  constructor
  · intro hq
    refine ⟨(2 * q).num, ?_⟩
    have hn : ((2 * q).num : Rat) = 2 * q := Rat.coe_int_num_of_den_eq_one hq
    linarith
  · rintro ⟨n, rfl⟩
    rw [mul_div_cancel₀ (n : Rat) two_ne_zero]
    rfl

theorem text_eq (n : Int) : Literal.text (n / 2 : Rat)
    = if n < 0 then '-' :: text n.natAbs else text n.natAbs := by
  have hn : (2 * (n / 2 : Rat)).num = n := by
    rw [mul_div_cancel₀ (n : Rat) two_ne_zero]
    rfl
  have hs : (n / 2 : Rat) < 0 ↔ n < 0 := by
    rw [div_lt_iff₀ two_pos, zero_mul]
    exact Int.cast_lt_zero
  show (if (n / 2 : Rat) < 0 then '-' :: text (2 * (n / 2 : Rat)).num.natAbs
    else text (2 * (n / 2 : Rat)).num.natAbs) = _
  rw [hn]
  exact if_congr hs rfl rfl

theorem value_text (n : Nat) : (Numeral.value (text n) : Rat) = n / 2 := by
  unfold text
  split
  · rename_i h
    rw [Numeral.value_whole Numeral.isDigit_of_mem_ofNat, Numeral.natOfDigits_ofNat]
    show ((n / 2 : Nat) : Rat) * 10 ^ (0 : Int) = n / 2
    have hn : (n : Rat) = 2 * (n / 2 : Nat) := by exact_mod_cast (by omega : n = 2 * (n / 2))
    rw [zpow_zero]
    linarith
  · rename_i h
    have h5 : ∀ c ∈ ['5'], c.isDigit := List.forall_mem_singleton.2 rfl
    rw [Numeral.value_decimal Numeral.isDigit_of_mem_ofNat h5, Numeral.natOfDigits_append,
      Numeral.natOfDigits_ofNat]
    show ((10 * (n / 2) + 5 : Nat) : Rat) * 10 ^ (-1 : Int) = n / 2
    have hn : (n : Rat) = 2 * (n / 2 : Nat) + 1 := by
      exact_mod_cast (by omega : n = 2 * (n / 2) + 1)
    push_cast
    rw [zpow_neg_one]
    linarith

end Half

instance : FiniteNumbers Rat where
  zero := by decide +kernel
  one := by decide +kernel
  neg_one := by decide +kernel
  two := by decide +kernel
  half := by decide +kernel
  pi := by decide +kernel
  neg h := by
    obtain ⟨n, rfl⟩ := Half.isFinite_iff.1 h
    exact Half.isFinite_iff.2 ⟨-n, by push_cast; ring⟩
  sub_one h := by
    obtain ⟨n, rfl⟩ := Half.isFinite_iff.1 h
    exact Half.isFinite_iff.2 ⟨n - 2, by push_cast; ring⟩

instance : PlainText Rat where
  unsigned h hs := by
    obtain ⟨n, rfl⟩ := Half.isFinite_iff.1 h
    rw [Half.text_eq] at hs ⊢
    split
    · rename_i hn
      rw [if_pos hn] at hs
      cases hs
    · rename_i hn
      refine ⟨Half.plain_text _, ?_⟩
      rw [Half.value_text]
      rw [← Int.cast_natCast, Int.natAbs_of_nonneg (Int.not_lt.1 hn)]
  signed h ht := by
    obtain ⟨n, rfl⟩ := Half.isFinite_iff.1 h
    rw [Half.text_eq] at ht
    split at ht
    · rename_i hn
      obtain ⟨-, rfl⟩ := List.cons.inj ht
      refine ⟨Half.plain_text _, ?_⟩
      rw [Half.value_text, ← Int.cast_natCast, Int.ofNat_natAbs_of_nonpos (Int.le_of_lt hn)]
      push_cast
      ring
    · obtain ⟨c, u, hc, hd⟩ := (Half.plain_text n.natAbs).exists_digit
      rw [hc] at ht
      obtain ⟨rfl, -⟩ := List.cons.inj ht
      cases hd

end CurveStudy
