import Mathlib.Algebra.Order.Field.Power
import Mathlib.Algebra.Order.Ring.Rat
import Mathlib.Data.List.TakeWhile
import Mathlib.Tactic.NormNum
import Mathlib.Tactic.Ring
import CurveStudy.Decimal.Positional
import CurveStudy.Proofs.Scan

/-!
# Decimals read back

A decimal without an exponent is a plain numeral, and is read back to the same decimal: what is cut
off at its end are zeros.

* `natOfDigits_lastDigits`, `exists_trimmed`   the digits after the point;
* `exists_value_positional`   the whole text.
-/

namespace CurveStudy.Decimal

theorem isDigit_of_mem_lastDigits (places n : Nat) : ∀ c ∈ lastDigits places n, c.isDigit := by
  induction places generalizing n with
  | zero => nofun
  | succ places ih =>
    intro c hc
    rcases List.mem_append.1 hc with hc | hc
    · exact ih (n / 10) c hc
    · rw [List.mem_singleton.1 hc, Nat.isDigit_digitChar]
      exact decide_eq_true (Nat.mod_lt n (by decide))

@[simp] theorem natOfDigits_lastDigits (places n : Nat) :
    Numeral.natOfDigits (lastDigits places n) = n % 10 ^ places := by
  induction places generalizing n with
  | zero => exact (Nat.mod_one n).symm
  | succ places ih =>
    have hd : Numeral.natOfDigits [Nat.digitChar (n % 10)] = n % 10 :=
      (Nat.ofDigitChars_cons_digitChar_of_lt_ten (Nat.mod_lt n (by decide))).trans (Nat.zero_add _)
    rw [lastDigits, Numeral.natOfDigits_append, ih, hd, Nat.pow_succ', Nat.mod_mul, Nat.add_comm]
    rfl

/-- only zeros are cut off -/
theorem exists_trimmed (t : Text) :
    ∃ z, t = Text.trimEndWith (· == '0') t ++ List.replicate z '0' := by
  refine ⟨(t.reverse.takeWhile (· == '0')).length, ?_⟩
  have hz : t.reverse.takeWhile (· == '0')
      = List.replicate (t.reverse.takeWhile (· == '0')).length '0' :=
    List.eq_replicate_of_mem fun c hc => beq_iff_eq.1 (List.mem_takeWhile_imp (x := c) hc)
  rw [Text.trimEndWith, ← List.reverse_replicate, ← hz, ← List.reverse_append,
    List.takeWhile_append_dropWhile, List.reverse_reverse]

/-- the digits after the point, without the zeros at their end -/
theorem exists_fractionText {places n : Nat} (h : n < 10 ^ places) :
    ∃ ds : Text, (∀ c ∈ ds, c.isDigit)
      ∧ (fractionText places n = [] ∧ ds = [] ∨ fractionText places n = '.' :: ds)
      ∧ ∃ z, ds.length + z = places ∧ Numeral.natOfDigits ds * 10 ^ z = n := by
  obtain ⟨z, hz⟩ := exists_trimmed (lastDigits places n)
  obtain ⟨ds, hds⟩ : ∃ ds, Text.trimEndWith (· == '0') (lastDigits places n) = ds := ⟨_, rfl⟩
  rw [hds] at hz
  refine ⟨ds, ?_, ?_, z, ?_, ?_⟩
  · intro c hc
    exact isDigit_of_mem_lastDigits places n c (hz ▸ List.mem_append_left _ hc)
  · rw [fractionText, hds]
    cases ds with
    | nil => exact .inl ⟨rfl, rfl⟩
    | cons c ds => exact .inr rfl
  · have := congrArg List.length hz
    rwa [length_lastDigits, List.length_append, List.length_replicate, eq_comm] at this
  · have hn := congrArg Numeral.natOfDigits hz
    have h0 : Numeral.natOfDigits (List.replicate z '0') = 0 := Nat.ofDigitChars_replicate_zero
    rw [natOfDigits_lastDigits, Nat.mod_eq_of_lt h, Numeral.natOfDigits_append, h0,
      List.length_replicate, Nat.add_zero, Nat.mul_comm] at hn
    exact hn.symm

theorem positional_neg {places : Nat} (c : Nat) (h : 0 < places) : positional c (-places)
    = Text.ofNat (c / 10 ^ places) ++ fractionText places (c % 10 ^ places) := by
  have hp : (- -(places : Int)).toNat = places := by omega
  rw [positional, if_neg (by omega), hp]
  rfl

section
variable {α : Type} [Literal α]

theorem exists_value_positional_neg {places : Nat} (c : Nat) (h : 0 < places) :
    ∃ n k z : Nat, Plain (positional c (-places))
      ∧ (Numeral.value (positional c (-places)) : α) = Literal.ofDecimal n (-k)
      ∧ k + z = places ∧ n * 10 ^ z = c := by
  obtain ⟨ds, hds, ht, z, hz, hn⟩ :=
    exists_fractionText (Nat.mod_lt c (Nat.pow_pos (by decide) : 0 < 10 ^ places))
  obtain ⟨w, hw⟩ : ∃ w, Text.ofNat (c / 10 ^ places) = w := ⟨_, rfl⟩
  have hne : w ≠ [] := hw ▸ Nat.toDigits_ne_nil
  have hdigits : ∀ c ∈ w, c.isDigit := hw ▸ Numeral.isDigit_of_mem_ofNat
  have hvalue : Numeral.natOfDigits (w ++ ds) * 10 ^ z = c := by
    rw [Numeral.natOfDigits_append, ← hw, Numeral.natOfDigits_ofNat, Nat.add_mul, hn,
      Nat.mul_right_comm, ← Nat.pow_add, hz]
    exact Nat.div_add_mod c _
  refine ⟨Numeral.natOfDigits (w ++ ds), ds.length, z, ?_, ?_, hz, hvalue⟩
  · rw [positional_neg c h, hw]
    rcases ht with ⟨ht, -⟩ | ht
    · rw [ht, List.append_nil]
      exact .whole hne hdigits
    · rw [ht]
      exact .decimal hne hdigits hds
  · rw [positional_neg c h, hw]
    rcases ht with ⟨ht, rfl⟩ | ht
    · rw [ht, List.append_nil]
      exact Numeral.value_whole hdigits
    · rw [ht]
      exact Numeral.value_decimal hdigits hds

/-- the text of `c · 10 ^ p` is read back to `n / 10 ^ k`, which is the same -/
theorem exists_value_positional (c : Nat) (p : Int) :
    ∃ n k : Nat, Plain (positional c p)
      ∧ (Numeral.value (positional c p) : α) = Literal.ofDecimal n (-k)
      ∧ (n : Rat) / 10 ^ k = c * 10 ^ p := by
  have hten : ∀ k : Nat, (10 : Rat) ^ k ≠ 0 := fun k => pow_ne_zero k (by norm_num)
  by_cases hp : 0 ≤ p
  · obtain ⟨j, rfl⟩ := Int.eq_ofNat_of_zero_le hp
    have ht : positional c j = Text.ofNat (c * 10 ^ j) := if_pos hp
    refine ⟨c * 10 ^ j, 0, ?_, ?_, ?_⟩
    · rw [ht]
      exact .whole Nat.toDigits_ne_nil Numeral.isDigit_of_mem_ofNat
    · rw [ht, Numeral.value_whole Numeral.isDigit_of_mem_ofNat, Numeral.natOfDigits_ofNat]
      rfl
    · rw [pow_zero, div_one, zpow_natCast]
      push_cast
      rfl
  · obtain ⟨places, rfl⟩ : ∃ places : Nat, p = -places := ⟨(-p).toNat, by omega⟩
    have hpos : 0 < places := by omega
    obtain ⟨n, k, z, hn, hv, rfl, rfl⟩ := exists_value_positional_neg (α := α) c hpos
    refine ⟨n, k, hn, hv, ?_⟩
    rw [zpow_neg, zpow_natCast, ← div_eq_mul_inv, pow_add, Nat.cast_mul, Nat.cast_pow,
      Nat.cast_ofNat, mul_div_mul_right _ _ (hten z)]

end

end CurveStudy.Decimal
