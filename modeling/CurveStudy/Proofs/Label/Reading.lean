import CurveStudy.Label
import CurveStudy.Proofs.Decimal.Positional
import CurveStudy.Proofs.Decimal.Rounding
import CurveStudy.Proofs.Half

/-!
# Labels read back

The label of a finite number is a numeral, with a sign in front of it if there is one, or two of
them on either side of a slash.

* `read?`   the number that a label denotes;
* `text_cases`   the three kinds of labels;
* `read?_ofInt`, `read?_fractionText`, `read?_decimalText`   what they are read back to;
* `slash_mem_fractionText`   which of them have a slash.
-/

namespace CurveStudy

namespace Numeral
variable {α : Type} [Arith α] [Literal α] {t : Text}

theorem sign_plain (h : Plain t) : sign t = ([], t) := by
  obtain ⟨c, u, rfl, hc⟩ := h.exists_digit
  unfold sign
  split
  · rename_i he
    obtain ⟨rfl, -⟩ := List.cons.inj he
    cases hc
  · rename_i he
    obtain ⟨rfl, -⟩ := List.cons.inj he
    cases hc
  · rfl

theorem startsNumeral_plain (h : Plain t) : startsNumeral t := by
  obtain ⟨c, u, rfl, hc⟩ := h.exists_digit
  unfold startsNumeral
  split
  · rename_i he
    obtain ⟨rfl, -⟩ := List.cons.inj he
    cases hc
  · exact hc

theorem scan_plain_eq (h : Plain t) : scan t = (t, []) := by
  have := scan_plain (t := []) h nofun
  rwa [List.append_nil] at this

theorem read?_plain (h : Plain t) : read? t = some (value t : α) := by
  rw [read?, sign_plain h]
  dsimp only
  rw [startsNumeral_plain h, scan_plain_eq h]
  rfl

theorem read?_minus (h : Plain t) : read? ('-' :: t) = some (-value t : α) := by
  have hs : sign ('-' :: t) = (['-'], t) := rfl
  rw [read?, hs]
  dsimp only
  rw [startsNumeral_plain h, scan_plain_eq h]
  rfl

end Numeral

theorem Plain.slash_not_mem {t : Text} (h : Plain t) : '/' ∉ t := by
  cases h with
  | whole _ hw => exact fun hs => nomatch hw _ hs
  | decimal _ hw hd =>
    intro hs
    rcases List.mem_append.1 hs with hs | hs
    · exact nomatch hw _ hs
    · rcases List.mem_cons.1 hs with hs | hs
      · cases hs
      · exact nomatch hd _ hs

namespace Label

/-- the number that a label denotes: that of a numeral, or one over another -/
def read? (t : Text) : Option Rat :=
  match t.dropWhile (· != '/') with
  | [] => Numeral.read? t
  | _ :: d =>
    (Numeral.read? (t.takeWhile (· != '/'))).bind fun p => (Numeral.read? d).map (p / ·)

theorem read?_of_not_mem {t : Text} (h : '/' ∉ t) : read? t = Numeral.read? t := by
  have ht : t.dropWhile (· != '/') = [] :=
    List.dropWhile_eq_nil_iff.2 fun c hc => bne_iff_ne.2 (ne_of_mem_of_not_mem hc h)
  rw [read?, ht]

theorem read?_over {s d : Text} {p r : Rat} (h : '/' ∉ s) (hs : Numeral.read? s = some p)
    (hd : Numeral.read? d = some r) : read? (s ++ '/' :: d) = some (p / r) := by
  have hc : ∀ c ∈ s, c != '/' := fun c hc => bne_iff_ne.2 (ne_of_mem_of_not_mem hc h)
  obtain ⟨h1, h2⟩ := takeWhile_dropWhile_append (p := (· != '/')) (t := '/' :: d) hc (by simp)
  rw [read?, h1, h2]
  dsimp only
  rw [hs, hd]
  rfl

/-! ## the three kinds of labels of a finite number -/

section
variable {α : Type} [Number α] {v : α} (hd : Number.isDefined v) (hf : Scalar.isFinite v)
include hd hf

theorem text_of_integer {n : Int} (hn : integer? v = some n) : text v = Text.ofInt n := by
  rw [text, hd, hf, hn]
  rfl

theorem text_of_fraction {q : Rat} (hn : integer? v = none) (hq : fraction? v = some q) :
    text v = fractionText q := by
  rw [text, hd, hf, hn, hq]
  rfl

theorem text_of_decimal (hn : integer? v = none) (hq : fraction? v = none) :
    text v = decimalText (Number.toRat v) := by
  rw [text, hd, hf, hn, hq]
  rfl

theorem text_cases : (∃ n, integer? v = some n ∧ text v = Text.ofInt n)
    ∨ (∃ q, integer? v = none ∧ fraction? v = some q ∧ text v = fractionText q)
    ∨ (integer? v = none ∧ fraction? v = none ∧ text v = decimalText (Number.toRat v)) := by
  rcases hn : integer? v with _ | n
  · rcases hq : fraction? v with _ | q
    · exact .inr (.inr ⟨rfl, rfl, text_of_decimal hd hf hn hq⟩)
    · exact .inr (.inl ⟨q, rfl, rfl, text_of_fraction hd hf hn hq⟩)
  · exact .inl ⟨n, rfl, text_of_integer hd hf hn⟩

end

/-! ## integers -/

theorem plain_ofNat (n : Nat) : Plain (Text.ofNat n) :=
  .whole Nat.toDigits_ne_nil Numeral.isDigit_of_mem_ofNat

@[simp] theorem value_ofNat (n : Nat) : (Numeral.value (Text.ofNat n) : Rat) = n := by
  rw [Numeral.value_whole Numeral.isDigit_of_mem_ofNat, Numeral.natOfDigits_ofNat]
  show (n : Rat) * 10 ^ (0 : Int) = n
  rw [zpow_zero, mul_one]

theorem slash_not_mem_ofInt (n : Int) : '/' ∉ Text.ofInt n := by
  unfold Text.ofInt
  split
  · intro h
    rcases List.mem_cons.1 h with h | h
    · cases h
    · exact (plain_ofNat _).slash_not_mem h
  · exact (plain_ofNat _).slash_not_mem

@[simp] theorem numeral_ofInt (n : Int) : Numeral.read? (Text.ofInt n) = some (n : Rat) := by
  unfold Text.ofInt
  split
  · rename_i h
    rw [Numeral.read?_minus (plain_ofNat _), value_ofNat, ← Int.cast_natCast,
      Int.ofNat_natAbs_of_nonpos (Int.le_of_lt h), Int.cast_neg, neg_neg]
  · rename_i h
    rw [Numeral.read?_plain (plain_ofNat _), value_ofNat, ← Int.cast_natCast,
      Int.natAbs_of_nonneg (Int.not_lt.1 h)]

@[simp] theorem read?_ofInt (n : Int) : read? (Text.ofInt n) = some (n : Rat) :=
  (read?_of_not_mem (slash_not_mem_ofInt n)).trans (numeral_ofInt n)

/-! ## fractions -/

theorem slash_mem_fractionText {q : Rat} : '/' ∈ fractionText q ↔ q.den ≠ 1 := by
  unfold fractionText
  split
  · rename_i h
    exact iff_of_false (slash_not_mem_ofInt _) (not_not_intro h)
  · rename_i h
    exact iff_of_true (List.mem_append_right _ (List.mem_cons_self ..)) h

@[simp] theorem read?_fractionText (q : Rat) : read? (fractionText q) = some q := by
  unfold fractionText
  split
  · rename_i h
    rw [read?_ofInt, Rat.coe_int_num_of_den_eq_one h]
  · rw [read?_over (slash_not_mem_ofInt _) (numeral_ofInt _) (Numeral.read?_plain (plain_ofNat _)),
      value_ofNat, Rat.num_div_den]

/-! ## decimals -/

theorem plain_units (c : Nat) : Plain (Decimal.positional c (-places)) := by
  obtain ⟨-, -, h, -⟩ := Decimal.exists_value_positional (α := Rat) c (-places)
  exact h

@[simp] theorem value_units (c : Nat) :
    (Numeral.value (Decimal.positional c (-places)) : Rat) = c / 10 ^ places := by
  obtain ⟨n, k, -, hv, h⟩ := Decimal.exists_value_positional (α := Rat) c (-places)
  have hk : (Literal.ofDecimal n (-k) : Rat) = n / 10 ^ k := by
    show (n : Rat) * 10 ^ (-(k : Int)) = n / 10 ^ k
    rw [zpow_neg, zpow_natCast, div_eq_mul_inv]
  rw [hv, hk, h, zpow_neg, zpow_natCast, div_eq_mul_inv]

theorem slash_not_mem_decimalText (q : Rat) : '/' ∉ decimalText q := by
  unfold decimalText
  dsimp only
  split
  · intro h
    rcases List.mem_cons.1 h with h | h
    · cases h
    · exact (plain_units _).slash_not_mem h
  · exact (plain_units _).slash_not_mem

@[simp] theorem read?_decimalText (q : Rat) :
    read? (decimalText q)
      = some ((Decimal.roundEven (q * 10 ^ places) : Rat) / 10 ^ places) := by
  rw [read?_of_not_mem (slash_not_mem_decimalText q), decimalText]
  have hp : (0 : Rat) ≤ 10 ^ places := by positivity
  split
  · rename_i h
    have hn : 0 ≤ -Decimal.roundEven (q * 10 ^ places) := by
      rw [← Decimal.roundEven_neg, ← neg_mul]
      exact Decimal.roundEven_nonneg (mul_nonneg (neg_nonneg.2 h.le) hp)
    rw [Numeral.read?_minus (plain_units _), value_units, ← Int.cast_natCast,
      Int.ofNat_natAbs_of_nonpos (neg_nonneg.1 hn), Int.cast_neg, neg_div, neg_neg]
  · rename_i h
    have hn := Decimal.roundEven_nonneg (mul_nonneg (not_lt.1 h) hp)
    rw [Numeral.read?_plain (plain_units _), value_units, ← Int.cast_natCast,
      Int.natAbs_of_nonneg hn]

end Label

end CurveStudy
