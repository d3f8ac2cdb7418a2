import Mathlib.Algebra.Field.Rat
import Mathlib.Algebra.Order.Field.Basic
import Mathlib.Algebra.Order.Ring.Rat
import CurveStudy.Number

/-!
# Numbers of a field, and others

The finite numbers of an extended number type are those of an ordered field.  Arithmetic and order
are exact between them, and a quotient is one of them if it is not by zero.  Of the other numbers,
such as infinities and what is no number, nothing is known.  A power or a function may be any number
anywhere.

* `Extended`     such a number type;
* `ofNat_eq`, `ofInt_eq`, `abs_of`, `exists_clamp`   the small operations on its finite numbers;
* `ExactValue`   one of which the finite numbers are the rational ones, with their exact values;
* `Partial`      the rational numbers and one more, which is what a division by zero gives.
-/

namespace CurveStudy
open Literal (ofDecimal)

/-- numbers of which the finite ones are those of an ordered field -/
class Extended (α : Type) (K : outParam Type) [Field K] [LinearOrder K] [IsStrictOrderedRing K]
    extends Number α where
  of : K → α
  isFinite_iff {v : α} : Scalar.isFinite v ↔ ∃ q, v = of q
  of_zero : of 0 = 0
  of_one : of 1 = 1
  neg_of (p : K) : -of p = of (-p)
  add_of (p q : K) : of p + of q = of (p + q)
  sub_of (p q : K) : of p - of q = of (p - q)
  mul_of (p q : K) : of p * of q = of (p * q)
  div_of (p : K) {q : K} (hq : q ≠ 0) : of p / of q = of (p / q)
  of_lt_of {p q : K} : of p < of q ↔ p < q
  of_le_of {p q : K} : of p ≤ of q ↔ p ≤ q
  ofDecimal_eq (m : Nat) (e : Int) : ofDecimal m e = of (m * 10 ^ e)

namespace Extended
variable {α K : Type} [Field K] [LinearOrder K] [IsStrictOrderedRing K] [Extended α K]

attribute [simp] neg_of add_of sub_of mul_of of_lt_of of_le_of

@[simp] theorem isFinite_of (q : K) : Scalar.isFinite (of q : α) := isFinite_iff.2 ⟨q, rfl⟩

theorem ofNat_eq (n : Nat) : (Number.ofNat n : α) = of (n : K) := by
  rw [Number.ofNat, ofDecimal_eq, zpow_zero, mul_one]

theorem ofInt_eq (n : Int) : (Number.ofInt n : α) = of (n : K) := by
  unfold Number.ofInt
  split
  · rename_i h
    rw [ofNat_eq, neg_of, ← Int.cast_natCast, Int.ofNat_natAbs_of_nonpos h.le, Int.cast_neg,
      neg_neg]
  · rename_i h
    rw [ofNat_eq, ← Int.cast_natCast, Int.natAbs_of_nonneg (not_lt.1 h)]

@[simp] theorem abs_of (q : K) : Number.abs (of q : α) = of |q| := by
  unfold Number.abs
  rw [← of_zero]
  split
  · rename_i h
    rw [neg_of, abs_of_neg (of_lt_of.1 h)]
  · rename_i h
    rw [abs_of_nonneg (not_lt.1 (mt of_lt_of.2 h))]

theorem exists_clamp (p q r : K) : ∃ s : K, Number.clamp (of p : α) (of q) (of r) = of s := by
  unfold Number.clamp
  split
  · exact ⟨p, rfl⟩
  · split
    · exact ⟨q, rfl⟩
    · exact ⟨r, rfl⟩

end Extended

/-- numbers of which the finite ones are the rational numbers, with their exact values -/
class ExactValue (α : Type) extends Extended α Rat where
  toRat_of (q : Rat) : Number.toRat (of q) = q
  isDefined_of (q : Rat) : Number.isDefined (of q)

/-! ## the rational numbers and one more -/

/-- a rational number, or what a division by zero gives -/
inductive Partial where
  | num (q : Rat)
  | undefined
  deriving DecidableEq

namespace Partial

/-- an operation on rational numbers; nothing comes of what is undefined -/
def map (f : Rat → Rat → Partial) : Partial → Partial → Partial
  | num p, num q => f p q
  | _, _ => undefined

/-- what is undefined is neither smaller nor larger than any number -/
def test (r : Rat → Rat → Bool) : Partial → Partial → Bool
  | num p, num q => r p q
  | _, _ => false

/-- the functions are undefined everywhere, and a power has a whole exponent -/
instance : Number Partial where
  zero := num 0
  one := num 1
  add := map fun p q => num (p + q)
  sub := map fun p q => num (p - q)
  mul := map fun p q => num (p * q)
  div := map fun p q => if q = 0 then undefined else num (p / q)
  neg
    | num p => num (-p)
    | undefined => undefined
  half := num (1 / 2)
  beq := test fun p q => p == q
  pi := num 3
  pow := map fun b n => num (b ^ n.num)
  apply _ _ := undefined
  isFinite
    | num _ => true
    | undefined => false
  ofDecimal m e := num (m * 10 ^ e)
  text
    | num q => Text.ofInt q.num ++ '/' :: Text.ofNat q.den
    | undefined => ['?']
  lt a b := test (fun p q => decide (p < q)) a b
  le a b := test (fun p q => decide (p ≤ q)) a b
  decidableLT _ _ := inferInstanceAs (Decidable (_ = true))
  decidableLE _ _ := inferInstanceAs (Decidable (_ = true))
  toRat
    | num q => q
    | undefined => 0

instance : Extended Partial Rat where
  of := num
  isFinite_iff {v} := by
    cases v with
    | num q => exact ⟨fun _ => ⟨q, rfl⟩, fun _ => rfl⟩
    | undefined => exact ⟨nofun, nofun⟩
  of_zero := rfl
  of_one := rfl
  neg_of _ := rfl
  add_of _ _ := rfl
  sub_of _ _ := rfl
  mul_of _ _ := rfl
  div_of _ _ hq := if_neg hq
  of_lt_of := decide_eq_true_iff
  of_le_of := decide_eq_true_iff
  ofDecimal_eq _ _ := rfl

instance : ExactValue Partial where
  toRat_of _ := rfl
  isDefined_of q := beq_self_eq_true q

end Partial

end CurveStudy
