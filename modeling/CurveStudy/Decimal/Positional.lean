import CurveStudy.Text.Basic

/-!
# Decimals without an exponent

`positional c p` writes `c · 10 ^ p` with digits and at most one point: a whole number has no
point, and a fraction has a digit before the point and no zero at its end.
-/

namespace CurveStudy.Decimal

/-- the last `places` digits of `n`, with zeros in front where digits are missing -/
def lastDigits : (places n : Nat) → Text
  | 0, _ => []
  | places + 1, n => lastDigits places (n / 10) ++ [Nat.digitChar (n % 10)]

@[simp] theorem length_lastDigits (places n : Nat) : (lastDigits places n).length = places := by
  induction places generalizing n with
  | zero => rfl
  | succ places ih => rw [lastDigits, List.length_append, ih, List.length_singleton]

/-- the digits after the point, with the point, for `n` units of the last of `places` places;
nothing if they are all zero -/
def fractionText (places n : Nat) : Text :=
  match Text.trimEndWith (· == '0') (lastDigits places n) with
  | [] => []
  | ds => '.' :: ds

/-- the text of `c · 10 ^ p` -/
def positional (c : Nat) (p : Int) : Text :=
  if 0 ≤ p then Text.ofNat (c * Nat.pow 10 p.toNat)
  else
    let places := (-p).toNat
    Text.ofNat (c / Nat.pow 10 places) ++ fractionText places (c % Nat.pow 10 places)

example : positional 25 1 = "250".toList := by decide +kernel
example : positional 25 (-4) = "0.0025".toList := by decide +kernel
example : positional 2500 (-3) = "2.5".toList := by decide +kernel
example : positional 7000 (-3) = "7".toList := by decide +kernel

end CurveStudy.Decimal
