import CurveStudy.Scalar

/-!
# Numerals

A numeral is `digits[.digits][e[+-]digits]` or `.digits[e[+-]digits]`, where no digit need stand
after the first point and the letter may be `e` or `E`.  The exponent belongs to the numeral only
if it has a digit, so that in `2e` the numeral is `2`.

* `startsNumeral`  a numeral stands at the front of a text;
* `scan`           the longest one there, and what follows it;
* `value`          the number it denotes;
* `read?`          the number denoted by a whole text, with a sign if there is one.

`append_scan` says that scanning loses nothing, `scan_ne_nil` that it finds what is there.
-/

namespace CurveStudy.Numeral

/-- the digits at the front of a text, and what follows them -/
def digits (t : Text) : Text × Text := (t.takeWhile Char.isDigit, t.dropWhile Char.isDigit)

/-- a point at the front of a text with the digits after it, and what follows -/
def fraction : Text → Text × Text
  | '.' :: t => ('.' :: (digits t).1, (digits t).2)
  | t => ([], t)

/-- a plus or a minus at the front of a text, and what follows -/
def sign : Text → Text × Text
  | '+' :: t => (['+'], t)
  | '-' :: t => (['-'], t)
  | t => ([], t)

/-- the text starts with a digit -/
def startsDigit : Text → Bool
  | c :: _ => c.isDigit
  | [] => false

/-- an exponent at the front of a text, and what follows -/
def exponent : Text → Text × Text
  | [] => ([], [])
  | c :: t =>
    if (c == 'e' || c == 'E') && startsDigit (sign t).2 then
      (c :: (sign t).1 ++ (digits (sign t).2).1, (digits (sign t).2).2)
    else ([], c :: t)

/-- a numeral stands at the front of the text -/
def startsNumeral : Text → Bool
  | '.' :: t => startsDigit t
  | t => startsDigit t

/-- the longest numeral at the front of a text, and what follows it -/
def scan (t : Text) : Text × Text :=
  let whole := digits t
  let point := fraction whole.2
  let power := exponent point.2
  (whole.1 ++ point.1 ++ power.1, power.2)

@[simp] theorem append_digits (t : Text) : (digits t).1 ++ (digits t).2 = t :=
  List.takeWhile_append_dropWhile

@[simp] theorem append_fraction (t : Text) : (fraction t).1 ++ (fraction t).2 = t := by
  unfold fraction
  split
  · rw [List.cons_append, append_digits]
  · rfl

@[simp] theorem append_sign (t : Text) : (sign t).1 ++ (sign t).2 = t := by
  unfold sign
  split <;> rfl

@[simp] theorem append_exponent (t : Text) : (exponent t).1 ++ (exponent t).2 = t := by
  unfold exponent
  split
  · rfl
  · split
    · rw [List.cons_append, List.cons_append, List.append_assoc, append_digits, append_sign]
    · rfl

@[simp] theorem append_scan (t : Text) : (scan t).1 ++ (scan t).2 = t := by
  dsimp only [scan]
  rw [List.append_assoc, append_exponent, List.append_assoc, append_fraction, append_digits]

theorem digits_ne_nil {t : Text} (h : startsDigit t) : (digits t).1 ≠ [] := by
  cases t with
  | nil => cases h
  | cons c t =>
    have hc : c.isDigit = true := h
    show (c :: t).takeWhile Char.isDigit ≠ []
    rw [List.takeWhile_cons_of_pos hc]
    exact List.cons_ne_nil c _

/-- where a numeral starts, the longest one is not empty -/
theorem scan_ne_nil {t : Text} (h : startsNumeral t) : (scan t).1 ≠ [] := by
  unfold startsNumeral at h
  split at h
  · exact fun e => absurd e (by simp [scan, digits, fraction])
  · intro e
    exact digits_ne_nil h (List.append_eq_nil_iff.1 (List.append_eq_nil_iff.1 e).1).1

/-- the natural number with the given decimal digits -/
def natOfDigits (ds : Text) : Nat := ds.foldl (fun n c => 10 * n + (c.toNat - '0'.toNat)) 0

/-- the power of ten that an exponent stands for; none is the power zero -/
def powerOfExponent (t : Text) : Int :=
  match sign (t.drop 1) with
  | (['-'], ds) => -(natOfDigits ds : Int)
  | (_, ds) => natOfDigits ds

/-- the number that a numeral denotes -/
def value {α : Type} [Literal α] (t : Text) : α :=
  let whole := digits t
  let point := fraction whole.2
  let power := exponent point.2
  let decimals := point.1.drop 1
  Literal.ofDecimal (natOfDigits (whole.1 ++ decimals))
    (powerOfExponent power.1 - (decimals.length : Int))

/-- the number that a whole text denotes: a numeral after at most one sign -/
def read? {α : Type} [Arith α] [Literal α] (t : Text) : Option α :=
  let body := (sign t).2
  if startsNumeral body && (scan body).2.isEmpty then
    if (sign t).1 = ['-'] then some (-value body) else some (value body)
  else none

example : scan "12.5e+3x".toList = ("12.5e+3".toList, ['x']) := by decide +kernel
example : scan "2e+x".toList = (['2'], "e+x".toList) := by decide +kernel
example : scan "1..2".toList = ("1.".toList, ".2".toList) := by decide +kernel

end CurveStudy.Numeral
