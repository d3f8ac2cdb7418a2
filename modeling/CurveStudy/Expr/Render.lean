import CurveStudy.Expr.Basic

/-!
# The text of a tree

`e.render` writes a tree so that it can be read again.  A coefficient stands in front and is left
out if it is `1`; of `-1` only the sign is written.  Products are joined by `*`, and a minus sign of
a later term becomes the sign between two terms.

Brackets stand where reading asks for them:

* around a base that is not `isAtom`, and around a denominator that is not `isDivisor`;
* around a factor that is a sum or a quotient or has a minus sign in front;
* around a numerator that is a sum, or has a minus sign behind a coefficient.
-/

namespace CurveStudy.Expr

variable {α : Type} [Scalar α] [Literal α]

/-- a coefficient in front of a text, with `*` where the two would run together -/
def withCoeff (c : α) (body : Text) : Text :=
  if c == 1 then body
  else if c == -1 then '-' :: body
  else if body.head?.any fun d => d.isDigit || d == '.' then Literal.text c ++ '*' :: body
  else Literal.text c ++ body

/-- the text of the number is a plain numeral, without a sign -/
def isPlain (c : α) : Bool := c == c && !(Literal.text c).isSigned

/-- the tree can be the base of a power without brackets -/
def isAtom : Expr α → Bool
  | .var => true
  | .const c => isPlain c
  | .trig _ _ c => c == 1
  | _ => false

/-- the tree can be divided by without brackets: a power binds more than a division -/
def isDivisor : Expr α → Bool
  | .power b _ c => c == 1 && b.isAtom
  | e => e.isAtom

/-- the text in brackets if `b` holds -/
def bracketIf (b : Bool) (t : Text) : Text := if b then t.bracketed else t

/-- terms after the first, each behind its sign -/
def joinTerms : List Text → Text
  | [] => []
  | ('-' :: t) :: ts => " - ".toList ++ t ++ joinTerms ts
  | t :: ts => " + ".toList ++ t ++ joinTerms ts

/-- the terms of a sum -/
def sumText : List Text → Text
  | [] => []
  | t :: ts => t ++ joinTerms ts

mutual
def render : Expr α → Text
  | .const c => Literal.text c
  | .var => ['x']
  | .sum ts => sumText (renderEach ts)
  | .product fs c => withCoeff c (Text.joinWith ['*'] (renderFactors fs))
  | .power b n c => withCoeff c (bracketIf (!b.isAtom) (render b) ++ '^' :: Literal.text n)
  | .quotient a b c =>
    let num := render a
    withCoeff c (bracketIf (a.isSum || c != 1 && num.isSigned) num
      ++ '/' :: bracketIf (!b.isDivisor) (render b))
  | .trig k a c => withCoeff c (k.name ++ (render a).bracketed)

def renderEach : List (Expr α) → List Text
  | [] => []
  | e :: es => render e :: renderEach es

/-- the texts of the factors of a product -/
def renderFactors : List (Expr α) → List Text
  | [] => []
  | e :: es =>
    let t := render e
    bracketIf (e.isSum || e.isQuotient || t.isSigned) t :: renderFactors es
end

@[simp] theorem renderEach_eq_map (es : List (Expr α)) : renderEach es = es.map render := by
  induction es with
  | nil => rfl
  | cons e es ih => rw [renderEach, ih, List.map_cons]

end CurveStudy.Expr
