/-!
# Texts as lists of characters

A text is the list of its characters.  Places in a text are counted in bytes of its UTF-8 form.

* `byteSize`      the length of a text in bytes, additive over `++`;
* `trimEndWith`   the text without the characters at its end that satisfy a test;
* `ofNat`, `ofInt`   the decimal digits of a whole number;
* `joinWith`      texts one after another with a separator between two of them.
-/

namespace CurveStudy

abbrev Text := List Char

namespace Text

/-- the length in bytes of the UTF-8 form -/
def byteSize : Text → Nat
  | [] => 0
  | c :: t => c.utf8Size + byteSize t

@[simp] theorem byteSize_nil : byteSize [] = 0 := rfl
@[simp] theorem byteSize_cons (c : Char) (t : Text) :
    byteSize (c :: t) = c.utf8Size + byteSize t := rfl
@[simp] theorem byteSize_append (s t : Text) : byteSize (s ++ t) = byteSize s + byteSize t := by
  induction s with
  | nil => simp
  | cons c s ih => simp [ih, Nat.add_assoc]

/-- the text without the characters at its end that satisfy `p` -/
def trimEndWith (p : Char → Bool) (t : Text) : Text := (t.reverse.dropWhile p).reverse

@[simp] theorem trimEndWith_nil (p : Char → Bool) : trimEndWith p [] = [] := rfl

@[simp] theorem trimEndWith_concat (p : Char → Bool) (t : Text) (c : Char) :
    trimEndWith p (t ++ [c]) = if p c then trimEndWith p t else t ++ [c] := by
  unfold trimEndWith
  rw [List.reverse_append, List.reverse_singleton, List.singleton_append, List.dropWhile_cons]
  split
  · rfl
  · rw [List.reverse_cons, List.reverse_reverse]

/-- the text starts with a minus sign -/
def isSigned (t : Text) : Bool := t.head? == some '-'

/-- the text between brackets -/
def bracketed (t : Text) : Text := '(' :: t ++ [')']

/-- the decimal digits of a natural number -/
def ofNat (n : Nat) : Text := Nat.toDigits 10 n

/-- the decimal digits of an integer, after a minus sign if it is negative -/
def ofInt (n : Int) : Text := if n < 0 then '-' :: ofNat n.natAbs else ofNat n.natAbs

/-- texts one after another, `sep` between two of them -/
def joinWith (sep : Text) : List Text → Text
  | [] => []
  | [t] => t
  | t :: u :: ts => t ++ sep ++ joinWith sep (u :: ts)

@[simp] theorem joinWith_nil (sep : Text) : joinWith sep [] = [] := rfl
@[simp] theorem joinWith_singleton (sep t : Text) : joinWith sep [t] = t := rfl
@[simp] theorem joinWith_cons_cons (sep t u : Text) (ts : List Text) :
    joinWith sep (t :: u :: ts) = t ++ sep ++ joinWith sep (u :: ts) := rfl

end Text

end CurveStudy
