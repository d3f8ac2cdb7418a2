import CurveStudy.Text.Basic

/-!
# Blank characters

The characters with the Unicode property `White_Space`, and the removal of blanks at the two ends
of a text.  `trimEnd t` and `trimStart t` take nothing but blanks away; `trim` does both.

* `isBlank_of_isWhitespace`   every character that is white space in ASCII is blank;
* `trimEnd_concat`            what trimming does to the last character.
-/

namespace CurveStudy

/-- ranges of the code points with the property `White_Space`, both ends included -/
def blankRanges : List (Nat × Nat) :=
  [(0x0009, 0x000D), (0x0020, 0x0020), (0x0085, 0x0085), (0x00A0, 0x00A0), (0x1680, 0x1680),
   (0x2000, 0x200A), (0x2028, 0x2029), (0x202F, 0x202F), (0x205F, 0x205F), (0x3000, 0x3000)]

/-- the character is white space -/
def isBlank (c : Char) : Bool := blankRanges.any fun r => r.1 ≤ c.toNat && c.toNat ≤ r.2

theorem isBlank_of_isWhitespace {c : Char} (h : c.isWhitespace) : isBlank c := by
  unfold Char.isWhitespace at h
  simp only [Bool.or_eq_true, decide_eq_true_eq] at h
  rcases h with ((rfl | rfl) | rfl) | rfl <;> decide

/-- twenty-five characters in all -/
example : (blankRanges.map fun r => r.2 - r.1 + 1).sum = 25 := rfl

namespace Text

def trimStart (t : Text) : Text := t.dropWhile isBlank
def trimEnd (t : Text) : Text := trimEndWith isBlank t

/-- the text without the blanks at its two ends -/
def trim (t : Text) : Text := trimEnd (trimStart t)

@[simp] theorem trimStart_cons (c : Char) (t : Text) :
    trimStart (c :: t) = if isBlank c then trimStart t else c :: t := List.dropWhile_cons

@[simp] theorem trimEnd_concat (t : Text) (c : Char) :
    trimEnd (t ++ [c]) = if isBlank c then trimEnd t else t ++ [c] := trimEndWith_concat isBlank t c

end Text

end CurveStudy
