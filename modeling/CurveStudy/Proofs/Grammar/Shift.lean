import CurveStudy.Proofs.Grammar.Relocate

/-!
# Tokens that stand further on

Of tokens that stand `k` bytes further on the same is read, and a fault stands `k` bytes further on
too.  There is one exception.  An exponent that is missing at the end of the tokens has the place
zero, since there is no token that could give it one; if there are too many levels already, then
that is the place of the fault.

* `Fault.shift`, `Token.shift`   everything `k` bytes further on;
* `Fault.Moved`      the same fault, further on but for the exception;
* `Shifted`          two outcomes, the second one of the tokens that stand further on;
* `ofTokens_shift`   a list of tokens.
-/

namespace CurveStudy

/-- the fault with its place `k` bytes further on -/
def Fault.shift (k : Nat) : Fault → Fault
  | empty => empty
  | unexpectedChar c pos => unexpectedChar c (k + pos)
  | numeralTooLarge t pos => numeralTooLarge t (k + pos)
  | unclosedBracket pos => unclosedBracket (k + pos)
  | unmatchedBracket pos => unmatchedBracket (k + pos)
  | unexpectedEnd => unexpectedEnd
  | unexpectedToken t pos => unexpectedToken t (k + pos)
  | unknownName t pos => unknownName t (k + pos)
  | reservedName t pos => reservedName t (k + pos)
  | missingArgument t pos => missingArgument t (k + pos)
  | variableExponent pos => variableExponent (k + pos)
  | nonFiniteNumber pos => nonFiniteNumber (k + pos)
  | tooDeep pos => tooDeep (k + pos)

theorem Fault.relocate_add (k : Nat) (f : Fault) : f.relocate (k + ·) = f.shift k := by
  cases f <;> rfl

/-- the second fault is the first one `k` bytes further on, but for too many levels at the end -/
def Fault.Moved (k : Nat) (f g : Fault) : Prop := g = f.shift k ∨ f = tooDeep 0 ∧ g = tooDeep 0

/-- of two outcomes the second one is that of the same text further on: the result is moved by
`move`, or the fault by `k` bytes -/
inductive Shifted {β : Type} (k : Nat) (move : β → β) :
    Except Fault β → Except Fault β → Prop where
  | ok (b : β) : Shifted k move (.ok b) (.ok (move b))
  | error {f g : Fault} (h : f.Moved k g) : Shifted k move (.error f) (.error g)

namespace Shifted
variable {β γ : Type} {k : Nat} {move : β → β} {move' : γ → γ} {r s : Except Fault β}

theorem fault (f : Fault) : Shifted k move (.error f) (.error (f.shift k)) := .error (.inl rfl)

theorem eq_ok {b : β} (h : Shifted k move (.ok b) s) : s = .ok (move b) := by
  cases h
  rfl

theorem eq_error {f : Fault} (h : Shifted k move (.error f) s) :
    ∃ g, s = .error g ∧ f.Moved k g := by
  cases h with
  | error h => exact ⟨_, rfl, h⟩

theorem bind {f g : β → Except Fault γ} (h : Shifted k move r s)
    (hf : ∀ b, r = .ok b → Shifted k move' (f b) (g (move b))) :
    Shifted k move' (r >>= f) (s >>= g) := by
  cases h with
  | ok b => exact hf b rfl
  | error h => exact .error h

theorem map {f g : β → γ} (h : Shifted k move r s) (hf : ∀ b, g (move b) = move' (f b)) :
    Shifted k move' (r.map f) (s.map g) := by
  cases h with
  | ok b =>
    show Shifted k move' (.ok (f b)) (.ok (g (move b)))
    rw [hf]
    exact .ok (f b)
  | error h => exact .error h

end Shifted

namespace Token
variable {α : Type}

def shift (k : Nat) (t : Token α) : Token α := { t with pos := k + t.pos }

end Token

namespace Expr
variable {α : Type} [Scalar α] [Literal α]

/-- the tree of tokens that stand further on: the number that is not finite at the place zero is
no fault of theirs -/
theorem ofTokens_shift (k : Nat) {ts : List (Token α)}
    (h : ofTokens ts ≠ .error (.nonFiniteNumber 0)) :
    Shifted k id (ofTokens ts) (ofTokens (ts.map (Token.shift k))) := by
  have hr : Relocated (k + ·) id (ofTokens ts) (ofTokens (ts.map (Token.shift k))) :=
    ofTokens_relocate (k + ·) ts
  generalize ofTokens ts = r at h hr
  generalize ofTokens (ts.map (Token.shift k)) = s at hr
  cases hr with
  | ok e => exact .ok e
  | error hf =>
    refine .error ?_
    rcases hf with rfl | ⟨rfl, rfl | rfl⟩
    · exact .inl (Fault.relocate_add k _)
    · exact .inr ⟨rfl, rfl⟩
    · exact absurd rfl h

end Expr

end CurveStudy
