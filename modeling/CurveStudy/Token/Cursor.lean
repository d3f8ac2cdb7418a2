import CurveStudy.Token.Basic
import CurveStudy.Fault

/-!
# A place in a list of tokens

A cursor is what the reader of an expression knows while it goes through the tokens: the tokens
that are left, and the number of levels it is inside of.

A level is a bracket, an argument, an exponent, or one more operand of a product.  There are at
most `maxDepth` of them at a time, so that the tree that is read can be gone through by recursion.

* `Cursor.enter`   one level more, refused at the limit;
* `Cursor.leave`   levels given back;
* `Cursor.joint?`  how the next operand is joined to the product before it.
-/

namespace CurveStudy

/-- the greatest number of levels at a time -/
def maxDepth : Nat := 256

structure Cursor (α : Type) where
  rest : List (Token α)
  depth : Nat

/-- the two ways to continue a product -/
inductive Joint where
  | product
  | quotient
  deriving DecidableEq

namespace Cursor
variable {α : Type}

/-- the place of the next token; zero at the end -/
def pos (c : Cursor α) : Nat :=
  match c.rest with
  | t :: _ => t.pos
  | [] => 0

/-- the next symbol -/
def look (c : Cursor α) : Option (Symbol α) := c.rest.head?.map Token.symbol

/-- the cursor behind the next token -/
def skip (c : Cursor α) : Cursor α := { c with rest := c.rest.tail }

/-- one level more, opened by the token at `pos` -/
def enter (pos : Nat) (c : Cursor α) : Except Fault (Cursor α) :=
  if c.depth < maxDepth then .ok { c with depth := c.depth + 1 } else .error (.tooDeep pos)

theorem enter_eq_ok_iff {pos : Nat} {c d : Cursor α} :
    c.enter pos = .ok d ↔ c.depth < maxDepth ∧ d = { c with depth := c.depth + 1 } := by
  unfold enter
  by_cases h : c.depth < maxDepth
  · rw [if_pos h, Except.ok.injEq, eq_comm, and_iff_right h]
  · rw [if_neg h]
    exact ⟨nofun, fun e => absurd e.1 h⟩

/-- `n` levels less -/
def leave (n : Nat) (c : Cursor α) : Cursor α := { c with depth := c.depth - n }

@[simp] theorem leave_zero (c : Cursor α) : c.leave 0 = c := rfl

/-- How the next operand is joined to the product before it, and the cursor at that operand.  An
operand that follows without an operator is multiplied; it cannot start with a sign. -/
def joint? (c : Cursor α) : Option (Joint × Cursor α) :=
  match c.look with
  | some .times => some (.product, c.skip)
  | some .slash => some (.quotient, c.skip)
  | some (.num _) | some (.name _) | some .pi | some .opening => some (.product, c)
  | _ => none

/-- the cursor behind a closing bracket, whose partner is at `pos` -/
def close [Literal α] (pos : Nat) (c : Cursor α) : Except Fault (Cursor α) :=
  match c.rest with
  | [] => .error (.unclosedBracket pos)
  | t :: _ =>
    match t.symbol with
    | .closing => .ok c.skip
    | s => .error (.unexpectedToken s.text t.pos)

end Cursor

end CurveStudy
