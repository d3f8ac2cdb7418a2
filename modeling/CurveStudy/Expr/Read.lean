import CurveStudy.Expr.Build
import CurveStudy.Expr.Eval
import CurveStudy.Expr.Measure
import CurveStudy.Token.Cursor
import CurveStudy.Token.Scan

/-!
# From tokens to a tree

An expression is read by its grammar, from the weakest binding to the strongest:

    sum      := product (('+' | '-') product)*
    product  := signed (('*' | '/' | nothing) signed)*
    signed   := '-'? power
    power    := atom ('^' exponent)?
    exponent := '-'? power
    atom     := number | π | x | function '(' sum ')' | '(' sum ')'

There is one function for each line.  It takes a cursor and gives back what it has read with the
cursor behind it, at the level where it started.

The tree is folded while it is read: a minus is a factor `-1`, an exponent is the value of its
tree, which must not contain the variable, and a square root is a power.

The functions call each other at most `fuel` deep, a number that depends on the tokens alone, so
they recurse on what is left of it; `Expr.ofTokens` gives them enough.
-/

namespace CurveStudy
open Arith (half)
open Scalar (pi)

/-- what a name stands for -/
inductive Meaning where
  | var
  | trig (k : Trig)
  | sqrt
  /-- a function that there is not yet -/
  | reserved
  | unknown
  deriving DecidableEq

/-- names kept for functions that there are not yet -/
def reservedNames : List Text := ["ln".toList, "log".toList, "exp".toList, "abs".toList]

def Meaning.ofName (t : Text) : Meaning :=
  if t = ['x'] then .var
  else
    match Trig.ofName? t with
    | some k => .trig k
    | none =>
      if t = "sqrt".toList then .sqrt
      else if t ∈ reservedNames then .reserved
      else .unknown

namespace Expr
variable {α : Type} [Scalar α]

/-- the tree of two operands of a product -/
def join (e f : Expr α) : Joint → Expr α
  | .product => productOf [e, f] 1
  | .quotient => .quotient e f 1

/-- the number that an exponent stands for, whose first token is at `pos` -/
def exponentValue (pos : Nat) (negative : Bool) (e : Expr α) : Except Fault α :=
  if e.hasVar then .error (.variableExponent pos)
  else
    let v := if negative then -e.eval 0 else e.eval 0
    if Scalar.isFinite v then .ok v else .error (.nonFiniteNumber pos)

variable [Literal α]

mutual
def readSum : (fuel : Nat) → Cursor α → Except Fault (Expr α × Cursor α)
  | 0, _ => .error .unexpectedEnd
  | n + 1, c => do
    let (e, c) ← readProduct n c
    let (es, c) ← readTerms n c
    .ok (sumOf (e :: es), c)

/-- the terms of a sum after the first -/
def readTerms : (fuel : Nat) → Cursor α → Except Fault (List (Expr α) × Cursor α)
  | 0, _ => .error .unexpectedEnd
  | n + 1, c =>
    match c.look with
    | some .plus => do
      let (e, c) ← readProduct n c.skip
      let (es, c) ← readTerms n c
      .ok (e :: es, c)
    | some .minus => do
      let (e, c) ← readProduct n c.skip
      let (es, c) ← readTerms n c
      .ok (e.scale (-1) :: es, c)
    | _ => .ok ([], c)

def readProduct : (fuel : Nat) → Cursor α → Except Fault (Expr α × Cursor α)
  | 0, _ => .error .unexpectedEnd
  | n + 1, c => do
    let (e, c) ← readSigned n c
    readFactors n 0 e c

/-- the operands of a product after those in `e`, which have opened `levels` levels; each opens one
more, and all are given back at the end -/
def readFactors : (fuel : Nat) → (levels : Nat) → Expr α → Cursor α →
    Except Fault (Expr α × Cursor α)
  | 0, _, _, _ => .error .unexpectedEnd
  | n + 1, levels, e, c =>
    match c.joint? with
    | some (j, d) => do
      let d ← d.enter c.pos
      let (f, d) ← readSigned n d
      readFactors n (levels + 1) (join e f j) d
    | none => .ok (e, c.leave levels)

def readSigned : (fuel : Nat) → Cursor α → Except Fault (Expr α × Cursor α)
  | 0, _ => .error .unexpectedEnd
  | n + 1, c =>
    match c.look with
    | some .minus => do
      let (e, c) ← readPower n c.skip
      .ok (e.scale (-1), c)
    | _ => readPower n c

def readPower : (fuel : Nat) → Cursor α → Except Fault (Expr α × Cursor α)
  | 0, _ => .error .unexpectedEnd
  | n + 1, c => do
    let (b, c) ← readAtom n c
    match c.look with
    | some .caret => do
      let (v, c) ← readExponent n c.skip
      .ok (powerOf b v 1, c)
    | _ => .ok (b, c)

def readExponent : (fuel : Nat) → Cursor α → Except Fault (α × Cursor α)
  | 0, _ => .error .unexpectedEnd
  | n + 1, c => do
    let d ← c.enter c.pos
    match d.look with
    | some .minus => do
      let (e, d) ← readPower n d.skip
      let v ← exponentValue c.pos true e
      .ok (v, d.leave 1)
    | _ => do
      let (e, d) ← readPower n d
      let v ← exponentValue c.pos false e
      .ok (v, d.leave 1)

def readAtom : (fuel : Nat) → Cursor α → Except Fault (Expr α × Cursor α)
  | 0, _ => .error .unexpectedEnd
  | n + 1, c =>
    match c.rest with
    | [] => .error .unexpectedEnd
    | t :: _ =>
      match t.symbol with
      | .num v => .ok (.const v, c.skip)
      | .pi => .ok (.const pi, c.skip)
      | .opening => readBrackets n c
      | .closing => .error (.unmatchedBracket t.pos)
      | .name w =>
        match Meaning.ofName w with
        | .var => .ok (.var, c.skip)
        | .trig k => do
          let (a, c) ← readArgument n w c
          .ok (.trig k a 1, c)
        | .sqrt => do
          let (a, c) ← readArgument n w c
          .ok (powerOf a half 1, c)
        | .reserved => .error (.reservedName w t.pos)
        | .unknown => .error (.unknownName w t.pos)
      | s => .error (.unexpectedToken s.text t.pos)

/-- the argument of the function `w`, whose name is the next token -/
def readArgument : (fuel : Nat) → (w : Text) → Cursor α → Except Fault (Expr α × Cursor α)
  | 0, _, _ => .error .unexpectedEnd
  | n + 1, w, c =>
    match c.skip.look with
    | some .opening => readBrackets n c.skip
    | _ => .error (.missingArgument w c.pos)

/-- a sum in brackets, the opening one being the next token -/
def readBrackets : (fuel : Nat) → Cursor α → Except Fault (Expr α × Cursor α)
  | 0, _ => .error .unexpectedEnd
  | n + 1, c => do
    let d ← c.skip.enter c.pos
    let (e, d) ← readSum n d
    let d ← d.close c.pos
    .ok (e, d.leave 1)
end

/-- Enough for a list of tokens: there are at most eight calls, one inside the other, between two
of them that take a token away. -/
def fuelFor (ts : List (Token α)) : Nat := 8 * (ts.length + 1)

/-- the fault of a token behind the end of an expression -/
def leftover (t : Token α) : Fault :=
  match t.symbol with
  | .closing => .unmatchedBracket t.pos
  | s => .unexpectedToken s.text t.pos

/-- the tree of a list of tokens, or why it is no expression -/
def ofTokens (ts : List (Token α)) : Except Fault (Expr α) :=
  if ts.isEmpty then .error .empty
  else do
    let (e, c) ← readSum (fuelFor ts) ⟨ts, 0⟩
    match c.rest with
    | t :: _ => .error (leftover t)
    | [] => if e.isFinite then .ok e else .error (.nonFiniteNumber 0)

/-- the tree of a text, or why it is no expression -/
def ofText (t : Text) : Except Fault (Expr α) :=
  if t.trim.isEmpty then .error .empty
  else do ofTokens (← Token.scan t)

end Expr

end CurveStudy
