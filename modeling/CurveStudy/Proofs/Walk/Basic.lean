import CurveStudy.Expr.Read

/-!
# Walks along the tokens

The functions of `CurveStudy.Expr.Read` once more, as programs that walk along a list of tokens.  A
walker keeps two numbers, that of the tokens behind it and that of the levels it is inside of; the
list stays as it is.

The number of levels is an integer.  It is raised first and compared with the limit then, and all
that it has been is kept, however the walk ends.  So it would show if there were ever a level too
many, or if one were given back that had not been entered.

The functions call each other at most `calls` deep, and so do those that go round a loop.  A walk
that would need more is cut short, which is not a fault of the tokens: a walk that is not cut short
for some number of calls is one that ends when nothing bounds them.

* `Walker`         where a walk stands and what has been of its levels;
* `Walk`           a program that walks, with a result;
* `Halt`           why there is no result;
* `Walk.outcome`   how a walk ends;
* `walkSum`        the walk along a sum, and so on for the other lines of the grammar.
-/

namespace CurveStudy

structure Walker where
  /-- the number of tokens behind -/
  place : Nat
  level : Int
  /-- the levels before, the latest first -/
  past : List Int

/-- the only way to another level -/
def Walker.setLevel (v : Int) (s : Walker) : Walker :=
  { s with level := v, past := s.level :: s.past }

inductive Halt where
  | fault (f : Fault)
  /-- more calls are needed than are allowed -/
  | cut

/-- the fault that a reader reports -/
def Halt.reported : Halt → Fault
  | fault f => f
  | cut => .unexpectedEnd

abbrev Walk (β : Type) : Type := ExceptT Halt (StateM Walker) β

namespace Walk
variable {α β γ : Type}

/-- the result of the walk that starts as `s`, or why there is none, with the walker at its end -/
def outcome (m : Walk β) (s : Walker) : Except Halt β × Walker := StateT.run (ExceptT.run m) s

theorem outcome_bind_ok {m : Walk β} {g : β → Walk γ} {s s' : Walker} {b : β}
    (h : m.outcome s = (.ok b, s')) : (m >>= g).outcome s = (g b).outcome s' := by
  rw [outcome] at h
  rw [outcome, ExceptT.run_bind, StateT.run_bind, h]
  rfl

theorem outcome_bind_error {m : Walk β} (g : β → Walk γ) {s s' : Walker} {e : Halt}
    (h : m.outcome s = (.error e, s')) : (m >>= g).outcome s = (.error e, s') := by
  rw [outcome] at h
  rw [outcome, ExceptT.run_bind, StateT.run_bind, h]
  rfl

/-! ## steps -/

def refuse (f : Fault) : Walk β := throw (.fault f)

section
variable (ts : List (Token α))

/-- the next token -/
def token : Walk (Option (Token α)) := do
  return ts[(← get).place]?

@[simp] theorem outcome_token (s : Walker) : (token ts).outcome s = (.ok ts[s.place]?, s) := rfl

/-- the next symbol -/
def look : Walk (Option (Symbol α)) := do
  return (← token ts).map Token.symbol

@[simp] theorem outcome_look (s : Walker) :
    (look ts).outcome s = (.ok (ts[s.place]?.map Token.symbol), s) := rfl

/-- the place of the next token; zero at the end -/
def pos : Walk Nat := do
  return ((← token ts).map Token.pos).getD 0

@[simp] theorem outcome_pos (s : Walker) :
    (pos ts).outcome s = (.ok ((ts[s.place]?.map Token.pos).getD 0), s) := rfl

def skip : Walk Unit := modify fun s => { s with place := s.place + 1 }

@[simp] theorem outcome_skip (s : Walker) :
    skip.outcome s = (.ok (), { s with place := s.place + 1 }) := rfl

/-- one level more, opened by the token at `p`; the limit is looked at when it is there -/
def enter (p : Nat) : Walk Unit := do
  modify fun s => s.setLevel (s.level + 1)
  if (← get).level > maxDepth then refuse (.tooDeep p)

theorem outcome_enter_of_le (p : Nat) {s : Walker} (h : s.level + 1 ≤ maxDepth) :
    (enter p).outcome s = (.ok (), s.setLevel (s.level + 1)) := by
  show (ite (s.level + 1 > maxDepth) _ _ : Walk Unit).outcome _ = _
  rw [if_neg (Int.not_lt.2 h)]
  rfl

theorem outcome_enter_of_lt (p : Nat) {s : Walker} (h : maxDepth < s.level + 1) :
    (enter p).outcome s = (.error (.fault (.tooDeep p)), s.setLevel (s.level + 1)) := by
  show (ite (s.level + 1 > maxDepth) _ _ : Walk Unit).outcome _ = _
  rw [if_pos h]
  rfl

/-- `n` levels less -/
def leave (n : Nat) : Walk Unit := modify fun s => s.setLevel (s.level - n)

@[simp] theorem outcome_leave (n : Nat) (s : Walker) :
    (leave n).outcome s = (.ok (), s.setLevel (s.level - n)) := rfl

/-- How the next operand is joined to the product before it.  The operator, if there is one, is left
behind. -/
def joint : Walk (Option Joint) := do
  match ← look ts with
  | some .times => do
    skip
    return some .product
  | some .slash => do
    skip
    return some .quotient
  | some (.num _) | some (.name _) | some .pi | some .opening => return some .product
  | _ => return none

/-- past a closing bracket, whose partner is at `p` -/
def close [Literal α] (p : Nat) : Walk Unit := do
  match ← token ts with
  | none => refuse (.unclosedBracket p)
  | some t => do
    skip
    match t.symbol with
    | .closing => return ()
    | s => refuse (.unexpectedToken s.text t.pos)

end

/-- the value of an exponent that has been read -/
def exponentValue [Scalar α] (p : Nat) (negative : Bool) (e : Expr α) : Walk α :=
  match Expr.exponentValue p negative e with
  | .ok v => return v
  | .error f => refuse f

end Walk

namespace Expr
open Walk
open Arith (half)
open Scalar (pi)
variable {α : Type} [Scalar α] [Literal α] (ts : List (Token α))

mutual
def walkSum : (calls : Nat) → Walk (Expr α)
  | 0 => throw .cut
  | n + 1 => do
    let e ← walkProduct n
    let es ← walkTerms n
    return sumOf (e :: es)

/-- the terms of a sum after the first -/
def walkTerms : (calls : Nat) → Walk (List (Expr α))
  | 0 => throw .cut
  | n + 1 => do
    match ← look ts with
    | some .plus => do
      skip
      let e ← walkProduct n
      let es ← walkTerms n
      return e :: es
    | some .minus => do
      skip
      let e ← walkProduct n
      let es ← walkTerms n
      return e.scale (-1) :: es
    | _ => return []

def walkProduct : (calls : Nat) → Walk (Expr α)
  | 0 => throw .cut
  | n + 1 => do
    let e ← walkSigned n
    walkFactors n 0 e

/-- the operands of a product after those in `e`, which have opened `levels` levels -/
def walkFactors : (calls : Nat) → (levels : Nat) → Expr α → Walk (Expr α)
  | 0, _, _ => throw .cut
  | n + 1, levels, e => do
    let p ← pos ts
    match ← joint ts with
    | some j => do
      enter p
      let f ← walkSigned n
      walkFactors n (levels + 1) (join e f j)
    | none => do
      leave levels
      return e

def walkSigned : (calls : Nat) → Walk (Expr α)
  | 0 => throw .cut
  | n + 1 => do
    match ← look ts with
    | some .minus => do
      skip
      let e ← walkPower n
      return e.scale (-1)
    | _ => walkPower n

def walkPower : (calls : Nat) → Walk (Expr α)
  | 0 => throw .cut
  | n + 1 => do
    let b ← walkAtom n
    match ← look ts with
    | some .caret => do
      skip
      let v ← walkExponent n
      return powerOf b v 1
    | _ => return b

def walkExponent : (calls : Nat) → Walk α
  | 0 => throw .cut
  | n + 1 => do
    let p ← pos ts
    enter p
    match ← look ts with
    | some .minus => do
      skip
      let e ← walkPower n
      let v ← Walk.exponentValue p true e
      leave 1
      return v
    | _ => do
      let e ← walkPower n
      let v ← Walk.exponentValue p false e
      leave 1
      return v

def walkAtom : (calls : Nat) → Walk (Expr α)
  | 0 => throw .cut
  | n + 1 => do
    match ← token ts with
    | none => refuse .unexpectedEnd
    | some t => do
      skip
      match t.symbol with
      | .num v => return .const v
      | .pi => return .const pi
      | .opening => walkBrackets n t.pos
      | .closing => refuse (.unmatchedBracket t.pos)
      | .name w =>
        match Meaning.ofName w with
        | .var => return .var
        | .trig k => do
          let a ← walkArgument n w t.pos
          return .trig k a 1
        | .sqrt => do
          let a ← walkArgument n w t.pos
          return powerOf a half 1
        | .reserved => refuse (.reservedName w t.pos)
        | .unknown => refuse (.unknownName w t.pos)
      | s => refuse (.unexpectedToken s.text t.pos)

/-- the argument of the function `w`, whose name at `p` is behind -/
def walkArgument : (calls : Nat) → (w : Text) → (p : Nat) → Walk (Expr α)
  | 0, _, _ => throw .cut
  | n + 1, w, p => do
    match ← token ts with
    | none => refuse (.missingArgument w p)
    | some t =>
      match t.symbol with
      | .opening => do
        skip
        walkBrackets n t.pos
      | _ => refuse (.missingArgument w p)

/-- a sum in brackets, the opening one at `p` being behind -/
def walkBrackets : (calls : Nat) → (p : Nat) → Walk (Expr α)
  | 0, _ => throw .cut
  | n + 1, p => do
    enter p
    let e ← walkSum n
    close ts p
    leave 1
    return e
end

end Expr

end CurveStudy
