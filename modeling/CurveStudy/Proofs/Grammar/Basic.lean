import Mathlib.Tactic.Ring
import CurveStudy.Expr.Read

/-!
# Derivations of the grammar

The grammar of expressions as types: a value of `Sum` is a derivation from the line `sum`, and so
on for the other lines.

    sum      := product (('+' | '-') product)*
    product  := signed (('*' signed) | ('/' signed) | power)*
    signed   := '-'? power
    power    := atom ('^' signed)?
    atom     := number | π | x | function '(' sum ')' | '(' sum ')'

An operand that follows without an operator is a power: it cannot start with a sign.

* `symbols`    what the derivation derives;
* `depth`      the greatest level of an operand, the derivation itself standing at level zero;
* `tree`       the tree of the derivation, made by the constructors;
* `Constant`   every exponent is a finite number: the variable is not in its tree.
-/

namespace CurveStudy.Grammar
open Arith (half)
open CurveStudy.Expr (join sumOf powerOf)

/-- a function that a bracket follows -/
inductive Callee where
  | trig (k : Trig)
  | sqrt

namespace Callee

def name : Callee → Text
  | trig k => k.name
  | sqrt => "sqrt".toList

/-- the tree of a call -/
def tree {α : Type} [Scalar α] : Callee → Expr α → Expr α
  | trig k, a => .trig k a 1
  | sqrt, a => powerOf a half 1

end Callee

mutual
inductive Sum (α : Type) where
  | mk (first : Product α) (rest : Terms α)

inductive Terms (α : Type) where
  | nil
  | plus (p : Product α) (rest : Terms α)
  | minus (p : Product α) (rest : Terms α)

inductive Product (α : Type) where
  | mk (first : Signed α) (rest : Factors α)

inductive Factors (α : Type) where
  | nil
  | times (s : Signed α) (rest : Factors α)
  | slash (s : Signed α) (rest : Factors α)
  | next (p : Power α) (rest : Factors α)

inductive Signed (α : Type) where
  | plus (p : Power α)
  | minus (p : Power α)

inductive Power (α : Type) where
  | atom (a : Atom α)
  | raised (a : Atom α) (n : Signed α)

inductive Atom (α : Type) where
  | num (v : α)
  | pi
  | var
  | call (f : Callee) (s : Sum α)
  | brackets (s : Sum α)
end

variable {α : Type}

/-- the power behind the sign -/
def Signed.power : Signed α → Power α
  | plus p => p
  | minus p => p

/-! ## symbols -/

mutual
def Sum.symbols : Sum α → List (Symbol α)
  | .mk p ts => p.symbols ++ ts.symbols

def Terms.symbols : Terms α → List (Symbol α)
  | .nil => []
  | .plus p ts => .plus :: (p.symbols ++ ts.symbols)
  | .minus p ts => .minus :: (p.symbols ++ ts.symbols)

def Product.symbols : Product α → List (Symbol α)
  | .mk s fs => s.symbols ++ fs.symbols

def Factors.symbols : Factors α → List (Symbol α)
  | .nil => []
  | .times s fs => .times :: (s.symbols ++ fs.symbols)
  | .slash s fs => .slash :: (s.symbols ++ fs.symbols)
  | .next p fs => p.symbols ++ fs.symbols

def Signed.symbols : Signed α → List (Symbol α)
  | .plus p => p.symbols
  | .minus p => .minus :: p.symbols

def Power.symbols : Power α → List (Symbol α)
  | .atom a => a.symbols
  | .raised a n => a.symbols ++ .caret :: n.symbols

def Atom.symbols : Atom α → List (Symbol α)
  | .num v => [.num v]
  | .pi => [.pi]
  | .var => [.name ['x']]
  | .call f s => .name f.name :: .opening :: (s.symbols ++ [.closing])
  | .brackets s => .opening :: (s.symbols ++ [.closing])
end

/-! ## levels -/

/-- the number of operators -/
def Factors.length : Factors α → Nat
  | .nil => 0
  | .times _ fs | .slash _ fs | .next _ fs => fs.length + 1

mutual
/-- the greatest level of an operand of the sum -/
def Sum.depth : Sum α → Nat
  | .mk p ts => max p.depth ts.depth

def Terms.depth : Terms α → Nat
  | .nil => 0
  | .plus p ts => max p.depth ts.depth
  | .minus p ts => max p.depth ts.depth

def Product.depth : Product α → Nat
  | .mk s fs => max s.depth (fs.depth 1)

/-- the greatest level of an operand, the first of them being `k` operands behind the start -/
def Factors.depth (k : Nat) : Factors α → Nat
  | .nil => 0
  | .times s fs => max (k + s.depth) (fs.depth (k + 1))
  | .slash s fs => max (k + s.depth) (fs.depth (k + 1))
  | .next p fs => max (k + p.depth) (fs.depth (k + 1))

def Signed.depth : Signed α → Nat
  | .plus p => p.depth
  | .minus p => p.depth

def Power.depth : Power α → Nat
  | .atom a => a.depth
  | .raised a n => max a.depth (1 + n.depth)

def Atom.depth : Atom α → Nat
  | .num _ | .pi | .var => 0
  | .call _ s => 1 + s.depth
  | .brackets s => 1 + s.depth
end

/-! ## trees -/

section
variable [Scalar α]

mutual
def Sum.tree : Sum α → Expr α
  | .mk p ts => sumOf (p.tree :: ts.trees)

def Terms.trees : Terms α → List (Expr α)
  | .nil => []
  | .plus p ts => p.tree :: ts.trees
  | .minus p ts => p.tree.scale (-1) :: ts.trees

def Product.tree : Product α → Expr α
  | .mk s fs => fs.tree s.tree

/-- the tree of the operands behind those in `e` -/
def Factors.tree (e : Expr α) : Factors α → Expr α
  | .nil => e
  | .times s fs => fs.tree (join e s.tree .product)
  | .slash s fs => fs.tree (join e s.tree .quotient)
  | .next p fs => fs.tree (join e p.tree .product)

def Signed.tree : Signed α → Expr α
  | .plus p => p.tree
  | .minus p => p.tree.scale (-1)

/-- the number that an exponent stands for -/
def Signed.number : Signed α → α
  | .plus p => p.tree.eval 0
  | .minus p => -p.tree.eval 0

def Power.tree : Power α → Expr α
  | .atom a => a.tree
  | .raised a n => powerOf a.tree n.number 1

def Atom.tree : Atom α → Expr α
  | .num v => .const v
  | .pi => .const Scalar.pi
  | .var => .var
  | .call f s => f.tree s.tree
  | .brackets s => s.tree
end

/-! ## exponents -/

mutual
/-- the tree of every exponent is without the variable and has a finite value -/
def Sum.Constant : Sum α → Prop
  | .mk p ts => p.Constant ∧ ts.Constant

def Terms.Constant : Terms α → Prop
  | .nil => True
  | .plus p ts => p.Constant ∧ ts.Constant
  | .minus p ts => p.Constant ∧ ts.Constant

def Product.Constant : Product α → Prop
  | .mk s fs => s.Constant ∧ fs.Constant

def Factors.Constant : Factors α → Prop
  | .nil => True
  | .times s fs => s.Constant ∧ fs.Constant
  | .slash s fs => s.Constant ∧ fs.Constant
  | .next p fs => p.Constant ∧ fs.Constant

def Signed.Constant : Signed α → Prop
  | .plus p => p.Constant
  | .minus p => p.Constant

def Power.Constant : Power α → Prop
  | .atom a => a.Constant
  | .raised a n =>
    a.Constant ∧ n.Constant ∧ n.power.tree.hasVar = false ∧ Scalar.isFinite n.number = true

def Atom.Constant : Atom α → Prop
  | .num _ | .pi | .var => True
  | .call _ s => s.Constant
  | .brackets s => s.Constant
end

end

end CurveStudy.Grammar
