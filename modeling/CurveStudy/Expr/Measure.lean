import CurveStudy.Expr.Basic

/-!
# Questions about a tree

* `Expr.size`      the number of its nodes;
* `Expr.hasVar`    the variable stands somewhere in it;
* `Expr.isFinite`  every coefficient, constant and exponent in it is finite;
* `Expr.same`      two trees have the same shape and equal numbers; a number that differs from
                   itself makes a tree differ from itself.
-/

namespace CurveStudy.Expr

variable {α : Type}

mutual
def size : Expr α → Nat
  | .const _ | .var => 1
  | .sum ts => 1 + sizeEach ts
  | .product fs _ => 1 + sizeEach fs
  | .power b _ _ => 1 + size b
  | .quotient a b _ => 1 + (size a + size b)
  | .trig _ a _ => 1 + size a

/-- the nodes of all the trees -/
def sizeEach : List (Expr α) → Nat
  | [] => 0
  | e :: es => size e + sizeEach es
end

@[simp] theorem sizeEach_eq_foldr (es : List (Expr α)) :
    sizeEach es = (es.map size).foldr (· + ·) 0 := by
  induction es with
  | nil => rfl
  | cons e es ih => rw [sizeEach, ih, List.map_cons, List.foldr_cons]

mutual
def hasVar : Expr α → Bool
  | .const _ => false
  | .var => true
  | .sum ts => hasVarAny ts
  | .product fs _ => hasVarAny fs
  | .power b _ _ => hasVar b
  | .quotient a b _ => hasVar a || hasVar b
  | .trig _ a _ => hasVar a

def hasVarAny : List (Expr α) → Bool
  | [] => false
  | e :: es => hasVar e || hasVarAny es
end

@[simp] theorem hasVarAny_eq_any (es : List (Expr α)) : hasVarAny es = es.any hasVar := by
  induction es with
  | nil => rfl
  | cons e es ih => rw [hasVarAny, ih, List.any_cons]

mutual
def isFinite [Scalar α] : Expr α → Bool
  | .const c => Scalar.isFinite c
  | .var => true
  | .sum ts => isFiniteAll ts
  | .product fs c => Scalar.isFinite c && isFiniteAll fs
  | .power b n c => Scalar.isFinite n && Scalar.isFinite c && isFinite b
  | .quotient a b c => Scalar.isFinite c && isFinite a && isFinite b
  | .trig _ a c => Scalar.isFinite c && isFinite a

def isFiniteAll [Scalar α] : List (Expr α) → Bool
  | [] => true
  | e :: es => isFinite e && isFiniteAll es
end

@[simp] theorem isFiniteAll_eq_all [Scalar α] (es : List (Expr α)) :
    isFiniteAll es = es.all isFinite := by
  induction es with
  | nil => rfl
  | cons e es ih => rw [isFiniteAll, ih, List.all_cons]

mutual
def same [BEq α] : Expr α → Expr α → Bool
  | .const c, .const c' => c == c'
  | .var, .var => true
  | .sum ts, .sum ts' => sameEach ts ts'
  | .product fs c, .product fs' c' => sameEach fs fs' && c == c'
  | .power b n c, .power b' n' c' => same b b' && n == n' && c == c'
  | .quotient a b c, .quotient a' b' c' => same a a' && same b b' && c == c'
  | .trig k a c, .trig k' a' c' => k == k' && same a a' && c == c'
  | _, _ => false

def sameEach [BEq α] : List (Expr α) → List (Expr α) → Bool
  | [], [] => true
  | e :: es, e' :: es' => same e e' && sameEach es es'
  | _, _ => false
end

end CurveStudy.Expr
