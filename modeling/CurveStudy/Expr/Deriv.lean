import CurveStudy.Expr.Outer

/-!
# Derivatives

`e.deriv` is the derivative of the tree `e` by its variable, a new tree made with the constructors
of `CurveStudy.Expr.Build`.  A product is differentiated in each of its factors in turn, a quotient
by `(a' b - a b') / b²`, and a power and a function by the chain rule.

`replacements es ds` are the lists that arise from `es` by replacing one member by its partner in
`ds`, from the first to the last.
-/

namespace CurveStudy.Expr

variable {α : Type}

/-- the lists that arise from the first list by replacing one member, from the first to the last,
by the member of the second list at its place -/
def replacements {β : Type} : List β → List β → List (List β)
  | e :: es, d :: ds => (d :: es) :: (replacements es ds).map (e :: ·)
  | _, _ => []

@[simp] theorem length_replacements {β : Type} (es ds : List β) (h : es.length = ds.length) :
    (replacements es ds).length = es.length := by
  induction es generalizing ds with
  | nil => rfl
  | cons e es ih =>
    cases ds with
    | nil => exact absurd h (Nat.succ_ne_zero _)
    | cons d ds =>
      rw [replacements, List.length_cons, List.length_map, ih ds (Nat.succ.inj h), List.length_cons]

variable [Scalar α]

/-- the tree is the constant zero -/
def isZero : Expr α → Bool
  | .const c => c == 0
  | _ => false

/-- `c · (a' b - a b') / b²`, where `a'` and `b'` are the derivatives of `a` and `b`; the constant
zero if the numerator is -/
def quotientRule (a a' b b' : Expr α) (c : α) : Expr α :=
  let num := sumOf [productOf [a', b] 1, productOf [a, b'] (-1)]
  if num.isZero then .const 0 else .quotient num (powerOf b two 1) c

/-- `n · c · b ^ (n - 1) · b'`, where `b'` is the derivative of `b`; `n` and `c` are multiplied
only where the product is finite -/
def powerRule (b b' : Expr α) (n c : α) : Expr α :=
  productOf [productOf [.const n, powerOf b (n - 1) c] 1, b'] 1

mutual
def deriv : Expr α → Expr α
  | .const _ => .const 0
  | .var => .const 1
  | .sum ts => sumOf (derivEach ts)
  | .product fs c =>
    (sumOf ((replacements fs (derivEach fs)).map (productOf · 1))).scale c
  | .power b n c => powerRule b (deriv b) n c
  | .quotient a b c => quotientRule a (deriv a) b (deriv b) c
  | .trig k a c => productOf [outer k a, deriv a] c

def derivEach : List (Expr α) → List (Expr α)
  | [] => []
  | e :: es => deriv e :: derivEach es
end

@[simp] theorem derivEach_eq_map (es : List (Expr α)) : derivEach es = es.map deriv := by
  induction es with
  | nil => rfl
  | cons e es ih => rw [derivEach, ih, List.map_cons]

/-- the derivatives of the tree of order zero up to `n` -/
def derivs (e : Expr α) : (n : Nat) → List (Expr α)
  | 0 => [e]
  | n + 1 => e :: derivs e.deriv n

end CurveStudy.Expr
