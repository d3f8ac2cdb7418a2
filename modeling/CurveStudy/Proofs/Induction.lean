import Mathlib.Tactic.Ring
import CurveStudy.Expr.Basic

/-!
# Induction over trees

A tree holds lists of trees.  `Expr.ind` is the induction that follows: what holds of every member
of a list of terms or factors may be used for the sum or the product of them.  The tactic
`induction e with` uses it.
-/

set_option linter.unusedSectionVars false

namespace CurveStudy.Expr
variable {α : Type} {motive : Expr α → Prop}

section
variable (const : ∀ c, motive (.const c)) (var : motive .var)
  (sum : ∀ ts, (∀ t ∈ ts, motive t) → motive (.sum ts))
  (product : ∀ fs c, (∀ f ∈ fs, motive f) → motive (.product fs c))
  (power : ∀ b n c, motive b → motive (.power b n c))
  (quotient : ∀ a b c, motive a → motive b → motive (.quotient a b c))
  (trig : ∀ k a c, motive a → motive (.trig k a c))
include const var sum product power quotient trig

mutual
@[elab_as_elim, induction_eliminator]
theorem ind (e : Expr α) : motive e :=
  match e with
  | .const c => const c
  | .var => var
  | .sum ts => sum ts (ind_each ts)
  | .product fs c => product fs c (ind_each fs)
  | .power b n c => power b n c (ind b)
  | .quotient a b c => quotient a b c (ind a) (ind b)
  | .trig k a c => trig k a c (ind a)

theorem ind_each (es : List (Expr α)) : ∀ e ∈ es, motive e :=
  match es with
  | [] => fun _ h => absurd h List.not_mem_nil
  | e :: es => List.forall_mem_cons.2 ⟨ind e, ind_each es⟩
end

end

end CurveStudy.Expr
