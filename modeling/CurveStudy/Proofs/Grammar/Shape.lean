import Mathlib.Tactic.Ring
import CurveStudy.Proofs.Grammar.Basic
import CurveStudy.Proofs.Shape

/-!
# The shape of the tree of a derivation

The tree of a derivation has the shape of the trees that the constructors make, whatever property
`p` its numerals have.

* `Sum.formed`   this for a sum, and so on for the other lines.
-/

set_option linter.unusedSectionVars false

namespace CurveStudy.Grammar
open CurveStudy.Expr

variable {α : Type} {p : α → Prop}

/-- the numbers among the symbols have the property -/
def Numerals (p : α → Prop) (σ : List (Symbol α)) : Prop := ∀ v, .num v ∈ σ → p v

theorem Numerals.append {σ τ : List (Symbol α)} (h : Numerals p (σ ++ τ)) :
    Numerals p σ ∧ Numerals p τ :=
  ⟨fun v hv => h v (List.mem_append_left τ hv), fun v hv => h v (List.mem_append_right σ hv)⟩

theorem Numerals.cons {s : Symbol α} {σ : List (Symbol α)} (h : Numerals p (s :: σ)) :
    Numerals p σ :=
  fun v hv => h v (List.mem_cons_of_mem s hv)

section
variable [Scalar α] [FiniteLiterals α] (hp : ∀ v : α, Scalar.isFinite v → p v)
include hp

theorem formed_join {e f : Expr α} (he : Formed p e) (hf : Formed p f) (j : Joint) :
    Formed p (join e f j) := by
  cases j with
  | product => exact formed_productOf hp FiniteLiterals.one (forall_mem_pair he hf)
  | quotient => exact .quotient FiniteLiterals.one he hf

theorem Callee.formed_tree (f : Callee) {e : Expr α} (he : Formed p e) :
    Formed p (f.tree e) := by
  cases f with
  | trig k => exact .trig FiniteLiterals.one he
  | sqrt => exact formed_powerOf hp FiniteLiterals.one FiniteLiterals.half he

mutual
theorem Sum.formed (d : Sum α) (hk : d.Constant) (hv : Numerals p d.symbols) :
    Formed p d.tree := by
  cases d with
  | mk q ts =>
    obtain ⟨hq, hts⟩ := hv.append
    exact formed_sumOf (hp _ FiniteLiterals.zero)
      (List.forall_mem_cons.2 ⟨q.formed hk.1 hq, ts.formed hk.2 hts⟩)
termination_by structural d

theorem Terms.formed (d : Terms α) (hk : d.Constant) (hv : Numerals p d.symbols) :
    ∀ t ∈ d.trees, Formed p t := by
  cases d with
  | nil => exact nofun
  | plus q ts =>
    obtain ⟨hq, hts⟩ := Numerals.append hv.cons
    exact List.forall_mem_cons.2 ⟨q.formed hk.1 hq, ts.formed hk.2 hts⟩
  | minus q ts =>
    obtain ⟨hq, hts⟩ := Numerals.append hv.cons
    have h := (q.formed hk.1 hq).scale hp FiniteLiterals.neg_one
    exact List.forall_mem_cons.2 ⟨h, ts.formed hk.2 hts⟩
termination_by structural d

theorem Product.formed (d : Product α) (hk : d.Constant) (hv : Numerals p d.symbols) :
    Formed p d.tree := by
  cases d with
  | mk s fs =>
    obtain ⟨hs, hfs⟩ := hv.append
    exact fs.formed hk.2 hfs (s.formed hk.1 hs)
termination_by structural d

theorem Factors.formed (d : Factors α) (hk : d.Constant) (hv : Numerals p d.symbols)
    {e : Expr α} (he : Formed p e) : Formed p (d.tree e) := by
  cases d with
  | nil => exact he
  | times s fs =>
    obtain ⟨hs, hfs⟩ := Numerals.append hv.cons
    exact fs.formed hk.2 hfs (formed_join hp he (s.formed hk.1 hs) .product)
  | slash s fs =>
    obtain ⟨hs, hfs⟩ := Numerals.append hv.cons
    exact fs.formed hk.2 hfs (formed_join hp he (s.formed hk.1 hs) .quotient)
  | next q fs =>
    obtain ⟨hq, hfs⟩ := hv.append
    exact fs.formed hk.2 hfs (formed_join hp he (q.formed hk.1 hq) .product)
termination_by structural d

theorem Signed.formed (d : Signed α) (hk : d.Constant) (hv : Numerals p d.symbols) :
    Formed p d.tree := by
  cases d with
  | plus q => exact q.formed hk hv
  | minus q => exact (q.formed hk hv.cons).scale hp FiniteLiterals.neg_one
termination_by structural d

theorem Power.formed (d : Power α) (hk : d.Constant) (hv : Numerals p d.symbols) :
    Formed p d.tree := by
  cases d with
  | atom a => exact a.formed hk hv
  | raised a n =>
    obtain ⟨ha, -⟩ := hv.append
    exact formed_powerOf hp FiniteLiterals.one hk.2.2.2 (a.formed hk.1 ha)
termination_by structural d

theorem Atom.formed (d : Atom α) (hk : d.Constant) (hv : Numerals p d.symbols) :
    Formed p d.tree := by
  cases d with
  | num v => exact .const (hv v (List.mem_singleton_self _))
  | pi => exact .const (hp _ FiniteLiterals.pi)
  | var => exact .var
  | call f s =>
    obtain ⟨hs, -⟩ := Numerals.append hv.cons.cons
    exact f.formed_tree hp (s.formed hk hs)
  | brackets s =>
    obtain ⟨hs, -⟩ := Numerals.append hv.cons
    exact s.formed hk hs
termination_by structural d
end

end

end CurveStudy.Grammar
