import Mathlib.Tactic.Ring
import CurveStudy.Proofs.Grammar.Height
import CurveStudy.Proofs.Grammar.Unique
import CurveStudy.Proofs.Grammar.Value
import CurveStudy.Proofs.Half

/-!
# What a list of tokens means

A list of tokens that is read as a tree has one derivation, and over exact numbers the tree has the
value of this derivation at every place.  The derivation takes an exponent for the number that it is
at zero; the exponent is the same number everywhere.

* `eval_eq_eval_of_hasVar`   a tree without the variable has the same value everywhere;
* `Sum.exponents`   the exponents in a sum, and so on for the other lines;
* `Sum.value_of_mem_exponents`   each of them is a constant;
* `ofTokens_eval`   the value of what is read.
-/

namespace CurveStudy

namespace Expr
variable {α : Type} [Scalar α]

theorem eval_eq_eval_of_hasVar {e : Expr α} (h : e.hasVar = false) (x y : α) :
    e.eval x = e.eval y := by
  induction e with
  | const c => rfl
  | var => cases h
  | sum ts ih =>
    rw [hasVar, hasVarAny_eq_any] at h
    have hts : ts.map (eval x) = ts.map (eval y) :=
      List.map_congr_left fun t ht => ih t ht (by simpa using List.any_eq_false.1 h t ht)
    simp [hts]
  | product fs c ih =>
    rw [hasVar, hasVarAny_eq_any] at h
    have hfs : fs.map (eval x) = fs.map (eval y) :=
      List.map_congr_left fun f hf => ih f hf (by simpa using List.any_eq_false.1 h f hf)
    simp [hfs]
  | power b n c ih => simp [ih h]
  | quotient a b c iha ihb =>
    obtain ⟨ha, hb⟩ := Bool.or_eq_false_iff.1 h
    simp [iha ha, ihb hb]
  | trig k a c ih => simp [ih h]

end Expr

namespace Grammar
variable {α : Type}

/-! ## exponents -/

mutual
/-- the exponents in the sum, also those in other exponents -/
def Sum.exponents : Sum α → List (Signed α)
  | .mk p ts => p.exponents ++ ts.exponents

def Terms.exponents : Terms α → List (Signed α)
  | .nil => []
  | .plus p ts => p.exponents ++ ts.exponents
  | .minus p ts => p.exponents ++ ts.exponents

def Product.exponents : Product α → List (Signed α)
  | .mk s fs => s.exponents ++ fs.exponents

def Factors.exponents : Factors α → List (Signed α)
  | .nil => []
  | .times s fs => s.exponents ++ fs.exponents
  | .slash s fs => s.exponents ++ fs.exponents
  | .next p fs => p.exponents ++ fs.exponents

def Signed.exponents : Signed α → List (Signed α)
  | .plus p => p.exponents
  | .minus p => p.exponents

def Power.exponents : Power α → List (Signed α)
  | .atom a => a.exponents
  | .raised a n => a.exponents ++ n :: n.exponents

def Atom.exponents : Atom α → List (Signed α)
  | .num _ | .pi | .var => []
  | .call _ s => s.exponents
  | .brackets s => s.exponents
end

section
variable [Scalar α]

/-- the variable is not in the tree of the power behind the sign -/
def Signed.Closed (n : Signed α) : Prop := n.power.tree.hasVar = false

mutual
theorem Sum.closed_of_mem_exponents (d : Sum α) (hk : d.Constant) :
    ∀ n ∈ d.exponents, n.Closed := by
  cases d with
  | mk p ts =>
    exact List.forall_mem_append.2
      ⟨p.closed_of_mem_exponents hk.1, ts.closed_of_mem_exponents hk.2⟩
termination_by structural d

theorem Terms.closed_of_mem_exponents (d : Terms α) (hk : d.Constant) :
    ∀ n ∈ d.exponents, n.Closed := by
  cases d with
  | nil => exact nofun
  | plus p ts =>
    exact List.forall_mem_append.2
      ⟨p.closed_of_mem_exponents hk.1, ts.closed_of_mem_exponents hk.2⟩
  | minus p ts =>
    exact List.forall_mem_append.2
      ⟨p.closed_of_mem_exponents hk.1, ts.closed_of_mem_exponents hk.2⟩
termination_by structural d

theorem Product.closed_of_mem_exponents (d : Product α) (hk : d.Constant) :
    ∀ n ∈ d.exponents, n.Closed := by
  cases d with
  | mk s fs =>
    exact List.forall_mem_append.2
      ⟨s.closed_of_mem_exponents hk.1, fs.closed_of_mem_exponents hk.2⟩
termination_by structural d

theorem Factors.closed_of_mem_exponents (d : Factors α) (hk : d.Constant) :
    ∀ n ∈ d.exponents, n.Closed := by
  cases d with
  | nil => exact nofun
  | times s fs =>
    exact List.forall_mem_append.2
      ⟨s.closed_of_mem_exponents hk.1, fs.closed_of_mem_exponents hk.2⟩
  | slash s fs =>
    exact List.forall_mem_append.2
      ⟨s.closed_of_mem_exponents hk.1, fs.closed_of_mem_exponents hk.2⟩
  | next p fs =>
    exact List.forall_mem_append.2
      ⟨p.closed_of_mem_exponents hk.1, fs.closed_of_mem_exponents hk.2⟩
termination_by structural d

theorem Signed.closed_of_mem_exponents (d : Signed α) (hk : d.Constant) :
    ∀ n ∈ d.exponents, n.Closed := by
  cases d with
  | plus p => exact p.closed_of_mem_exponents hk
  | minus p => exact p.closed_of_mem_exponents hk
termination_by structural d

theorem Power.closed_of_mem_exponents (d : Power α) (hk : d.Constant) :
    ∀ n ∈ d.exponents, n.Closed := by
  cases d with
  | atom a => exact a.closed_of_mem_exponents hk
  | raised a n =>
    obtain ⟨ha, hn, hv, -⟩ := hk
    exact List.forall_mem_append.2
      ⟨a.closed_of_mem_exponents ha, List.forall_mem_cons.2 ⟨hv, n.closed_of_mem_exponents hn⟩⟩
termination_by structural d

theorem Atom.closed_of_mem_exponents (d : Atom α) (hk : d.Constant) :
    ∀ n ∈ d.exponents, n.Closed := by
  cases d with
  | num v => exact nofun
  | pi => exact nofun
  | var => exact nofun
  | call f s => exact s.closed_of_mem_exponents hk
  | brackets s => exact s.closed_of_mem_exponents hk
termination_by structural d
end

end

section
variable [Exact α]

theorem Signed.value_of_closed {n : Signed α} (h : n.Closed) (x : α) : n.value x = n.value 0 := by
  cases n with
  | plus p =>
    show p.value x = p.value 0
    rw [← p.eval_tree, ← p.eval_tree]
    exact Expr.eval_eq_eval_of_hasVar h x 0
  | minus p =>
    show -p.value x = -p.value 0
    rw [← p.eval_tree, ← p.eval_tree]
    exact congrArg Neg.neg (Expr.eval_eq_eval_of_hasVar h x 0)

/-- A list of tokens that is read as a tree has one derivation, the exponents of this derivation
are numbers, and the tree has its value at every place. -/
theorem ofTokens_eval [Literal α] {ts : List (Token α)} {e : Expr α}
    (h : Expr.ofTokens ts = .ok e) :
    ∃ d : Sum α, (∀ d' : Sum α, d'.symbols = ts.map Token.symbol ↔ d' = d)
      ∧ (∀ n ∈ d.exponents, ∀ x, n.value x = n.value 0)
      ∧ ∀ x, e.eval x = d.value x := by
  obtain ⟨-, d, hs, -, hk, rfl, -⟩ := ofTokens_derived h
  refine ⟨d, fun d' => ⟨fun hd' => ?_, ?_⟩, fun n hn x => ?_, d.eval_tree⟩
  · exact Sum.symbols_injective (hd'.trans hs.symm)
  · rintro rfl
    exact hs
  · exact Signed.value_of_closed (d.closed_of_mem_exponents hk n hn) x

end

/-- the derivation of `1/2x-x^2^3` over the rational numbers -/
def halves : Sum Rat :=
  .mk (.mk (.plus (.atom (.num 1))) (.slash (.plus (.atom (.num 2))) (.next (.atom .var) .nil)))
    (.minus (.mk (.plus (.raised .var (.plus (.raised (.num 2) (.plus (.atom (.num 3))))))) .nil)
      .nil)

theorem ofTokens_halves : Expr.ofTokens halves.tokens = .ok halves.tree := by
  have hk : halves.Constant := by
    refine ⟨⟨trivial, trivial, trivial, trivial⟩,
      ⟨⟨trivial, ⟨trivial, trivial, rfl, ?_⟩, ?_, ?_⟩, trivial⟩, trivial⟩
    · show Scalar.isFinite (3 : Rat)
      decide +kernel
    · show (Expr.powerOf (.const (2 : Rat)) 3 1).hasVar = false
      decide +kernel
    · show Scalar.isFinite ((Expr.powerOf (.const (2 : Rat)) 3 1).eval 0)
      decide +kernel
  rw [ofTokens_of_depth_le (Sum.map_symbol_tokens _) hk (by decide), if_pos (by decide +kernel)]

/-- the tokens of `1/2x-x^2^3`, read over the rational numbers, mean half of `x` less its eighth
power -/
theorem ofTokens_eval_halves : Expr.ofTokens halves.tokens = .ok halves.tree
    ∧ (∃ d : Sum Rat, (∀ d' : Sum Rat, d'.symbols = halves.tokens.map Token.symbol ↔ d' = d)
      ∧ (∀ n ∈ d.exponents, ∀ x, n.value x = n.value 0)
      ∧ ∀ x, halves.tree.eval x = d.value x)
    ∧ ∀ x, halves.value x = 1 / 2 * x - x ^ (8 : Int) := by
  refine ⟨ofTokens_halves, ofTokens_eval ofTokens_halves, fun x => ?_⟩
  have h8 : Scalar.pow (2 : Rat) 3 = 8 := by decide +kernel
  show 1 / 2 * x - Scalar.pow x (Scalar.pow 2 3) = 1 / 2 * x - x ^ (8 : Int)
  rw [h8]
  rfl

end Grammar

end CurveStudy
