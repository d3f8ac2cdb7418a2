import Mathlib.Tactic.Ring
import CurveStudy.Proofs.Double
import CurveStudy.Proofs.Grammar.Shape
import CurveStudy.Proofs.Grammar.Unique
import CurveStudy.Proofs.Height

/-!
# How high a tree can be

A derivation whose operands keep to `n` levels has a tree of a height that grows with the square of
`n`.  The later operands of a product stand on a level of their own, but the operators of a product
are no level for its first operand, so a product of `n` operators may start with a bracket around
another one of `n - 1` operators, and so on.

* `Sum.reach`     a bound for the height of the tree, and `Sum.height_le_reach`;
* `greatest`      the greatest height with `n` levels, and `Sum.reach_le_of_depth_le`;
* `Sum.load`      the levels that there would be if every operator of a product were one for all of
  its operands; with these the bound is linear, `Sum.reach_le_of_load_le`;
* `tower`         the derivation that reaches the greatest height;
* `ofTokens_height`   all of this for lists of tokens.
-/

set_option linter.unusedSectionVars false

namespace CurveStudy.Grammar
open CurveStudy.Expr
open Arith (half)

variable {α : Type}

mutual
def Sum.reach : Sum α → Nat
  | .mk p ts => max p.reach ts.reach + 1

def Terms.reach : Terms α → Nat
  | .nil => 2
  | .plus p ts => max p.reach ts.reach
  | .minus p ts => max p.reach ts.reach

def Product.reach : Product α → Nat
  | .mk s fs => max s.reach fs.reach + fs.length

def Factors.reach : Factors α → Nat
  | .nil => 2
  | .times s fs => max s.reach fs.reach
  | .slash s fs => max s.reach fs.reach
  | .next p fs => max p.reach fs.reach

def Signed.reach : Signed α → Nat
  | .plus p => p.reach
  | .minus p => p.reach

def Power.reach : Power α → Nat
  | .atom a => a.reach
  | .raised a _ => a.reach + 1

/-- two at a leaf, which a minus makes a product -/
def Atom.reach : Atom α → Nat
  | .num _ | .pi | .var => 2
  | .call _ s => s.reach + 1
  | .brackets s => s.reach
end

/-! ## the height of the tree -/

/-- the height of the tree is at most `r`, also after a minus: this makes a product of the variable,
which is two high, and in a sum three -/
structure Within (r : Nat) (e : Expr α) : Prop where
  height : e.height ≤ r
  two : 2 ≤ r
  three : e.isSum → 3 ≤ r

namespace Within
variable {r r' : Nat} {e f : Expr α}

theorem mono (h : Within r e) (hr : r ≤ r') : Within r' e :=
  ⟨Nat.le_trans h.height hr, Nat.le_trans h.two hr, fun he => Nat.le_trans (h.three he) hr⟩

theorem succ (h : e.height ≤ r + 1) (hr : 2 ≤ r) : Within (r + 1) e :=
  ⟨h, Nat.le_succ_of_le hr, fun _ => Nat.succ_le_succ hr⟩

theorem leaf (h : e.height = 1) (he : e.isSum = false) : Within 2 e :=
  ⟨by omega, Nat.le_refl 2, fun h' => absurd h' (Bool.eq_false_iff.1 he)⟩

section
variable [Scalar α] [FiniteLiterals α] {p : α → Prop}

theorem scale {k : α} (hk : ∀ c : α, Scalar.isFinite c → Scalar.isFinite (k * c)) (h : Within r e)
    (he : Formed p e) : Within r (e.scale k) := by
  by_cases hs : e.isSum = false
  · have := height_scale_le_max_two hk he hs
    have h1 := h.height
    have h2 := h.two
    refine ⟨by omega, h2, fun h' => ?_⟩
    rw [isSum_scale k hs] at h'
    cases h'
  · have := height_scale_le_max hk he
    have h1 := h.height
    have h3 := h.three (Bool.not_eq_false _ ▸ hs)
    exact ⟨by omega, h.two, fun _ => h3⟩

theorem join (hp : ∀ v : α, Scalar.isFinite v → p v)
    (h1 : ∀ c : α, Scalar.isFinite c → Scalar.isFinite (c * 1)) (he : Formed p e)
    (hf : Formed p f) (hre : Within r e) (hrf : Within r f) (j : Joint) :
    Within (r + 1) (e.join f j) := by
  refine succ ?_ hre.two
  cases j with
  | product =>
    exact height_productOf_le h1 hp FiniteLiterals.one (forall_mem_pair he hf)
      (forall_mem_pair hre.height hrf.height)
  | quotient =>
    show 1 + max e.height f.height ≤ r + 1
    have := hre.height
    have := hrf.height
    omega

theorem call (he : Formed p e) (hr : Within r e) (f : Callee) : Within (r + 1) (f.tree e) := by
  refine succ ?_ hr.two
  have h := hr.height
  cases f with
  | trig k =>
    show 1 + e.height ≤ r + 1
    omega
  | sqrt =>
    have : (powerOf e half 1).height ≤ e.height + 1 := height_powerOf_le he half 1
    show (powerOf e half 1).height ≤ r + 1
    omega

end

end Within

/-- nothing is asked of the numerals -/
def Any (_ : α) : Prop := True

theorem numerals_any (σ : List (Symbol α)) : Numerals Any σ := fun _ _ => trivial

section
variable [Scalar α]

theorem any (v : α) : Scalar.isFinite v → Any v := fun _ => trivial

variable [FiniteLiterals α]
  (h1 : ∀ c : α, Scalar.isFinite c → Scalar.isFinite (c * 1))
  (hm : ∀ c : α, Scalar.isFinite c → Scalar.isFinite (-1 * c))
include h1 hm

mutual
theorem Sum.within (d : Sum α) (hk : d.Constant) : Within d.reach d.tree := by
  cases d with
  | mk q ts =>
    have hq := q.within hk.1
    have hts := ts.within hk.2
    have h2 := hq.two
    refine Within.succ (height_sumOf_le ?_) (by omega)
    refine List.forall_mem_cons.2 ⟨(hq.mono (Nat.le_max_left ..)).height, fun t ht => ?_⟩
    exact ((hts t ht).mono (Nat.le_max_right ..)).height
termination_by structural d

theorem Terms.within (d : Terms α) (hk : d.Constant) : ∀ t ∈ d.trees, Within d.reach t := by
  cases d with
  | nil => exact nofun
  | plus q ts =>
    have hts := ts.within hk.2
    exact List.forall_mem_cons.2 ⟨(q.within hk.1).mono (Nat.le_max_left ..),
      fun t ht => (hts t ht).mono (Nat.le_max_right ..)⟩
  | minus q ts =>
    have hts := ts.within hk.2
    have hq := (q.within hk.1).scale hm (q.formed any hk.1 (numerals_any _))
    exact List.forall_mem_cons.2 ⟨hq.mono (Nat.le_max_left ..),
      fun t ht => (hts t ht).mono (Nat.le_max_right ..)⟩
termination_by structural d

theorem Product.within (d : Product α) (hk : d.Constant) : Within d.reach d.tree := by
  cases d with
  | mk s fs =>
    have hs := (s.within hk.1).mono (Nat.le_max_left s.reach fs.reach)
    exact fs.within hk.2 (Nat.le_max_right ..) (s.formed any hk.1 (numerals_any _)) hs
termination_by structural d

theorem Factors.within (d : Factors α) (hk : d.Constant) {r : Nat} (hr : d.reach ≤ r)
    {e : Expr α} (he : Formed Any e) (hre : Within r e) :
    Within (r + d.length) (d.tree e) := by
  cases d with
  | nil => exact hre
  | times s fs =>
    obtain ⟨hs, hfs⟩ := Nat.max_le.1 hr
    have hf := s.formed any hk.1 (numerals_any _)
    have h := hre.join any h1 he hf ((s.within hk.1).mono hs) .product
    rw [Factors.length, Nat.add_comm _ 1, ← Nat.add_assoc]
    exact fs.within hk.2 (Nat.le_succ_of_le hfs) (formed_join any he hf .product) h
  | slash s fs =>
    obtain ⟨hs, hfs⟩ := Nat.max_le.1 hr
    have hf := s.formed any hk.1 (numerals_any _)
    have h := hre.join any h1 he hf ((s.within hk.1).mono hs) .quotient
    rw [Factors.length, Nat.add_comm _ 1, ← Nat.add_assoc]
    exact fs.within hk.2 (Nat.le_succ_of_le hfs) (formed_join any he hf .quotient) h
  | next q fs =>
    obtain ⟨hq, hfs⟩ := Nat.max_le.1 hr
    have hf := q.formed any hk.1 (numerals_any _)
    have h := hre.join any h1 he hf ((q.within hk.1).mono hq) .product
    rw [Factors.length, Nat.add_comm _ 1, ← Nat.add_assoc]
    exact fs.within hk.2 (Nat.le_succ_of_le hfs) (formed_join any he hf .product) h
termination_by structural d

theorem Signed.within (d : Signed α) (hk : d.Constant) : Within d.reach d.tree := by
  cases d with
  | plus q => exact q.within hk
  | minus q => exact (q.within hk).scale hm (q.formed any hk (numerals_any _))
termination_by structural d

theorem Power.within (d : Power α) (hk : d.Constant) : Within d.reach d.tree := by
  cases d with
  | atom a => exact a.within hk
  | raised a n =>
    have ha := a.within hk.1
    have h := height_powerOf_le (a.formed any hk.1 (numerals_any _)) n.number 1
    exact Within.succ (Nat.le_trans h (Nat.succ_le_succ ha.height)) ha.two
termination_by structural d

theorem Atom.within (d : Atom α) (hk : d.Constant) : Within d.reach d.tree := by
  cases d with
  | num v => exact .leaf rfl rfl
  | pi => exact .leaf rfl rfl
  | var => exact .leaf rfl rfl
  | call f s => exact (s.within hk).call (s.formed any hk (numerals_any _)) f
  | brackets s => exact s.within hk
termination_by structural d
end

end

/-! ## the bound with `n` levels -/

/-- the greatest height of an operand with `n` levels -/
def greatestOperand : Nat → Nat
  | 0 => 2
  | n + 1 => greatestOperand n + n + 3

/-- a product of `n` operators in a sum -/
def greatest (n : Nat) : Nat := greatestOperand n + n + 1

theorem greatest_succ (n : Nat) : greatest (n + 1) = greatest n + n + 4 := by
  rw [greatest, greatest, greatestOperand]
  omega

theorem greatest_eq (n : Nat) : greatest n = 3 * (n + 1) + n * (n + 1) / 2 := by
  have h : 2 * greatest n = 6 * (n + 1) + n * (n + 1) := by
    induction n with
    | zero => rfl
    | succ n ih =>
      rw [greatest_succ, Nat.add_assoc, Nat.mul_add, ih]
      rw [Nat.add_mul n 1, Nat.mul_add n (n + 1) 1]
      omega
  omega

theorem two_le_greatestOperand (n : Nat) : 2 ≤ greatestOperand n := by
  cases n with
  | zero => exact Nat.le_refl 2
  | succ n => exact Nat.le_trans (Nat.le_add_left 2 1) (Nat.le_add_left 3 _)

theorem Factors.length_le (d : Factors α) {k n : Nat} (h : d.depth (k + 1) ≤ n) (hk : k ≤ n) :
    k + d.length ≤ n := by
  cases d with
  | nil => exact hk
  | times s fs =>
    obtain ⟨hs, hfs⟩ := Nat.max_le.1 h
    rw [Factors.length, Nat.add_comm _ 1, ← Nat.add_assoc]
    exact fs.length_le hfs (Nat.le_of_add_right_le hs)
  | slash s fs =>
    obtain ⟨hs, hfs⟩ := Nat.max_le.1 h
    rw [Factors.length, Nat.add_comm _ 1, ← Nat.add_assoc]
    exact fs.length_le hfs (Nat.le_of_add_right_le hs)
  | next p fs =>
    obtain ⟨hp, hfs⟩ := Nat.max_le.1 h
    rw [Factors.length, Nat.add_comm _ 1, ← Nat.add_assoc]
    exact fs.length_le hfs (Nat.le_of_add_right_le hp)
termination_by structural d

mutual
theorem Sum.reach_le_of_depth_le (d : Sum α) {n : Nat} (h : d.depth ≤ n) :
    d.reach ≤ greatest n := by
  cases d with
  | mk p ts =>
    obtain ⟨hp, hts⟩ := Nat.max_le.1 h
    have hp := p.reach_le_of_depth_le hp
    have hts := ts.reach_le_of_depth_le hts
    show max p.reach ts.reach + 1 ≤ greatestOperand n + n + 1
    omega
termination_by structural d

theorem Terms.reach_le_of_depth_le (d : Terms α) {n : Nat} (h : d.depth ≤ n) :
    d.reach ≤ greatestOperand n + n := by
  cases d with
  | nil => exact Nat.le_trans (two_le_greatestOperand n) (Nat.le_add_right ..)
  | plus p ts =>
    obtain ⟨hp, hts⟩ := Nat.max_le.1 h
    exact Nat.max_le.2 ⟨p.reach_le_of_depth_le hp, ts.reach_le_of_depth_le hts⟩
  | minus p ts =>
    obtain ⟨hp, hts⟩ := Nat.max_le.1 h
    exact Nat.max_le.2 ⟨p.reach_le_of_depth_le hp, ts.reach_le_of_depth_le hts⟩
termination_by structural d

theorem Product.reach_le_of_depth_le (d : Product α) {n : Nat} (h : d.depth ≤ n) :
    d.reach ≤ greatestOperand n + n := by
  cases d with
  | mk s fs =>
    obtain ⟨hs, hfs⟩ := Nat.max_le.1 h
    have hl := fs.length_le hfs (Nat.zero_le n)
    have hs := s.reach_le_of_depth_le hs
    have hfs := fs.reach_le_of_depth_le hfs
    show max s.reach fs.reach + fs.length ≤ _
    omega
termination_by structural d

theorem Factors.reach_le_of_depth_le (d : Factors α) {k n : Nat} (h : d.depth k ≤ n) :
    d.reach ≤ greatestOperand n := by
  cases d with
  | nil => exact two_le_greatestOperand n
  | times s fs =>
    obtain ⟨hs, hfs⟩ := Nat.max_le.1 h
    exact Nat.max_le.2 ⟨s.reach_le_of_depth_le (Nat.le_of_add_left_le hs),
      fs.reach_le_of_depth_le hfs⟩
  | slash s fs =>
    obtain ⟨hs, hfs⟩ := Nat.max_le.1 h
    exact Nat.max_le.2 ⟨s.reach_le_of_depth_le (Nat.le_of_add_left_le hs),
      fs.reach_le_of_depth_le hfs⟩
  | next p fs =>
    obtain ⟨hp, hfs⟩ := Nat.max_le.1 h
    exact Nat.max_le.2 ⟨p.reach_le_of_depth_le (Nat.le_of_add_left_le hp),
      fs.reach_le_of_depth_le hfs⟩
termination_by structural d

theorem Signed.reach_le_of_depth_le (d : Signed α) {n : Nat} (h : d.depth ≤ n) :
    d.reach ≤ greatestOperand n := by
  cases d with
  | plus p => exact p.reach_le_of_depth_le h
  | minus p => exact p.reach_le_of_depth_le h
termination_by structural d

theorem Power.reach_le_of_depth_le (d : Power α) {n : Nat} (h : d.depth ≤ n) :
    d.reach ≤ greatestOperand n := by
  have h2 := two_le_greatestOperand n
  cases d with
  | atom a =>
    have ha : a.reach ≤ max 2 (greatestOperand n - 1) := a.reach_le_of_depth_le h
    show a.reach ≤ _
    omega
  | raised a e =>
    -- the exponent is a level, so there is one
    obtain ⟨ha, he⟩ := Nat.max_le.1 h
    have ha := a.reach_le_of_depth_le ha
    obtain ⟨m, rfl⟩ : ∃ m, n = m + 1 := ⟨n - 1, by omega⟩
    have h2 := two_le_greatestOperand m
    rw [greatestOperand] at ha ⊢
    show a.reach + 1 ≤ _
    omega
termination_by structural d

theorem Atom.reach_le_of_depth_le (d : Atom α) {n : Nat} (h : d.depth ≤ n) :
    d.reach ≤ max 2 (greatestOperand n - 1) := by
  have bracket : ∀ {s : Sum α}, (∀ {m : Nat}, s.depth ≤ m → s.reach ≤ greatest m) →
      1 + s.depth ≤ n → s.reach + 1 ≤ max 2 (greatestOperand n - 1) := by
    intro s hs h
    obtain ⟨m, rfl⟩ : ∃ m, n = m + 1 := ⟨n - 1, by omega⟩
    have := hs (show s.depth ≤ m by omega)
    rw [greatest] at this
    rw [greatestOperand]
    omega
  cases d with
  | num v => exact Nat.le_max_left ..
  | pi => exact Nat.le_max_left ..
  | var => exact Nat.le_max_left ..
  | call f s => exact bracket s.reach_le_of_depth_le h
  | brackets s => exact Nat.le_of_succ_le (bracket s.reach_le_of_depth_le h)
termination_by structural d
end

/-! ## the bound if every operator of a product is a level for all of its operands -/

mutual
def Sum.load : Sum α → Nat
  | .mk p ts => max p.load ts.load

def Terms.load : Terms α → Nat
  | .nil => 0
  | .plus p ts => max p.load ts.load
  | .minus p ts => max p.load ts.load

def Product.load : Product α → Nat
  | .mk s fs => max s.load fs.load + fs.length

def Factors.load : Factors α → Nat
  | .nil => 0
  | .times s fs => max s.load fs.load
  | .slash s fs => max s.load fs.load
  | .next p fs => max p.load fs.load

def Signed.load : Signed α → Nat
  | .plus p => p.load
  | .minus p => p.load

def Power.load : Power α → Nat
  | .atom a => a.load
  | .raised a n => max a.load (1 + n.load)

def Atom.load : Atom α → Nat
  | .num _ | .pi | .var => 0
  | .call _ s => 1 + s.load
  | .brackets s => 1 + s.load
end

mutual
theorem Sum.reach_le_load (d : Sum α) : d.reach ≤ 3 * d.load + 3 := by
  cases d with
  | mk p ts =>
    have hp := p.reach_le_load
    have hts := ts.reach_le_load
    show max p.reach ts.reach + 1 ≤ 3 * max p.load ts.load + 3
    omega
termination_by structural d

theorem Terms.reach_le_load (d : Terms α) : d.reach ≤ 3 * d.load + 2 := by
  cases d with
  | nil => exact Nat.le_refl 2
  | plus p ts =>
    have hp := p.reach_le_load
    have hts := ts.reach_le_load
    show max p.reach ts.reach ≤ 3 * max p.load ts.load + 2
    omega
  | minus p ts =>
    have hp := p.reach_le_load
    have hts := ts.reach_le_load
    show max p.reach ts.reach ≤ 3 * max p.load ts.load + 2
    omega
termination_by structural d

theorem Product.reach_le_load (d : Product α) : d.reach ≤ 3 * d.load + 2 := by
  cases d with
  | mk s fs =>
    have hs := s.reach_le_load
    have hfs := fs.reach_le_load
    show max s.reach fs.reach + fs.length ≤ 3 * (max s.load fs.load + fs.length) + 2
    omega
termination_by structural d

theorem Factors.reach_le_load (d : Factors α) : d.reach ≤ 3 * d.load + 2 := by
  cases d with
  | nil => exact Nat.le_refl 2
  | times s fs =>
    have hs := s.reach_le_load
    have hfs := fs.reach_le_load
    show max s.reach fs.reach ≤ 3 * max s.load fs.load + 2
    omega
  | slash s fs =>
    have hs := s.reach_le_load
    have hfs := fs.reach_le_load
    show max s.reach fs.reach ≤ 3 * max s.load fs.load + 2
    omega
  | next p fs =>
    have hp := p.reach_le_load
    have hfs := fs.reach_le_load
    show max p.reach fs.reach ≤ 3 * max p.load fs.load + 2
    omega
termination_by structural d

theorem Signed.reach_le_load (d : Signed α) : d.reach ≤ 3 * d.load + 2 := by
  cases d with
  | plus p => exact p.reach_le_load
  | minus p => exact p.reach_le_load
termination_by structural d

theorem Power.reach_le_load (d : Power α) : d.reach ≤ 3 * d.load + 2 := by
  cases d with
  | atom a =>
    have ha := a.reach_le_load
    show a.reach ≤ 3 * a.load + 2
    omega
  | raised a n =>
    have ha := a.reach_le_load
    show a.reach + 1 ≤ 3 * max a.load (1 + n.load) + 2
    omega
termination_by structural d

theorem Atom.reach_le_load (d : Atom α) : d.reach ≤ max 2 (3 * d.load + 1) := by
  cases d with
  | num v => exact Nat.le_refl 2
  | pi => exact Nat.le_refl 2
  | var => exact Nat.le_refl 2
  | call f s =>
    have hs := s.reach_le_load
    show s.reach + 1 ≤ max 2 (3 * (1 + s.load) + 1)
    omega
  | brackets s =>
    have hs := s.reach_le_load
    show s.reach ≤ max 2 (3 * (1 + s.load) + 1)
    omega
termination_by structural d
end

/-! ## the greatest height is reached -/

/-- the variable -/
def signedVar : Signed α := .plus (.atom .var)

/-- `/ x / x / … / x` -/
def slashes : Nat → Factors α
  | 0 => .nil
  | n + 1 => .slash signedVar (slashes n)

section
variable [Scalar α]

/-- `x - x`, and `sin(…) ^ v / x / … / x + x` around the tower before, with as many operators as
there are levels; `v` is one half -/
def tower : Nat → Sum α
  | 0 => .mk (.mk signedVar .nil) (.minus (.mk signedVar .nil) .nil)
  | n + 1 =>
    .mk (.mk (.plus (.raised (.call (.trig .sin) (tower n)) (.plus (.atom (.num half)))))
      (slashes (n + 1))) (.plus (.mk signedVar .nil) .nil)

theorem slashes_depth_le (k n : Nat) : (slashes k : Factors α).depth n ≤ n + k - 1 := by
  induction k generalizing n with
  | zero => exact Nat.zero_le _
  | succ k ih =>
    have := ih (n + 1)
    show max (n + 0) ((slashes k : Factors α).depth (n + 1)) ≤ n + (k + 1) - 1
    omega

theorem tower_depth_le (n : Nat) : (tower n : Sum α).depth ≤ n := by
  induction n with
  | zero => exact Nat.le_refl 0
  | succ n ih =>
    have := slashes_depth_le (α := α) (n + 1) 1
    show max (max (max (1 + (tower n : Sum α).depth) (1 + 0))
      ((slashes (n + 1) : Factors α).depth 1)) (max (max 0 0) 0) ≤ n + 1
    omega

theorem slashes_constant (n : Nat) : (slashes n : Factors α).Constant := by
  induction n with
  | zero => trivial
  | succ n ih => exact ⟨trivial, ih⟩

theorem tower_constant [FiniteLiterals α] (n : Nat) : (tower n : Sum α).Constant := by
  induction n with
  | zero => exact ⟨⟨trivial, trivial⟩, ⟨trivial, trivial⟩, trivial⟩
  | succ n ih =>
    exact ⟨⟨⟨ih, trivial, rfl, FiniteLiterals.half⟩, slashes_constant _⟩, ⟨trivial, trivial⟩,
      trivial⟩

/-- the last operator is the root -/
theorem slashes_tree_succ (n : Nat) (e : Expr α) :
    (slashes (n + 1)).tree e = .quotient ((slashes n).tree e) .var 1 := by
  induction n generalizing e with
  | zero => rfl
  | succ n ih => exact ih (.quotient e .var 1)

theorem slashes_tree_height (n : Nat) (e : Expr α) :
    ((slashes n).tree e).height = e.height + n := by
  induction n with
  | zero => rfl
  | succ n ih =>
    have := e.height_pos
    rw [slashes_tree_succ]
    show 1 + max ((slashes n).tree e).height 1 = _
    omega

theorem slashes_tree_isFinite [FiniteLiterals α] (n : Nat) {e : Expr α} (h : e.isFinite) :
    ((slashes n).tree e).isFinite := by
  induction n with
  | zero => exact h
  | succ n ih =>
    rw [slashes_tree_succ, Expr.isFinite, ih, FiniteLiterals.one]
    rfl

variable [FiniteLiterals α] (hv : Scalar.isFinite (-1 * 1 : α)) (hn : ((-1 : α) == 1) = false)
  (h0 : ((half : α) == 0) = false) (h1 : ((half : α) == 1) = false)
include hv hn

theorem tower_zero_tree : (tower 0 : Sum α).tree = .sum [.var, .product [.var] (-1)] := by
  have : (Expr.var : Expr α).scale (-1) = .product [.var] (-1) := by
    rw [scale_of_isSum_eq_false (-1) rfl, hn, if_neg Bool.false_ne_true]
    exact if_pos hv
  show sumOf [.var, (Expr.var : Expr α).scale (-1)] = _
  rw [this]
  rfl

omit hv hn
include h0 h1

theorem tower_succ_tree (n : Nat) : (tower (n + 1) : Sum α).tree
    = .sum [.quotient ((slashes n).tree (.power (.trig .sin (tower n).tree 1) half 1)) .var 1,
      .var] := by
  have hpow : powerOf (.trig .sin (tower n : Sum α).tree 1) half 1
      = .power (.trig .sin (tower n).tree 1) half 1 := by
    unfold powerOf
    rw [h0, if_neg Bool.false_ne_true, h1, if_neg Bool.false_ne_true]
  show sumOf [(slashes (n + 1)).tree (powerOf (.trig .sin (tower n : Sum α).tree 1) half 1), .var]
    = _
  rw [hpow, slashes_tree_succ]
  rfl

include hv hn

theorem tower_height (n : Nat) : (tower n : Sum α).tree.height = greatest n := by
  induction n with
  | zero =>
    rw [tower_zero_tree hv hn]
    rfl
  | succ n ih =>
    rw [tower_succ_tree h0 h1, greatest_succ, ← ih]
    show 1 + max (1 + max ((slashes n).tree (Expr.power _ half 1)).height 1) (max 1 0) = _
    rw [slashes_tree_height]
    show 1 + max (1 + max (1 + (1 + (tower n : Sum α).tree.height) + n) 1) (max 1 0) = _
    omega

theorem tower_isFinite (n : Nat) : (tower n : Sum α).tree.isFinite := by
  induction n with
  | zero =>
    rw [tower_zero_tree hv hn]
    show (true && ((Scalar.isFinite (-1 : α) && (true && true)) && true)) = true
    rw [FiniteLiterals.neg_one]
    rfl
  | succ n ih =>
    rw [tower_succ_tree h0 h1]
    have hpow : (Expr.power (.trig .sin (tower n : Sum α).tree 1) half 1).isFinite := by
      rw [Expr.isFinite, Expr.isFinite, ih, FiniteLiterals.half, FiniteLiterals.one]
      rfl
    show (((Scalar.isFinite (1 : α) && ((slashes n).tree _).isFinite) && true)
      && (true && true)) = true
    rw [FiniteLiterals.one, slashes_tree_isFinite n hpow]
    rfl

end

/-! ## lists of tokens in double precision -/

theorem Sum.height_le_reach (d : Sum Float) (hk : d.Constant) : d.tree.height ≤ d.reach :=
  (d.within Double.isFinite_mul_one Double.isFinite_neg_one_mul hk).height

theorem Sum.height_le_greatest {d : Sum Float} {n : Nat} (hk : d.Constant) (h : d.depth ≤ n) :
    d.tree.height ≤ greatest n :=
  Nat.le_trans (d.height_le_reach hk) (d.reach_le_of_depth_le h)

theorem towerFloat_height (n : Nat) : (tower n : Sum Float).tree.height = greatest n :=
  tower_height (by decide +kernel) (by decide +kernel) (by decide +kernel) (by decide +kernel) n

theorem towerFloat_isFinite (n : Nat) : (tower n : Sum Float).tree.isFinite :=
  tower_isFinite (by decide +kernel) (by decide +kernel) (by decide +kernel) (by decide +kernel) n

/-- the tokens of a derivation, all at the same place -/
def Sum.tokens (d : Sum α) : List (Token α) := d.symbols.map (⟨·, 0⟩)

@[simp] theorem Sum.map_symbol_tokens (d : Sum α) : d.tokens.map Token.symbol = d.symbols := by
  rw [Sum.tokens, List.map_map]
  exact List.map_id _

theorem ofTokens_tower {n : Nat} (h : n ≤ maxDepth) :
    ofTokens (tower n : Sum Float).tokens = .ok (tower n).tree := by
  rw [ofTokens_of_depth_le (Sum.map_symbol_tokens _) (tower_constant n)
    (Nat.le_trans (tower_depth_le n) h), if_pos (towerFloat_isFinite n)]

/-- the list of tokens has the derivation `d` and the tree `e` -/
structure Accepts (ts : List (Token Float)) (d : Sum Float) (e : Expr Float) : Prop where
  ok : ofTokens ts = .ok e
  symbols : d.symbols = ts.map Token.symbol

namespace Accepts
variable {ts : List (Token Float)} {d : Sum Float} {e : Expr Float}

theorem tree_eq (h : Accepts ts d e) : d.Constant ∧ d.tree = e := by
  obtain ⟨-, d', hs, -, hk, he, -⟩ := ofTokens_derived h.ok
  obtain rfl := Sum.symbols_injective (h.symbols.trans hs.symm)
  exact ⟨hk, he⟩

theorem height_le_greatest (h : Accepts ts d e) {n : Nat} (hd : d.depth ≤ n) :
    e.height ≤ greatest n := by
  obtain ⟨hk, rfl⟩ := h.tree_eq
  exact Sum.height_le_greatest hk hd

theorem tower {n : Nat} (h : n ≤ maxDepth) :
    Accepts (tower n : Sum Float).tokens (tower n) (tower n).tree :=
  ⟨ofTokens_tower h, (Sum.map_symbol_tokens _).symm⟩

end Accepts

/-- The height of the tree of a list of tokens with `n` levels grows with the square of `n`, and
this bound is reached; it is within four times the number of all levels and one more only for
`n ≤ 41`.  It is linear in the levels that there are if every operator of a product is one for all
of its operands. -/
theorem ofTokens_height (n : Nat) :
    (∀ ts d e, Accepts ts d e → d.depth ≤ n → e.height ≤ 3 * (n + 1) + n * (n + 1) / 2)
    ∧ (n ≤ maxDepth → ∃ ts d e, Accepts ts d e ∧ d.depth ≤ n
      ∧ e.height = 3 * (n + 1) + n * (n + 1) / 2)
    ∧ ((∀ ts d e, Accepts ts d e → d.depth ≤ n → e.height ≤ 4 * (maxDepth + 1)) ↔ n ≤ 41)
    ∧ ∀ ts d e, Accepts ts d e → d.load ≤ n → e.height ≤ 3 * (n + 1) := by
  rw [← greatest_eq]
  refine ⟨fun ts d e h => h.height_le_greatest, fun hn => ?_, ⟨fun h => ?_, fun hn => ?_⟩, ?_⟩
  · exact ⟨_, _, _, .tower hn, tower_depth_le n, towerFloat_height n⟩
  · refine Nat.le_of_not_lt fun hn => ?_
    have h42 := h _ _ _ (.tower (by decide)) (Nat.le_trans (tower_depth_le 42) hn)
    rw [towerFloat_height, greatest_eq] at h42
    exact absurd h42 (by decide)
  · intro ts d e h hd
    have h41 := h.height_le_greatest (Nat.le_trans hd hn)
    rw [greatest_eq] at h41
    exact Nat.le_trans h41 (by decide)
  · intro ts d e h hl
    obtain ⟨hk, rfl⟩ := h.tree_eq
    have := d.height_le_reach hk
    have := d.reach_le_load
    omega

theorem not_ofTokens_height_le_linear :
    ¬ ∀ (ts : List (Token Float)) (e : Expr Float), ofTokens ts = .ok e →
      e.height ≤ 4 * (maxDepth + 1) := by
  intro h
  have h' := h _ _ (ofTokens_tower (Nat.le_refl maxDepth))
  rw [towerFloat_height, greatest_eq] at h'
  exact absurd h' (by decide)

end CurveStudy.Grammar
