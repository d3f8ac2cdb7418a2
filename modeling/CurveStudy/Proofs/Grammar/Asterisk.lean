import CurveStudy.Proofs.Grammar.Unique
import CurveStudy.Proofs.Grammar.Height
import CurveStudy.Proofs.Half

/-!
# With an asterisk or without one

An operand without a sign may follow the product before it with an asterisk or with nothing.  The
two are different derivations, and they differ in nothing that counts: not in their tree, not in the
levels of their operands, and not in their exponents.

* `Sum.explicit`   the derivation with an asterisk wherever it multiplies without one, and so on for
  the other lines; `depth_explicit`, `tree_explicit`, `constant_explicit` say what it keeps;
* `Sum.Starred`    the symbols of a derivation with some asterisks more;
* `Elided`         symbols with some asterisks less;
* `Sum.exists_of_starred`, `Sum.exists_of_elided`   both have a derivation that differs from the
  given one in asterisks only;
* `ofTokens_asterisks`   lists of tokens.
-/

namespace CurveStudy.Grammar
open CurveStudy.Expr

variable {α : Type}

mutual
/-- with an asterisk wherever the derivation multiplies without one -/
def Sum.explicit : Sum α → Sum α
  | .mk p ts => .mk p.explicit ts.explicit

def Terms.explicit : Terms α → Terms α
  | .nil => .nil
  | .plus p ts => .plus p.explicit ts.explicit
  | .minus p ts => .minus p.explicit ts.explicit

def Product.explicit : Product α → Product α
  | .mk s fs => .mk s.explicit fs.explicit

def Factors.explicit : Factors α → Factors α
  | .nil => .nil
  | .times s fs => .times s.explicit fs.explicit
  | .slash s fs => .slash s.explicit fs.explicit
  | .next p fs => .times (.plus p.explicit) fs.explicit

def Signed.explicit : Signed α → Signed α
  | .plus p => .plus p.explicit
  | .minus p => .minus p.explicit

def Power.explicit : Power α → Power α
  | .atom a => .atom a.explicit
  | .raised a n => .raised a.explicit n.explicit

def Atom.explicit : Atom α → Atom α
  | .num v => .num v
  | .pi => .pi
  | .var => .var
  | .call f s => .call f s.explicit
  | .brackets s => .brackets s.explicit
end

/-! ## what it keeps -/

mutual
@[simp] theorem Sum.depth_explicit (d : Sum α) : d.explicit.depth = d.depth := by
  cases d with
  | mk p ts => rw [Sum.explicit, Sum.depth, p.depth_explicit, ts.depth_explicit, Sum.depth]
termination_by structural d

@[simp] theorem Terms.depth_explicit (d : Terms α) : d.explicit.depth = d.depth := by
  cases d with
  | nil => rfl
  | plus p ts => rw [Terms.explicit, Terms.depth, p.depth_explicit, ts.depth_explicit, Terms.depth]
  | minus p ts => rw [Terms.explicit, Terms.depth, p.depth_explicit, ts.depth_explicit, Terms.depth]
termination_by structural d

@[simp] theorem Product.depth_explicit (d : Product α) : d.explicit.depth = d.depth := by
  cases d with
  | mk s fs => rw [Product.explicit, Product.depth, s.depth_explicit, fs.depth_explicit,
      Product.depth]
termination_by structural d

@[simp] theorem Factors.depth_explicit (d : Factors α) (k : Nat) :
    d.explicit.depth k = d.depth k := by
  cases d with
  | nil => rfl
  | times s fs => rw [Factors.explicit, Factors.depth, s.depth_explicit, fs.depth_explicit,
      Factors.depth]
  | slash s fs => rw [Factors.explicit, Factors.depth, s.depth_explicit, fs.depth_explicit,
      Factors.depth]
  | next p fs => rw [Factors.explicit, Factors.depth, Signed.depth, p.depth_explicit,
      fs.depth_explicit, Factors.depth]
termination_by structural d

@[simp] theorem Signed.depth_explicit (d : Signed α) : d.explicit.depth = d.depth := by
  cases d with
  | plus p => exact p.depth_explicit
  | minus p => exact p.depth_explicit
termination_by structural d

@[simp] theorem Power.depth_explicit (d : Power α) : d.explicit.depth = d.depth := by
  cases d with
  | atom a => exact a.depth_explicit
  | raised a n => rw [Power.explicit, Power.depth, a.depth_explicit, n.depth_explicit, Power.depth]
termination_by structural d

@[simp] theorem Atom.depth_explicit (d : Atom α) : d.explicit.depth = d.depth := by
  cases d with
  | num v => rfl
  | pi => rfl
  | var => rfl
  | call f s => exact congrArg (1 + ·) s.depth_explicit
  | brackets s => exact congrArg (1 + ·) s.depth_explicit
termination_by structural d
end

section
variable [Scalar α]

mutual
@[simp] theorem Sum.tree_explicit (d : Sum α) : d.explicit.tree = d.tree := by
  cases d with
  | mk p ts => rw [Sum.explicit, Sum.tree, p.tree_explicit, ts.trees_explicit, Sum.tree]
termination_by structural d

@[simp] theorem Terms.trees_explicit (d : Terms α) : d.explicit.trees = d.trees := by
  cases d with
  | nil => rfl
  | plus p ts => rw [Terms.explicit, Terms.trees, p.tree_explicit, ts.trees_explicit, Terms.trees]
  | minus p ts => rw [Terms.explicit, Terms.trees, p.tree_explicit, ts.trees_explicit, Terms.trees]
termination_by structural d

@[simp] theorem Product.tree_explicit (d : Product α) : d.explicit.tree = d.tree := by
  cases d with
  | mk s fs => rw [Product.explicit, Product.tree, s.tree_explicit, fs.tree_explicit, Product.tree]
termination_by structural d

@[simp] theorem Factors.tree_explicit (d : Factors α) (e : Expr α) :
    d.explicit.tree e = d.tree e := by
  cases d with
  | nil => rfl
  | times s fs => rw [Factors.explicit, Factors.tree, s.tree_explicit, fs.tree_explicit,
      Factors.tree]
  | slash s fs => rw [Factors.explicit, Factors.tree, s.tree_explicit, fs.tree_explicit,
      Factors.tree]
  | next p fs => rw [Factors.explicit, Factors.tree, Signed.tree, p.tree_explicit,
      fs.tree_explicit, Factors.tree]
termination_by structural d

@[simp] theorem Signed.tree_explicit (d : Signed α) : d.explicit.tree = d.tree := by
  cases d with
  | plus p => exact p.tree_explicit
  | minus p => exact congrArg (Expr.scale (-1)) p.tree_explicit
termination_by structural d

@[simp] theorem Signed.number_explicit (d : Signed α) : d.explicit.number = d.number := by
  cases d with
  | plus p => exact congrArg (Expr.eval 0) p.tree_explicit
  | minus p => exact congrArg (fun e => -Expr.eval 0 e) p.tree_explicit
termination_by structural d

@[simp] theorem Power.tree_explicit (d : Power α) : d.explicit.tree = d.tree := by
  cases d with
  | atom a => exact a.tree_explicit
  | raised a n => rw [Power.explicit, Power.tree, a.tree_explicit, n.number_explicit, Power.tree]
termination_by structural d

@[simp] theorem Atom.tree_explicit (d : Atom α) : d.explicit.tree = d.tree := by
  cases d with
  | num v => rfl
  | pi => rfl
  | var => rfl
  | call f s => exact congrArg f.tree s.tree_explicit
  | brackets s => exact s.tree_explicit
termination_by structural d
end

@[simp] theorem Signed.power_tree_explicit (n : Signed α) :
    n.explicit.power.tree = n.power.tree := by
  cases n with
  | plus p => exact p.tree_explicit
  | minus p => exact p.tree_explicit

mutual
@[simp] theorem Sum.constant_explicit (d : Sum α) : d.explicit.Constant ↔ d.Constant := by
  cases d with
  | mk p ts => exact and_congr p.constant_explicit ts.constant_explicit
termination_by structural d

@[simp] theorem Terms.constant_explicit (d : Terms α) : d.explicit.Constant ↔ d.Constant := by
  cases d with
  | nil => exact Iff.rfl
  | plus p ts => exact and_congr p.constant_explicit ts.constant_explicit
  | minus p ts => exact and_congr p.constant_explicit ts.constant_explicit
termination_by structural d

@[simp] theorem Product.constant_explicit (d : Product α) : d.explicit.Constant ↔ d.Constant := by
  cases d with
  | mk s fs => exact and_congr s.constant_explicit fs.constant_explicit
termination_by structural d

@[simp] theorem Factors.constant_explicit (d : Factors α) : d.explicit.Constant ↔ d.Constant := by
  cases d with
  | nil => exact Iff.rfl
  | times s fs => exact and_congr s.constant_explicit fs.constant_explicit
  | slash s fs => exact and_congr s.constant_explicit fs.constant_explicit
  | next p fs => exact and_congr p.constant_explicit fs.constant_explicit
termination_by structural d

@[simp] theorem Signed.constant_explicit (d : Signed α) : d.explicit.Constant ↔ d.Constant := by
  cases d with
  | plus p => exact p.constant_explicit
  | minus p => exact p.constant_explicit
termination_by structural d

@[simp] theorem Power.constant_explicit (d : Power α) : d.explicit.Constant ↔ d.Constant := by
  cases d with
  | atom a => exact a.constant_explicit
  | raised a n =>
    rw [Power.explicit, Power.Constant, n.power_tree_explicit, n.number_explicit,
      a.constant_explicit, n.constant_explicit, Power.Constant]
termination_by structural d

@[simp] theorem Atom.constant_explicit (d : Atom α) : d.explicit.Constant ↔ d.Constant := by
  cases d with
  | num v => exact Iff.rfl
  | pi => exact Iff.rfl
  | var => exact Iff.rfl
  | call f s => exact s.constant_explicit
  | brackets s => exact s.constant_explicit
termination_by structural d
end

end

/-! ## some asterisks more -/

mutual
/-- the symbols of the derivation, with an asterisk more at some of the places where it multiplies
without one -/
def Sum.Starred : Sum α → List (Symbol α) → Prop
  | .mk p ts, τ => ∃ τ₁ τ₂, τ = τ₁ ++ τ₂ ∧ p.Starred τ₁ ∧ ts.Starred τ₂

def Terms.Starred : Terms α → List (Symbol α) → Prop
  | .nil, τ => τ = []
  | .plus p ts, τ => ∃ τ₁ τ₂, τ = .plus :: (τ₁ ++ τ₂) ∧ p.Starred τ₁ ∧ ts.Starred τ₂
  | .minus p ts, τ => ∃ τ₁ τ₂, τ = .minus :: (τ₁ ++ τ₂) ∧ p.Starred τ₁ ∧ ts.Starred τ₂

def Product.Starred : Product α → List (Symbol α) → Prop
  | .mk s fs, τ => ∃ τ₁ τ₂, τ = τ₁ ++ τ₂ ∧ s.Starred τ₁ ∧ fs.Starred τ₂

def Factors.Starred : Factors α → List (Symbol α) → Prop
  | .nil, τ => τ = []
  | .times s fs, τ => ∃ τ₁ τ₂, τ = .times :: (τ₁ ++ τ₂) ∧ s.Starred τ₁ ∧ fs.Starred τ₂
  | .slash s fs, τ => ∃ τ₁ τ₂, τ = .slash :: (τ₁ ++ τ₂) ∧ s.Starred τ₁ ∧ fs.Starred τ₂
  | .next p fs, τ => ∃ τ₁ τ₂, (τ = τ₁ ++ τ₂ ∨ τ = .times :: (τ₁ ++ τ₂)) ∧ p.Starred τ₁
      ∧ fs.Starred τ₂

def Signed.Starred : Signed α → List (Symbol α) → Prop
  | .plus p, τ => p.Starred τ
  | .minus p, τ => ∃ τ₁, τ = .minus :: τ₁ ∧ p.Starred τ₁

def Power.Starred : Power α → List (Symbol α) → Prop
  | .atom a, τ => a.Starred τ
  | .raised a n, τ => ∃ τ₁ τ₂, τ = τ₁ ++ .caret :: τ₂ ∧ a.Starred τ₁ ∧ n.Starred τ₂

def Atom.Starred : Atom α → List (Symbol α) → Prop
  | .num v, τ => τ = [.num v]
  | .pi, τ => τ = [.pi]
  | .var, τ => τ = [.name ['x']]
  | .call f s, τ => ∃ τ₁, τ = .name f.name :: .opening :: (τ₁ ++ [.closing]) ∧ s.Starred τ₁
  | .brackets s, τ => ∃ τ₁, τ = .opening :: (τ₁ ++ [.closing]) ∧ s.Starred τ₁
end

/-! ## some asterisks less -/

/-- The second list is the first one without some of the asterisks in front of an operand that has
no sign.  Behind the first list `ρ` follows. -/
inductive Elided (ρ : List (Symbol α)) : List (Symbol α) → List (Symbol α) → Prop where
  | nil : Elided ρ [] []
  | cons (s : Symbol α) {σ τ : List (Symbol α)} (h : Elided ρ σ τ) : Elided ρ (s :: σ) (s :: τ)
  | drop {s : Symbol α} {σ τ : List (Symbol α)} (hs : (σ ++ ρ).head? = some s)
      (ho : startsOperand s) (h : Elided ρ σ τ) : Elided ρ (.times :: σ) τ

namespace Elided
variable {ρ σ σ' τ : List (Symbol α)}

theorem eq_nil (h : Elided ρ [] τ) : τ = [] := by
  cases h
  rfl

theorem append (h : Elided ρ (σ ++ σ') τ) :
    ∃ τ₁ τ₂, τ = τ₁ ++ τ₂ ∧ Elided (σ' ++ ρ) σ τ₁ ∧ Elided ρ σ' τ₂ := by
  induction σ generalizing τ with
  | nil => exact ⟨[], τ, rfl, .nil, h⟩
  | cons s σ ih =>
    cases h with
    | cons _ h =>
      obtain ⟨τ₁, τ₂, rfl, h1, h2⟩ := ih h
      exact ⟨s :: τ₁, τ₂, rfl, .cons s h1, h2⟩
    | drop hs ho h =>
      obtain ⟨τ₁, τ₂, rfl, h1, h2⟩ := ih h
      exact ⟨τ₁, τ₂, rfl, .drop (List.append_assoc σ σ' ρ ▸ hs) ho h1, h2⟩

/-- what is no asterisk stays -/
theorem head {s : Symbol α} (h : Elided ρ (s :: σ) τ) (hs : s ≠ .times) :
    ∃ τ₁, τ = s :: τ₁ ∧ Elided ρ σ τ₁ := by
  cases h with
  | cons _ h => exact ⟨_, rfl, h⟩
  | drop _ _ h => exact absurd rfl hs

theorem singleton {s : Symbol α} (h : Elided ρ [s] τ) (hs : s ≠ .times) : τ = [s] := by
  obtain ⟨τ₁, rfl, h1⟩ := h.head hs
  exact congrArg (s :: ·) h1.eq_nil

/-- what is between brackets -/
theorem brackets (h : Elided ρ (.opening :: (σ ++ [.closing])) τ) :
    ∃ τ₁, τ = .opening :: (τ₁ ++ [.closing]) ∧ Elided (.closing :: ρ) σ τ₁ := by
  obtain ⟨τ₀, rfl, h0⟩ := h.head (by nofun)
  obtain ⟨τ₁, τ₂, rfl, h1, h2⟩ := h0.append
  rw [h2.singleton (by nofun)]
  exact ⟨τ₁, rfl, h1⟩

end Elided

/-! ## both have a derivation -/

mutual
theorem Sum.exists_of_starred (d : Sum α) {τ : List (Symbol α)} (h : d.Starred τ) :
    ∃ d' : Sum α, d'.symbols = τ ∧ d'.explicit = d.explicit := by
  cases d with
  | mk p ts =>
    obtain ⟨τ₁, τ₂, rfl, hp, ht⟩ := h
    obtain ⟨p', rfl, hp'⟩ := p.exists_of_starred hp
    obtain ⟨ts', rfl, ht'⟩ := ts.exists_of_starred ht
    exact ⟨.mk p' ts', rfl, congrArg₂ Sum.mk hp' ht'⟩
termination_by structural d

theorem Terms.exists_of_starred (d : Terms α) {τ : List (Symbol α)} (h : d.Starred τ) :
    ∃ d' : Terms α, d'.symbols = τ ∧ d'.explicit = d.explicit := by
  cases d with
  | nil => exact ⟨.nil, h.symm, rfl⟩
  | plus p ts =>
    obtain ⟨τ₁, τ₂, rfl, hp, ht⟩ := h
    obtain ⟨p', rfl, hp'⟩ := p.exists_of_starred hp
    obtain ⟨ts', rfl, ht'⟩ := ts.exists_of_starred ht
    exact ⟨.plus p' ts', rfl, congrArg₂ Terms.plus hp' ht'⟩
  | minus p ts =>
    obtain ⟨τ₁, τ₂, rfl, hp, ht⟩ := h
    obtain ⟨p', rfl, hp'⟩ := p.exists_of_starred hp
    obtain ⟨ts', rfl, ht'⟩ := ts.exists_of_starred ht
    exact ⟨.minus p' ts', rfl, congrArg₂ Terms.minus hp' ht'⟩
termination_by structural d

theorem Product.exists_of_starred (d : Product α) {τ : List (Symbol α)} (h : d.Starred τ) :
    ∃ d' : Product α, d'.symbols = τ ∧ d'.explicit = d.explicit := by
  cases d with
  | mk s fs =>
    obtain ⟨τ₁, τ₂, rfl, hs, hf⟩ := h
    obtain ⟨s', rfl, hs'⟩ := s.exists_of_starred hs
    obtain ⟨fs', rfl, hf'⟩ := fs.exists_of_starred hf
    exact ⟨.mk s' fs', rfl, congrArg₂ Product.mk hs' hf'⟩
termination_by structural d

theorem Factors.exists_of_starred (d : Factors α) {τ : List (Symbol α)} (h : d.Starred τ) :
    ∃ d' : Factors α, d'.symbols = τ ∧ d'.explicit = d.explicit := by
  cases d with
  | nil => exact ⟨.nil, h.symm, rfl⟩
  | times s fs =>
    obtain ⟨τ₁, τ₂, rfl, hs, hf⟩ := h
    obtain ⟨s', rfl, hs'⟩ := s.exists_of_starred hs
    obtain ⟨fs', rfl, hf'⟩ := fs.exists_of_starred hf
    exact ⟨.times s' fs', rfl, congrArg₂ Factors.times hs' hf'⟩
  | slash s fs =>
    obtain ⟨τ₁, τ₂, rfl, hs, hf⟩ := h
    obtain ⟨s', rfl, hs'⟩ := s.exists_of_starred hs
    obtain ⟨fs', rfl, hf'⟩ := fs.exists_of_starred hf
    exact ⟨.slash s' fs', rfl, congrArg₂ Factors.slash hs' hf'⟩
  | next p fs =>
    obtain ⟨τ₁, τ₂, hτ, hp, hf⟩ := h
    obtain ⟨p', rfl, hp'⟩ := p.exists_of_starred hp
    obtain ⟨fs', rfl, hf'⟩ := fs.exists_of_starred hf
    have he : Factors.times (.plus p'.explicit) fs'.explicit
        = .times (.plus p.explicit) fs.explicit := hp' ▸ hf' ▸ rfl
    rcases hτ with rfl | rfl
    · exact ⟨.next p' fs', rfl, he⟩
    · exact ⟨.times (.plus p') fs', rfl, he⟩
termination_by structural d

theorem Signed.exists_of_starred (d : Signed α) {τ : List (Symbol α)} (h : d.Starred τ) :
    ∃ d' : Signed α, d'.symbols = τ ∧ d'.explicit = d.explicit := by
  cases d with
  | plus p =>
    obtain ⟨p', rfl, hp'⟩ := p.exists_of_starred h
    exact ⟨.plus p', rfl, congrArg Signed.plus hp'⟩
  | minus p =>
    obtain ⟨τ₁, rfl, hp⟩ := h
    obtain ⟨p', rfl, hp'⟩ := p.exists_of_starred hp
    exact ⟨.minus p', rfl, congrArg Signed.minus hp'⟩
termination_by structural d

theorem Power.exists_of_starred (d : Power α) {τ : List (Symbol α)} (h : d.Starred τ) :
    ∃ d' : Power α, d'.symbols = τ ∧ d'.explicit = d.explicit := by
  cases d with
  | atom a =>
    obtain ⟨a', rfl, ha'⟩ := a.exists_of_starred h
    exact ⟨.atom a', rfl, congrArg Power.atom ha'⟩
  | raised a n =>
    obtain ⟨τ₁, τ₂, rfl, ha, hn⟩ := h
    obtain ⟨a', rfl, ha'⟩ := a.exists_of_starred ha
    obtain ⟨n', rfl, hn'⟩ := n.exists_of_starred hn
    exact ⟨.raised a' n', rfl, congrArg₂ Power.raised ha' hn'⟩
termination_by structural d

theorem Atom.exists_of_starred (d : Atom α) {τ : List (Symbol α)} (h : d.Starred τ) :
    ∃ d' : Atom α, d'.symbols = τ ∧ d'.explicit = d.explicit := by
  cases d with
  | num v => exact ⟨.num v, h.symm, rfl⟩
  | pi => exact ⟨.pi, h.symm, rfl⟩
  | var => exact ⟨.var, h.symm, rfl⟩
  | call f s =>
    obtain ⟨τ₁, rfl, hs⟩ := h
    obtain ⟨s', rfl, hs'⟩ := s.exists_of_starred hs
    exact ⟨.call f s', rfl, congrArg (Atom.call f) hs'⟩
  | brackets s =>
    obtain ⟨τ₁, rfl, hs⟩ := h
    obtain ⟨s', rfl, hs'⟩ := s.exists_of_starred hs
    exact ⟨.brackets s', rfl, congrArg Atom.brackets hs'⟩
termination_by structural d
end

mutual
theorem Sum.exists_of_elided (d : Sum α) {ρ τ : List (Symbol α)} (h : Elided ρ d.symbols τ) :
    ∃ d' : Sum α, d'.symbols = τ ∧ d'.explicit = d.explicit := by
  cases d with
  | mk p ts =>
    obtain ⟨τ₁, τ₂, rfl, hp, ht⟩ := h.append
    obtain ⟨p', rfl, hp'⟩ := p.exists_of_elided hp
    obtain ⟨ts', rfl, ht'⟩ := ts.exists_of_elided ht
    exact ⟨.mk p' ts', rfl, congrArg₂ Sum.mk hp' ht'⟩
termination_by structural d

theorem Terms.exists_of_elided (d : Terms α) {ρ τ : List (Symbol α)}
    (h : Elided ρ d.symbols τ) : ∃ d' : Terms α, d'.symbols = τ ∧ d'.explicit = d.explicit := by
  cases d with
  | nil => exact ⟨.nil, h.eq_nil.symm, rfl⟩
  | plus p ts =>
    obtain ⟨τ₀, rfl, h0⟩ := Elided.head h (by nofun)
    obtain ⟨τ₁, τ₂, rfl, hp, ht⟩ := h0.append
    obtain ⟨p', rfl, hp'⟩ := p.exists_of_elided hp
    obtain ⟨ts', rfl, ht'⟩ := ts.exists_of_elided ht
    exact ⟨.plus p' ts', rfl, congrArg₂ Terms.plus hp' ht'⟩
  | minus p ts =>
    obtain ⟨τ₀, rfl, h0⟩ := Elided.head h (by nofun)
    obtain ⟨τ₁, τ₂, rfl, hp, ht⟩ := h0.append
    obtain ⟨p', rfl, hp'⟩ := p.exists_of_elided hp
    obtain ⟨ts', rfl, ht'⟩ := ts.exists_of_elided ht
    exact ⟨.minus p' ts', rfl, congrArg₂ Terms.minus hp' ht'⟩
termination_by structural d

theorem Product.exists_of_elided (d : Product α) {ρ τ : List (Symbol α)}
    (h : Elided ρ d.symbols τ) : ∃ d' : Product α, d'.symbols = τ ∧ d'.explicit = d.explicit := by
  cases d with
  | mk s fs =>
    obtain ⟨τ₁, τ₂, rfl, hs, hf⟩ := h.append
    obtain ⟨s', rfl, hs'⟩ := s.exists_of_elided hs
    obtain ⟨fs', rfl, hf'⟩ := fs.exists_of_elided hf
    exact ⟨.mk s' fs', rfl, congrArg₂ Product.mk hs' hf'⟩
termination_by structural d

theorem Factors.exists_of_elided (d : Factors α) {ρ τ : List (Symbol α)}
    (h : Elided ρ d.symbols τ) : ∃ d' : Factors α, d'.symbols = τ ∧ d'.explicit = d.explicit := by
  cases d with
  | nil => exact ⟨.nil, h.eq_nil.symm, rfl⟩
  | times s fs =>
    cases h with
    | cons _ h =>
      obtain ⟨τ₁, τ₂, rfl, hs, hf⟩ := Elided.append h
      obtain ⟨s', rfl, hs'⟩ := s.exists_of_elided hs
      obtain ⟨fs', rfl, hf'⟩ := fs.exists_of_elided hf
      exact ⟨.times s' fs', rfl, congrArg₂ Factors.times hs' hf'⟩
    | drop ht ho h =>
      obtain ⟨τ₁, τ₂, rfl, hs, hf⟩ := Elided.append h
      obtain ⟨fs', rfl, hf'⟩ := fs.exists_of_elided hf
      cases s with
      -- an operand that starts without a sign is a power
      | plus p =>
        obtain ⟨p', rfl, hp'⟩ := p.exists_of_elided hs
        exact ⟨.next p' fs', rfl, congrArg₂ Factors.times (congrArg Signed.plus hp') hf'⟩
      | minus p =>
        obtain rfl := Option.some.inj ht
        cases ho
  | slash s fs =>
    obtain ⟨τ₀, rfl, h0⟩ := Elided.head h (by nofun)
    obtain ⟨τ₁, τ₂, rfl, hs, hf⟩ := h0.append
    obtain ⟨s', rfl, hs'⟩ := s.exists_of_elided hs
    obtain ⟨fs', rfl, hf'⟩ := fs.exists_of_elided hf
    exact ⟨.slash s' fs', rfl, congrArg₂ Factors.slash hs' hf'⟩
  | next p fs =>
    obtain ⟨τ₁, τ₂, rfl, hp, hf⟩ := h.append
    obtain ⟨p', rfl, hp'⟩ := p.exists_of_elided hp
    obtain ⟨fs', rfl, hf'⟩ := fs.exists_of_elided hf
    exact ⟨.next p' fs', rfl, congrArg₂ Factors.times (congrArg Signed.plus hp') hf'⟩
termination_by structural d

theorem Signed.exists_of_elided (d : Signed α) {ρ τ : List (Symbol α)}
    (h : Elided ρ d.symbols τ) : ∃ d' : Signed α, d'.symbols = τ ∧ d'.explicit = d.explicit := by
  cases d with
  | plus p =>
    obtain ⟨p', rfl, hp'⟩ := p.exists_of_elided h
    exact ⟨.plus p', rfl, congrArg Signed.plus hp'⟩
  | minus p =>
    obtain ⟨τ₀, rfl, h0⟩ := Elided.head h (by nofun)
    obtain ⟨p', rfl, hp'⟩ := p.exists_of_elided h0
    exact ⟨.minus p', rfl, congrArg Signed.minus hp'⟩
termination_by structural d

theorem Power.exists_of_elided (d : Power α) {ρ τ : List (Symbol α)}
    (h : Elided ρ d.symbols τ) : ∃ d' : Power α, d'.symbols = τ ∧ d'.explicit = d.explicit := by
  cases d with
  | atom a =>
    obtain ⟨a', rfl, ha'⟩ := a.exists_of_elided h
    exact ⟨.atom a', rfl, congrArg Power.atom ha'⟩
  | raised a n =>
    obtain ⟨τ₁, τ₂, rfl, ha, h⟩ := h.append
    obtain ⟨τ₀, rfl, hn⟩ := h.head (by nofun)
    obtain ⟨a', rfl, ha'⟩ := a.exists_of_elided ha
    obtain ⟨n', rfl, hn'⟩ := n.exists_of_elided hn
    exact ⟨.raised a' n', rfl, congrArg₂ Power.raised ha' hn'⟩
termination_by structural d

theorem Atom.exists_of_elided (d : Atom α) {ρ τ : List (Symbol α)}
    (h : Elided ρ d.symbols τ) : ∃ d' : Atom α, d'.symbols = τ ∧ d'.explicit = d.explicit := by
  cases d with
  | num v => exact ⟨.num v, (Elided.singleton h (by nofun)).symm, rfl⟩
  | pi => exact ⟨.pi, (Elided.singleton h (by nofun)).symm, rfl⟩
  | var => exact ⟨.var, (Elided.singleton h (by nofun)).symm, rfl⟩
  | call f s =>
    obtain ⟨τ₀, rfl, h0⟩ := Elided.head h (by nofun)
    obtain ⟨τ₁, rfl, hs⟩ := h0.brackets
    obtain ⟨s', rfl, hs'⟩ := s.exists_of_elided hs
    exact ⟨.call f s', rfl, congrArg (Atom.call f) hs'⟩
  | brackets s =>
    obtain ⟨τ₁, rfl, hs⟩ := Elided.brackets h
    obtain ⟨s', rfl, hs'⟩ := s.exists_of_elided hs
    exact ⟨.brackets s', rfl, congrArg Atom.brackets hs'⟩
termination_by structural d
end

/-! ## lists of tokens -/

section
variable [Scalar α] [Literal α]

/-- two derivations that differ in asterisks only have the same tree -/
theorem ofTokens_of_explicit_eq {ts us : List (Token α)} {e : Expr α} {d d' : Sum α}
    (h : ofTokens ts = .ok e) (hd : d.symbols = ts.map Token.symbol)
    (hd' : d'.symbols = us.map Token.symbol) (he : d'.explicit = d.explicit) :
    ofTokens us = .ok e := by
  obtain ⟨-, d₀, hs, hl, hk, rfl, hf⟩ := ofTokens_derived h
  obtain rfl := Sum.symbols_injective (hs.trans hd.symm)
  have hl' : d'.depth = d₀.depth := by rw [← d'.depth_explicit, he, d₀.depth_explicit]
  have ht' : d'.tree = d₀.tree := by rw [← d'.tree_explicit, he, d₀.tree_explicit]
  have hk' : d'.Constant := by rwa [← d'.constant_explicit, he, d₀.constant_explicit]
  rw [ofTokens_of_depth_le hd'.symm hk' (hl'.trans_le hl), ht', if_pos hf]

/-- A list of tokens that is read as a tree has one derivation.  With an asterisk more at any of the
places where this derivation multiplies without one, the same tree is read, and so it is without any
of the asterisks that an operand without a sign follows. -/
theorem ofTokens_asterisks {ts : List (Token α)} {e : Expr α} (h : ofTokens ts = .ok e) :
    ∃ d : Sum α, (∀ d' : Sum α, d'.symbols = ts.map Token.symbol ↔ d' = d)
      ∧ (∀ us : List (Token α), d.Starred (us.map Token.symbol) → ofTokens us = .ok e)
      ∧ ∀ us : List (Token α), Elided [] (ts.map Token.symbol) (us.map Token.symbol) →
        ofTokens us = .ok e := by
  obtain ⟨-, d, hs, -⟩ := ofTokens_derived h
  refine ⟨d, fun d' => ⟨fun hd' => Sum.symbols_injective (hd'.trans hs.symm), ?_⟩,
    fun us hus => ?_, fun us hus => ?_⟩
  · rintro rfl
    exact hs
  · obtain ⟨d', hd', he⟩ := d.exists_of_starred hus
    exact ofTokens_of_explicit_eq h hs hd' he
  · rw [← hs] at hus
    obtain ⟨d', hd', he⟩ := d.exists_of_elided hus
    exact ofTokens_of_explicit_eq h hs hd' he

end

/-- the derivation of `2x*(x)` over the rational numbers -/
def twoSquares : Sum Rat :=
  .mk (.mk (.plus (.atom (.num 2))) (.next (.atom .var)
    (.times (.plus (.atom (.brackets (.mk (.mk (.plus (.atom .var)) .nil) .nil)))) .nil))) .nil

/-- the tokens of `2x*(x)` mean what the tokens of `2*x*(x)` and of `2x(x)` mean -/
theorem ofTokens_asterisks_twoSquares : ofTokens twoSquares.tokens = .ok twoSquares.tree
    ∧ (∃ d : Sum Rat, (∀ d' : Sum Rat, d'.symbols = twoSquares.tokens.map Token.symbol ↔ d' = d)
      ∧ (∀ us : List (Token Rat), d.Starred (us.map Token.symbol) →
        ofTokens us = .ok twoSquares.tree)
      ∧ ∀ us : List (Token Rat),
        Elided [] (twoSquares.tokens.map Token.symbol) (us.map Token.symbol) →
        ofTokens us = .ok twoSquares.tree)
    ∧ twoSquares.Starred [.num 2, .times, .name ['x'], .times, .opening, .name ['x'], .closing]
    ∧ Elided [] (twoSquares.tokens.map Token.symbol)
      [.num 2, .name ['x'], .opening, .name ['x'], .closing] := by
  have hk : twoSquares.Constant :=
    ⟨⟨trivial, trivial, ⟨⟨trivial, trivial⟩, trivial⟩, trivial⟩, trivial⟩
  have h : ofTokens twoSquares.tokens = .ok twoSquares.tree := by
    rw [ofTokens_of_depth_le (Sum.map_symbol_tokens _) hk (by decide), if_pos (by decide +kernel)]
  refine ⟨h, ofTokens_asterisks h, ?_, ?_⟩
  · exact ⟨_, [], rfl, ⟨[.num 2], _, rfl, rfl, [.name ['x']], _, .inr rfl, rfl,
      [.opening, .name ['x'], .closing], [], rfl,
      ⟨[.name ['x']], rfl, _, [], rfl, ⟨_, [], rfl, rfl, rfl⟩, rfl⟩, rfl⟩, rfl⟩
  · exact .cons _ (.cons _ (.drop rfl rfl (.cons _ (.cons _ (.cons _ .nil)))))

end CurveStudy.Grammar
