import Mathlib.Tactic.Ring
import CurveStudy.Proofs.Grammar.Derived

/-!
# Symbols have one derivation

Of two derivations with symbols behind them that cannot go on, the same list of symbols makes the
same derivation and leaves the same symbols behind it.

* `Sum.eq_of_append_eq`   this for a sum, and so on for the other lines;
* `ofTokens_eq_ok_iff_derivation`   the lists of tokens that have a tree, and that their
  derivation is the only one.
-/

namespace CurveStudy.Grammar
open CurveStudy.Expr
open Scalar (isFinite)

variable {α : Type}

theorem Callee.name_injective {f g : Callee} (h : f.name = g.name) : f = g := by
  have h' := congrArg Meaning.ofName h
  rw [ofName_name, ofName_name] at h'
  cases f <;> cases g <;> cases h' <;> rfl

theorem Callee.name_ne_var (f : Callee) : f.name ≠ ['x'] := by
  intro h
  have h' := congrArg Meaning.ofName h
  rw [ofName_name] at h'
  cases f <;> cases h'

/-- symbols that cannot go on are not those of an operand -/
theorem Power.append_ne_of_ends (p : Power α) {q : Symbol α → Bool} {σ τ : List (Symbol α)}
    (hq : ∀ s, startsOperand s → q s) (h : Ends q σ) : p.symbols ++ τ ≠ σ := by
  rintro rfl
  obtain ⟨s, τ', hp, hs⟩ := p.symbols_eq_cons
  rw [hp, List.cons_append] at h
  exact absurd (hq s hs) (Bool.eq_false_iff.1 (h s rfl))

/-- nor those behind an operator -/
theorem Power.append_ne_cons (p : Power α) {o : Symbol α} (ho : startsOperand o = false)
    {σ τ : List (Symbol α)} : p.symbols ++ τ ≠ o :: σ :=
  p.append_ne_of_ends (fun _ => id) (Ends.cons ho σ)

theorem extendsProduct_of_startsOperand (s : Symbol α) (h : startsOperand s) :
    extendsProduct s := by
  cases s <;> first | rfl | cases h

theorem Ends.ne_cons {q : Symbol α → Bool} {o : Symbol α} {σ τ : List (Symbol α)} (h : Ends q σ)
    (ho : q o) : σ ≠ o :: τ := by
  rintro rfl
  exact absurd ho (Bool.eq_false_iff.1 (h o rfl))

mutual
theorem Sum.eq_of_append_eq (d d' : Sum α) {σ σ' : List (Symbol α)}
    (h : d.symbols ++ σ = d'.symbols ++ σ') (hσ : Ends extendsSum σ) (hσ' : Ends extendsSum σ') :
    d = d' ∧ σ = σ' := by
  obtain ⟨p, ts⟩ := d
  obtain ⟨p', ts'⟩ := d'
  rw [Sum.symbols, Sum.symbols, List.append_assoc, List.append_assoc] at h
  obtain ⟨rfl, hr⟩ := p.eq_of_append_eq p' h (ts.ends hσ) (ts'.ends hσ')
  obtain ⟨rfl, hτ⟩ := ts.eq_of_append_eq ts' hr hσ hσ'
  exact ⟨rfl, hτ⟩
termination_by structural d

theorem Terms.eq_of_append_eq (d d' : Terms α) {σ σ' : List (Symbol α)}
    (h : d.symbols ++ σ = d'.symbols ++ σ') (hσ : Ends extendsSum σ) (hσ' : Ends extendsSum σ') :
    d = d' ∧ σ = σ' := by
  cases d with
  | nil =>
    cases d' with
    | nil => exact ⟨rfl, h⟩
    | plus p' ts' => exact absurd h (hσ.ne_cons rfl)
    | minus p' ts' => exact absurd h (hσ.ne_cons rfl)
  | plus p ts =>
    cases d' with
    | nil => exact absurd h.symm (hσ'.ne_cons rfl)
    | plus p' ts' =>
      have h : p.symbols ++ ts.symbols ++ σ = p'.symbols ++ ts'.symbols ++ σ' :=
        (List.cons.inj h).2
      rw [List.append_assoc, List.append_assoc] at h
      obtain ⟨rfl, hr⟩ := p.eq_of_append_eq p' h (ts.ends hσ) (ts'.ends hσ')
      obtain ⟨rfl, hτ⟩ := ts.eq_of_append_eq ts' hr hσ hσ'
      exact ⟨rfl, hτ⟩
    | minus p' ts' => cases (List.cons.inj h).1
  | minus p ts =>
    cases d' with
    | nil => exact absurd h.symm (hσ'.ne_cons rfl)
    | plus p' ts' => cases (List.cons.inj h).1
    | minus p' ts' =>
      have h : p.symbols ++ ts.symbols ++ σ = p'.symbols ++ ts'.symbols ++ σ' :=
        (List.cons.inj h).2
      rw [List.append_assoc, List.append_assoc] at h
      obtain ⟨rfl, hr⟩ := p.eq_of_append_eq p' h (ts.ends hσ) (ts'.ends hσ')
      obtain ⟨rfl, hτ⟩ := ts.eq_of_append_eq ts' hr hσ hσ'
      exact ⟨rfl, hτ⟩
termination_by structural d

theorem Product.eq_of_append_eq (d d' : Product α) {σ σ' : List (Symbol α)}
    (h : d.symbols ++ σ = d'.symbols ++ σ') (hσ : Ends extendsProduct σ)
    (hσ' : Ends extendsProduct σ') : d = d' ∧ σ = σ' := by
  obtain ⟨s, fs⟩ := d
  obtain ⟨s', fs'⟩ := d'
  rw [Product.symbols, Product.symbols, List.append_assoc, List.append_assoc] at h
  obtain ⟨rfl, hr⟩ := s.eq_of_append_eq s' h (fs.ends hσ) (fs'.ends hσ')
  obtain ⟨rfl, hτ⟩ := fs.eq_of_append_eq fs' hr hσ hσ'
  exact ⟨rfl, hτ⟩
termination_by structural d

theorem Factors.eq_of_append_eq (d d' : Factors α) {σ σ' : List (Symbol α)}
    (h : d.symbols ++ σ = d'.symbols ++ σ') (hσ : Ends extendsProduct σ)
    (hσ' : Ends extendsProduct σ') : d = d' ∧ σ = σ' := by
  cases d with
  | nil =>
    cases d' with
    | nil => exact ⟨rfl, h⟩
    | times s' fs' => exact absurd h (hσ.ne_cons rfl)
    | slash s' fs' => exact absurd h (hσ.ne_cons rfl)
    | next p' fs' =>
      rw [Factors.symbols, Factors.symbols, List.append_assoc] at h
      exact absurd h.symm (p'.append_ne_of_ends extendsProduct_of_startsOperand hσ)
  | times s fs =>
    cases d' with
    | nil => exact absurd h.symm (hσ'.ne_cons rfl)
    | times s' fs' =>
      have h : s.symbols ++ fs.symbols ++ σ = s'.symbols ++ fs'.symbols ++ σ' :=
        (List.cons.inj h).2
      rw [List.append_assoc, List.append_assoc] at h
      obtain ⟨rfl, hr⟩ := s.eq_of_append_eq s' h (fs.ends hσ) (fs'.ends hσ')
      obtain ⟨rfl, hτ⟩ := fs.eq_of_append_eq fs' hr hσ hσ'
      exact ⟨rfl, hτ⟩
    | slash s' fs' => cases (List.cons.inj h).1
    | next p' fs' =>
      rw [Factors.symbols, Factors.symbols, List.append_assoc p'.symbols] at h
      exact absurd h.symm (p'.append_ne_cons rfl)
  | slash s fs =>
    cases d' with
    | nil => exact absurd h.symm (hσ'.ne_cons rfl)
    | times s' fs' => cases (List.cons.inj h).1
    | slash s' fs' =>
      have h : s.symbols ++ fs.symbols ++ σ = s'.symbols ++ fs'.symbols ++ σ' :=
        (List.cons.inj h).2
      rw [List.append_assoc, List.append_assoc] at h
      obtain ⟨rfl, hr⟩ := s.eq_of_append_eq s' h (fs.ends hσ) (fs'.ends hσ')
      obtain ⟨rfl, hτ⟩ := fs.eq_of_append_eq fs' hr hσ hσ'
      exact ⟨rfl, hτ⟩
    | next p' fs' =>
      rw [Factors.symbols, Factors.symbols, List.append_assoc p'.symbols] at h
      exact absurd h.symm (p'.append_ne_cons rfl)
  | next p fs =>
    rw [Factors.symbols, List.append_assoc] at h
    cases d' with
    | nil => exact absurd h (p.append_ne_of_ends extendsProduct_of_startsOperand hσ')
    | times s' fs' => exact absurd h (p.append_ne_cons rfl)
    | slash s' fs' => exact absurd h (p.append_ne_cons rfl)
    | next p' fs' =>
      rw [Factors.symbols, List.append_assoc] at h
      obtain ⟨rfl, hr⟩ := p.eq_of_append_eq p' h (fs.ends hσ) (fs'.ends hσ')
      obtain ⟨rfl, hτ⟩ := fs.eq_of_append_eq fs' hr hσ hσ'
      exact ⟨rfl, hτ⟩
termination_by structural d

theorem Signed.eq_of_append_eq (d d' : Signed α) {σ σ' : List (Symbol α)}
    (h : d.symbols ++ σ = d'.symbols ++ σ') (hσ : Ends extendsPower σ)
    (hσ' : Ends extendsPower σ') : d = d' ∧ σ = σ' := by
  cases d with
  | plus p =>
    cases d' with
    | plus p' =>
      obtain ⟨rfl, hτ⟩ := p.eq_of_append_eq p' h hσ hσ'
      exact ⟨rfl, hτ⟩
    | minus p' => exact absurd h (p.append_ne_cons rfl)
  | minus p =>
    cases d' with
    | plus p' => exact absurd h.symm (p'.append_ne_cons rfl)
    | minus p' =>
      obtain ⟨rfl, hτ⟩ := p.eq_of_append_eq p' (List.cons.inj h).2 hσ hσ'
      exact ⟨rfl, hτ⟩
termination_by structural d

theorem Power.eq_of_append_eq (d d' : Power α) {σ σ' : List (Symbol α)}
    (h : d.symbols ++ σ = d'.symbols ++ σ') (hσ : Ends extendsPower σ)
    (hσ' : Ends extendsPower σ') : d = d' ∧ σ = σ' := by
  cases d with
  | atom a =>
    cases d' with
    | atom a' =>
      obtain ⟨rfl, hτ⟩ := a.eq_of_append_eq a' h
      exact ⟨rfl, hτ⟩
    | raised a' n' =>
      rw [Power.symbols, Power.symbols, List.append_assoc] at h
      exact absurd (a.eq_of_append_eq a' h).2 (hσ.ne_cons rfl)
  | raised a n =>
    rw [Power.symbols, List.append_assoc] at h
    cases d' with
    | atom a' => exact absurd (a.eq_of_append_eq a' h).2.symm (hσ'.ne_cons rfl)
    | raised a' n' =>
      rw [Power.symbols, List.append_assoc] at h
      obtain ⟨rfl, hr⟩ := a.eq_of_append_eq a' h
      obtain ⟨rfl, hτ⟩ := n.eq_of_append_eq n' (List.cons.inj hr).2 hσ hσ'
      exact ⟨rfl, hτ⟩
termination_by structural d

theorem Atom.eq_of_append_eq (d d' : Atom α) {σ σ' : List (Symbol α)}
    (h : d.symbols ++ σ = d'.symbols ++ σ') : d = d' ∧ σ = σ' := by
  cases d with
  | num v =>
    cases d' with
    | num v' =>
      obtain ⟨hs, hτ⟩ := List.cons.inj h
      exact ⟨congrArg Atom.num (Symbol.num.inj hs), hτ⟩
    | _ => cases (List.cons.inj h).1
  | pi =>
    cases d' with
    | pi => exact ⟨rfl, (List.cons.inj h).2⟩
    | _ => cases (List.cons.inj h).1
  | var =>
    cases d' with
    | var => exact ⟨rfl, (List.cons.inj h).2⟩
    | call f' s' => exact absurd (Symbol.name.inj (List.cons.inj h).1).symm f'.name_ne_var
    | _ => cases (List.cons.inj h).1
  | call f s =>
    cases d' with
    | var => exact absurd (Symbol.name.inj (List.cons.inj h).1) f.name_ne_var
    | call f' s' =>
      obtain rfl := Callee.name_injective (Symbol.name.inj (List.cons.inj h).1)
      have h : s.symbols ++ [.closing] ++ σ = s'.symbols ++ [.closing] ++ σ' :=
        (List.cons.inj (List.cons.inj h).2).2
      rw [List.append_assoc, List.append_assoc] at h
      obtain ⟨rfl, hr⟩ := s.eq_of_append_eq s' h (Ends.cons rfl σ) (Ends.cons rfl σ')
      exact ⟨rfl, (List.cons.inj hr).2⟩
    | _ => cases (List.cons.inj h).1
  | brackets s =>
    cases d' with
    | brackets s' =>
      have h : s.symbols ++ [.closing] ++ σ = s'.symbols ++ [.closing] ++ σ' :=
        (List.cons.inj h).2
      rw [List.append_assoc, List.append_assoc] at h
      obtain ⟨rfl, hr⟩ := s.eq_of_append_eq s' h (Ends.cons rfl σ) (Ends.cons rfl σ')
      exact ⟨rfl, (List.cons.inj hr).2⟩
    | _ => cases (List.cons.inj h).1
termination_by structural d
end

theorem Sum.symbols_injective {d d' : Sum α} (h : d.symbols = d'.symbols) : d = d' :=
  (d.eq_of_append_eq d' (congrArg (· ++ []) h) (Ends.nil _) (Ends.nil _)).1

section
variable [Scalar α] [Literal α]

/-- a list of tokens has a tree exactly if it has a derivation that keeps to the levels, with
finite exponents and a finite tree, which is this tree; and there is no other derivation of it -/
theorem ofTokens_eq_ok_iff_derivation (ts : List (Token α)) (e : Expr α) :
    (ofTokens ts = .ok e ↔ ts ≠ [] ∧ ∃ d : Sum α, d.symbols = ts.map Token.symbol
      ∧ d.depth ≤ maxDepth ∧ d.Constant ∧ d.tree = e ∧ e.isFinite)
    ∧ ∀ d d' : Sum α, d.symbols = ts.map Token.symbol → d'.symbols = ts.map Token.symbol →
      d = d' := by
  refine ⟨⟨ofTokens_derived, ?_⟩, fun d d' h h' => Sum.symbols_injective (h.trans h'.symm)⟩
  rintro ⟨-, d, hs, hd, hk, rfl, hf⟩
  rw [ofTokens_of_depth_le hs.symm hk hd, if_pos hf]

end

end CurveStudy.Grammar
