import Mathlib.Tactic.Ring
import CurveStudy.Proofs.Grammar.Reading

/-!
# What is read has a derivation

If a function of `CurveStudy.Expr.Read` gives a tree, the symbols that it has taken away are those
of a derivation with this tree, whose operands keep to the levels and whose exponents are finite
numbers.

* `Spans`               the symbols between two cursors, and the levels used there;
* `readSum_derived`     the derivation of a sum that has been read, and so on for the other lines;
* `ofTokens_derived`   the derivation of a list of tokens that has a tree.
-/

namespace CurveStudy.Grammar
open CurveStudy.Expr
open Scalar (isFinite)

variable {α : Type}

theorem exists_of_bind_eq_ok {ε β γ : Type} {r : Except ε β} {f : β → Except ε γ} {b : γ}
    (h : r >>= f = .ok b) : ∃ a, r = .ok a ∧ f a = .ok b := by
  cases r with
  | error e => cases h
  | ok a => exact ⟨a, rfl, h⟩

/-- from one cursor to the other, at the level `l`, there are the symbols `σ`; no level on the way
is above `top` -/
structure Spans (top l : Nat) (σ : List (Symbol α)) (c d : Cursor α) : Prop where
  symbols_eq : c.symbols = σ ++ d.symbols
  depth_eq : d.depth = l
  le : top ≤ maxDepth

namespace Spans
variable {top top' l l' : Nat} {σ τ : List (Symbol α)} {c d e : Cursor α}

theorem refl (h : c.depth ≤ maxDepth) : Spans c.depth c.depth [] c c := ⟨rfl, rfl, h⟩

theorem cast (h : Spans top l σ c d) (ht : top = top') : Spans top' l σ c d := ht ▸ h

theorem append (h : Spans top l σ c d) (h' : Spans top' l' τ d e) :
    Spans (max top top') l' (σ ++ τ) c e :=
  ⟨by rw [h.symbols_eq, h'.symbols_eq, List.append_assoc], h'.depth_eq,
    Nat.max_le.2 ⟨h.le, h'.le⟩⟩

theorem of_symbols_eq (c' : Cursor α) (h : Spans top l σ c d) (hc : c.symbols = c'.symbols) :
    Spans top l σ c' d := ⟨hc ▸ h.symbols_eq, h.depth_eq, h.le⟩

/-- one symbol more in front -/
theorem cons {s : Symbol α} (hs : c.symbols.head? = some s) (h : Spans top l σ c.skip d) :
    Spans top l (s :: σ) c d := by
  refine ⟨?_, h.depth_eq, h.le⟩
  obtain ⟨τ, hτ⟩ := List.head?_eq_some_iff.1 hs
  have h' := h.symbols_eq
  rw [Cursor.symbols_skip, hτ, List.tail_cons] at h'
  rw [hτ, h', List.cons_append]

/-- the last symbol and a level, both given back -/
theorem close (h : Spans top (l + 1) σ c d) (hs : d.symbols.head? = some .closing) :
    Spans top l (σ ++ [.closing]) c (d.skip.leave 1) := by
  refine ⟨?_, ?_, h.le⟩
  · obtain ⟨τ, hτ⟩ := List.head?_eq_some_iff.1 hs
    show _ = _ ++ d.skip.symbols
    rw [h.symbols_eq, Cursor.symbols_skip, hτ, List.tail_cons, List.append_assoc]
    rfl
  · show d.depth - 1 = l
    rw [h.depth_eq, Nat.add_sub_cancel]

theorem leave (h : Spans top (l + 1) σ c d) : Spans top l σ c (d.leave 1) := by
  refine ⟨h.symbols_eq, ?_, h.le⟩
  show d.depth - 1 = l
  rw [h.depth_eq, Nat.add_sub_cancel]

end Spans

/-! ## one step of a reader, backwards -/

theorem eq_trig_name {w : Text} {k : Trig} (h : Meaning.ofName w = .trig k) : w = k.name := by
  unfold Meaning.ofName at h
  split at h
  · cases h
  · split at h
    · rename_i j hj
      cases h
      exact (Trig.name_of_ofName? hj).symm
    · split at h
      · cases h
      · split at h <;> cases h

theorem eq_sqrt_name {w : Text} (h : Meaning.ofName w = .sqrt) : w = Callee.sqrt.name := by
  unfold Meaning.ofName at h
  split at h
  · cases h
  · split at h
    · cases h
    · split at h
      · rename_i hw
        exact hw
      · split at h <;> cases h

theorem eq_var_name {w : Text} (h : Meaning.ofName w = .var) : w = ['x'] := by
  unfold Meaning.ofName at h
  split at h
  · rename_i hw
    exact hw
  · split at h
    · cases h
    · split at h
      · cases h
      · split at h <;> cases h

theorem joint?_eq_some {c d : Cursor α} {j : Joint} (h : c.joint? = some (j, d)) :
    (c.symbols.head? = some .times ∧ j = .product ∧ d = c.skip) ∨
      (c.symbols.head? = some .slash ∧ j = .quotient ∧ d = c.skip) ∨
      (∃ s, c.symbols.head? = some s ∧ startsOperand s ∧ j = .product ∧ d = c) := by
  rw [Cursor.joint?, Cursor.look_eq_head?] at h
  split at h
  · rename_i hs
    cases h
    exact .inl ⟨hs, rfl, rfl⟩
  · rename_i hs
    cases h
    exact .inr (.inl ⟨hs, rfl, rfl⟩)
  all_goals first
    | cases h
      rename_i hs
      exact .inr (.inr ⟨_, hs, rfl, rfl, rfl⟩)
    | cases h

theorem exponentValue_eq_ok [Scalar α] {pos : Nat} {b : Bool} {e : Expr α} {v : α}
    (h : exponentValue pos b e = .ok v) :
    e.hasVar = false ∧ v = (if b then -e.eval 0 else e.eval 0) ∧ isFinite v := by
  by_cases hv : e.hasVar
  · rw [exponentValue, if_pos hv] at h
    cases h
  · rw [exponentValue, if_neg hv] at h
    by_cases hf : isFinite (if b then -e.eval 0 else e.eval 0)
    · rw [if_pos hf] at h
      cases h
      exact ⟨Bool.eq_false_iff.2 hv, rfl, hf⟩
    · rw [if_neg hf] at h
      cases h

theorem close_eq_ok [Literal α] {pos : Nat} {c d : Cursor α} (h : c.close pos = .ok d) :
    c.symbols.head? = some .closing ∧ d = c.skip := by
  unfold Cursor.close at h
  split at h
  · cases h
  · rename_i t ts hr
    split at h
    · rename_i ht
      cases h
      refine ⟨?_, rfl⟩
      rw [Cursor.symbols, hr, List.map_cons, List.head?_cons, ht]
    · cases h

/-! ## the derivation of what has been read -/

section
variable [Scalar α] [Literal α]

mutual
theorem readSum_derived {n : Nat} {c c' : Cursor α} {e : Expr α} (hl : c.depth ≤ maxDepth)
    (h : readSum n c = .ok (e, c')) :
    ∃ d : Sum α, Spans (c.depth + d.depth) c.depth d.symbols c c' ∧ d.tree = e ∧ d.Constant := by
  match n, h with
  | 0, h => cases h
  | n + 1, h =>
    rw [readSum] at h
    obtain ⟨⟨e1, c1⟩, h1, h⟩ := exists_of_bind_eq_ok h
    obtain ⟨⟨es, c2⟩, h2, h⟩ := exists_of_bind_eq_ok h
    cases h
    obtain ⟨p, hp, rfl, hkp⟩ := readProduct_derived hl h1
    rw [← hp.depth_eq] at hl
    obtain ⟨ts, hts, rfl, hkt⟩ := readTerms_derived hl h2
    rw [hp.depth_eq] at hts
    exact ⟨.mk p ts, (hp.append hts).cast (Nat.add_max_add_left ..), rfl, hkp, hkt⟩
termination_by structural n

theorem readTerms_derived {n : Nat} {c c' : Cursor α} {es : List (Expr α)}
    (hl : c.depth ≤ maxDepth) (h : readTerms n c = .ok (es, c')) :
    ∃ d : Terms α, Spans (c.depth + d.depth) c.depth d.symbols c c' ∧ d.trees = es
      ∧ d.Constant := by
  match n, h with
  | 0, h => cases h
  | n + 1, h =>
    rw [readTerms, Cursor.look_eq_head?] at h
    split at h
    · rename_i hs
      obtain ⟨⟨e1, c1⟩, h1, h⟩ := exists_of_bind_eq_ok h
      obtain ⟨⟨es, c2⟩, h2, h⟩ := exists_of_bind_eq_ok h
      cases h
      obtain ⟨p, hp, rfl, hkp⟩ := readProduct_derived (c := c.skip) hl h1
      have hl1 : c1.depth ≤ maxDepth := hp.depth_eq ▸ hl
      obtain ⟨ts, hts, rfl, hkt⟩ := readTerms_derived hl1 h2
      rw [hp.depth_eq] at hts
      exact ⟨.plus p ts, ((hp.append hts).cons hs).cast (Nat.add_max_add_left ..), rfl, hkp, hkt⟩
    · rename_i hs
      obtain ⟨⟨e1, c1⟩, h1, h⟩ := exists_of_bind_eq_ok h
      obtain ⟨⟨es, c2⟩, h2, h⟩ := exists_of_bind_eq_ok h
      cases h
      obtain ⟨p, hp, rfl, hkp⟩ := readProduct_derived (c := c.skip) hl h1
      have hl1 : c1.depth ≤ maxDepth := hp.depth_eq ▸ hl
      obtain ⟨ts, hts, rfl, hkt⟩ := readTerms_derived hl1 h2
      rw [hp.depth_eq] at hts
      exact ⟨.minus p ts, ((hp.append hts).cons hs).cast (Nat.add_max_add_left ..), rfl, hkp, hkt⟩
    · cases h
      exact ⟨.nil, Spans.refl hl, rfl, trivial⟩
termination_by structural n

theorem readProduct_derived {n : Nat} {c c' : Cursor α} {e : Expr α} (hl : c.depth ≤ maxDepth)
    (h : readProduct n c = .ok (e, c')) :
    ∃ d : Product α, Spans (c.depth + d.depth) c.depth d.symbols c c' ∧ d.tree = e
      ∧ d.Constant := by
  match n, h with
  | 0, h => cases h
  | n + 1, h =>
    rw [readProduct] at h
    obtain ⟨⟨e1, c1⟩, h1, h⟩ := exists_of_bind_eq_ok h
    obtain ⟨s, hs, rfl, hks⟩ := readSigned_derived hl h1
    obtain ⟨fs, hfs, rfl, hkf⟩ := readFactors_derived (k := 0) hs.depth_eq hl h
    exact ⟨.mk s fs, (hs.append hfs).cast (Nat.add_max_add_left ..), rfl, hks, hkf⟩
termination_by structural n

theorem readFactors_derived {n k l : Nat} {c c' : Cursor α} {e e' : Expr α}
    (hc : c.depth = l + k) (hl : l + k ≤ maxDepth) (h : readFactors n k e c = .ok (e', c')) :
    ∃ d : Factors α, Spans (l + d.depth (k + 1)) l d.symbols c c' ∧ d.tree e = e'
      ∧ d.Constant := by
  match n, h with
  | 0, h => cases h
  | n + 1, h =>
    rw [readFactors] at h
    split at h
    · rename_i j d hj
      obtain ⟨d1, h1, h⟩ := exists_of_bind_eq_ok h
      obtain ⟨⟨f, c1⟩, h2, h3⟩ := exists_of_bind_eq_ok h
      obtain ⟨hlt, rfl⟩ := Cursor.enter_eq_ok_iff.1 h1
      rcases joint?_eq_some hj with ⟨hs, rfl, rfl⟩ | ⟨hs, rfl, rfl⟩ | ⟨t, hs, ht, rfl, rfl⟩
      · have hlt' : l + (k + 1) ≤ maxDepth := by rw [← Nat.add_assoc, ← hc]; exact hlt
        obtain ⟨s, hss, rfl, hks⟩ :=
          readSigned_derived (c := ⟨c.skip.rest, c.depth + 1⟩) hlt h2
        have hss' := hss.of_symbols_eq c.skip rfl
        have hc1 : c1.depth = l + (k + 1) := hss'.depth_eq.trans (congrArg (· + 1) hc)
        obtain ⟨fs, hfs, rfl, hkf⟩ := readFactors_derived hc1 hlt' h3
        refine ⟨.times s fs, ((hss'.append hfs).cons hs).cast ?_, rfl, hks, hkf⟩
        show max (c.depth + 1 + s.depth) _ = l + max _ _
        omega
      · have hlt' : l + (k + 1) ≤ maxDepth := by rw [← Nat.add_assoc, ← hc]; exact hlt
        obtain ⟨s, hss, rfl, hks⟩ :=
          readSigned_derived (c := ⟨c.skip.rest, c.depth + 1⟩) hlt h2
        have hss' := hss.of_symbols_eq c.skip rfl
        have hc1 : c1.depth = l + (k + 1) := hss'.depth_eq.trans (congrArg (· + 1) hc)
        obtain ⟨fs, hfs, rfl, hkf⟩ := readFactors_derived hc1 hlt' h3
        refine ⟨.slash s fs, ((hss'.append hfs).cons hs).cast ?_, rfl, hks, hkf⟩
        show max (c.depth + 1 + s.depth) _ = l + max _ _
        omega
      · match n, h2, h3 with
        | 0, h2, _ => cases h2
        | n + 1, h2, h3 =>
          obtain ⟨τ, hτ⟩ := List.head?_eq_some_iff.1 hs
          rw [readSigned_operand (c := ⟨d.rest, d.depth + 1⟩) ht hτ] at h2
          obtain ⟨p, hp, rfl, hkp⟩ := readPower_derived (c := ⟨d.rest, d.depth + 1⟩) hlt h2
          have hp' := hp.of_symbols_eq d rfl
          have hc1 : c1.depth = l + (k + 1) := hp'.depth_eq.trans (congrArg (· + 1) hc)
          have hlt' : l + (k + 1) ≤ maxDepth := by rw [← Nat.add_assoc, ← hc]; exact hlt
          obtain ⟨fs, hfs, rfl, hkf⟩ := readFactors_derived hc1 hlt' h3
          refine ⟨.next p fs, (hp'.append hfs).cast ?_, rfl, hkp, hkf⟩
          show max (d.depth + 1 + p.depth) _ = l + max _ _
          omega
    · rename_i hj
      cases h
      have hl' : (c.leave k).depth = l := by
        show c.depth - k = l
        omega
      exact ⟨.nil, ⟨rfl, hl', by show l + 0 ≤ _; omega⟩, rfl, trivial⟩
termination_by structural n

theorem readSigned_derived {n : Nat} {c c' : Cursor α} {e : Expr α} (hl : c.depth ≤ maxDepth)
    (h : readSigned n c = .ok (e, c')) :
    ∃ d : Signed α, Spans (c.depth + d.depth) c.depth d.symbols c c' ∧ d.tree = e
      ∧ d.Constant := by
  match n, h with
  | 0, h => cases h
  | n + 1, h =>
    rw [readSigned, Cursor.look_eq_head?] at h
    split at h
    · rename_i hs
      obtain ⟨⟨e1, c1⟩, h1, h⟩ := exists_of_bind_eq_ok h
      cases h
      obtain ⟨p, hp, rfl, hkp⟩ := readPower_derived (c := c.skip) hl h1
      exact ⟨.minus p, hp.cons hs, rfl, hkp⟩
    · obtain ⟨p, hp, rfl, hkp⟩ := readPower_derived hl h
      exact ⟨.plus p, hp, rfl, hkp⟩
termination_by structural n

theorem readPower_derived {n : Nat} {c c' : Cursor α} {e : Expr α} (hl : c.depth ≤ maxDepth)
    (h : readPower n c = .ok (e, c')) :
    ∃ d : Power α, Spans (c.depth + d.depth) c.depth d.symbols c c' ∧ d.tree = e
      ∧ d.Constant := by
  match n, h with
  | 0, h => cases h
  | n + 1, h =>
    rw [readPower] at h
    obtain ⟨⟨b, c1⟩, h1, h⟩ := exists_of_bind_eq_ok h
    obtain ⟨a, ha, rfl, hka⟩ := readAtom_derived hl h1
    dsimp only at h
    rw [Cursor.look_eq_head?] at h
    split at h
    · rename_i hs
      obtain ⟨⟨v, c2⟩, h2, h⟩ := exists_of_bind_eq_ok h
      cases h
      obtain ⟨s, hss, rfl, hks⟩ := readExponent_derived h2
      have hss' := hss.cons hs
      rw [show c1.skip.depth = c.depth from ha.depth_eq] at hss'
      exact ⟨.raised a s, (ha.append hss').cast (Nat.add_max_add_left ..), rfl, hka, hks⟩
    · cases h
      exact ⟨.atom a, ha, rfl, hka⟩
termination_by structural n

theorem readExponent_derived {n : Nat} {c c' : Cursor α} {v : α}
    (h : readExponent n c = .ok (v, c')) :
    ∃ d : Signed α, Spans (c.depth + (1 + d.depth)) c.depth d.symbols c c' ∧ d.number = v
      ∧ d.Constant ∧ d.power.tree.hasVar = false ∧ isFinite d.number := by
  match n, h with
  | 0, h => cases h
  | n + 1, h =>
    rw [readExponent] at h
    obtain ⟨d, h1, h⟩ := exists_of_bind_eq_ok h
    obtain ⟨hlt, rfl⟩ := Cursor.enter_eq_ok_iff.1 h1
    dsimp only at h
    rw [Cursor.look_eq_head?] at h
    split at h
    · rename_i hs
      obtain ⟨⟨e1, c1⟩, h1, h⟩ := exists_of_bind_eq_ok h
      obtain ⟨v, h2, h⟩ := exists_of_bind_eq_ok h
      cases h
      obtain ⟨p, hp, rfl, hkp⟩ := readPower_derived (c := Cursor.skip ⟨c.rest, c.depth + 1⟩) hlt h1
      obtain ⟨hv, rfl, hf⟩ := exponentValue_eq_ok h2
      have hp' := (hp.of_symbols_eq c.skip rfl).leave.cons (c := c) hs
      exact ⟨.minus p, hp'.cast (Nat.add_assoc c.depth 1 p.depth), rfl, hkp, hv, hf⟩
    · obtain ⟨⟨e1, c1⟩, h1, h⟩ := exists_of_bind_eq_ok h
      obtain ⟨v, h2, h⟩ := exists_of_bind_eq_ok h
      cases h
      obtain ⟨p, hp, rfl, hkp⟩ := readPower_derived (c := ⟨c.rest, c.depth + 1⟩) hlt h1
      obtain ⟨hv, rfl, hf⟩ := exponentValue_eq_ok h2
      have hp' := (hp.of_symbols_eq c rfl).leave
      exact ⟨.plus p, hp'.cast (Nat.add_assoc c.depth 1 p.depth), rfl, hkp, hv, hf⟩
termination_by structural n

theorem readAtom_derived {n : Nat} {c c' : Cursor α} {e : Expr α} (hl : c.depth ≤ maxDepth)
    (h : readAtom n c = .ok (e, c')) :
    ∃ d : Atom α, Spans (c.depth + d.depth) c.depth d.symbols c c' ∧ d.tree = e
      ∧ d.Constant := by
  match n, h with
  | 0, h => cases h
  | n + 1, h =>
    rw [readAtom] at h
    split at h
    · cases h
    · rename_i t ts hr
      have hs : c.symbols.head? = some t.symbol := by rw [Cursor.symbols, hr]; rfl
      split at h
      · rename_i v ht
        cases h
        exact ⟨.num v, (Spans.refl (c := c.skip) hl).cons (ht ▸ hs), rfl, trivial⟩
      · rename_i ht
        cases h
        exact ⟨.pi, (Spans.refl (c := c.skip) hl).cons (ht ▸ hs), rfl, trivial⟩
      · rename_i ht
        obtain ⟨s, hss, rfl, hks⟩ := readBrackets_derived (ht ▸ hs) h
        exact ⟨.brackets s, hss, rfl, hks⟩
      · cases h
      · rename_i w ht
        split at h
        · rename_i hw
          cases h
          rw [ht, eq_var_name hw] at hs
          exact ⟨.var, (Spans.refl (c := c.skip) hl).cons hs, rfl, trivial⟩
        · rename_i k hw
          obtain ⟨⟨a, c1⟩, h1, h⟩ := exists_of_bind_eq_ok h
          cases h
          obtain ⟨s, hss, rfl, hks⟩ := readArgument_derived h1
          rw [ht, eq_trig_name hw] at hs
          exact ⟨.call (.trig k) s, hss.cons hs, rfl, hks⟩
        · rename_i hw
          obtain ⟨⟨a, c1⟩, h1, h⟩ := exists_of_bind_eq_ok h
          cases h
          obtain ⟨s, hss, rfl, hks⟩ := readArgument_derived h1
          rw [ht, eq_sqrt_name hw] at hs
          exact ⟨.call .sqrt s, hss.cons hs, rfl, hks⟩
        · cases h
        · cases h
      · cases h
termination_by structural n

theorem readArgument_derived {n : Nat} {w : Text} {c c' : Cursor α} {e : Expr α}
    (h : readArgument n w c = .ok (e, c')) :
    ∃ d : Sum α, Spans (c.depth + (1 + d.depth)) c.depth (.opening :: (d.symbols ++ [.closing]))
      c.skip c' ∧ d.tree = e ∧ d.Constant := by
  match n, h with
  | 0, h => cases h
  | n + 1, h =>
    rw [readArgument, Cursor.look_eq_head?] at h
    split at h
    · rename_i hs
      exact readBrackets_derived hs h
    · cases h
termination_by structural n

theorem readBrackets_derived {n : Nat} {c c' : Cursor α} {e : Expr α}
    (hs : c.symbols.head? = some .opening) (h : readBrackets n c = .ok (e, c')) :
    ∃ d : Sum α, Spans (c.depth + (1 + d.depth)) c.depth (.opening :: (d.symbols ++ [.closing]))
      c c' ∧ d.tree = e ∧ d.Constant := by
  match n, h with
  | 0, h => cases h
  | n + 1, h =>
    rw [readBrackets] at h
    obtain ⟨d, h1, h⟩ := exists_of_bind_eq_ok h
    obtain ⟨hlt, rfl⟩ := Cursor.enter_eq_ok_iff.1 h1
    obtain ⟨⟨e1, c1⟩, h2, h⟩ := exists_of_bind_eq_ok h
    obtain ⟨c2, h3, h⟩ := exists_of_bind_eq_ok h
    cases h
    obtain ⟨hcl, rfl⟩ := close_eq_ok h3
    obtain ⟨s, hss, rfl, hks⟩ := readSum_derived (c := ⟨c.skip.rest, c.depth + 1⟩) hlt h2
    have hss' := (hss.of_symbols_eq c.skip rfl).close hcl
    exact ⟨s, (hss'.cons hs).cast (Nat.add_assoc c.depth 1 s.depth), rfl, hks⟩
termination_by structural n
end

theorem ofTokens_derived {ts : List (Token α)} {e : Expr α} (h : ofTokens ts = .ok e) :
    ts ≠ [] ∧ ∃ d : Sum α, d.symbols = ts.map Token.symbol ∧ d.depth ≤ maxDepth ∧ d.Constant
      ∧ d.tree = e ∧ e.isFinite := by
  rw [ofTokens] at h
  by_cases hts : ts.isEmpty
  · rw [if_pos hts] at h
    cases h
  · rw [if_neg hts] at h
    obtain ⟨⟨e', c⟩, h1, h⟩ := exists_of_bind_eq_ok h
    obtain ⟨d, hd, rfl, hk⟩ := readSum_derived (Nat.zero_le _) h1
    dsimp only at h
    split at h
    · cases h
    · rename_i hc
      by_cases hf : d.tree.isFinite
      · rw [if_pos hf] at h
        cases h
        have hs : ts.map Token.symbol = d.symbols ++ c.rest.map Token.symbol := hd.symbols_eq
        rw [hc, List.map_nil, List.append_nil] at hs
        have hl := hd.le
        rw [Nat.zero_add] at hl
        exact ⟨fun h' => hts (List.isEmpty_iff.2 h'), d, hs.symm, hl, hk, rfl, hf⟩
      · rw [if_neg hf] at h
        cases h

end

end CurveStudy.Grammar
