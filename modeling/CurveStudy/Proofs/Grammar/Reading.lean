import Mathlib.Tactic.Ring
import CurveStudy.Proofs.Grammar.Basic

/-!
# Reading a derivation

What the functions of `CurveStudy.Expr.Read` do on the symbols of a derivation.  If the symbols
behind it cannot go on with it, they stop exactly behind it with its tree; if one of its operands
stands above the greatest level, they refuse it for its depth.  There is no third case.

* `Cursor.symbols`   the symbols that are left, all that a cursor is for the grammar;
* `Ends`             the symbols that follow do not go on with what is read;
* `Reads`            the two cases, and how they compose;
* `readSum_reads`    the symbols of a sum, and so on for the other lines;
* `ofTokens_of_depth_le`, `ofTokens_of_lt_depth`   a list of tokens with the symbols of a
  derivation.
-/

namespace CurveStudy
variable {α : Type}

namespace Cursor

/-- the symbols that are left -/
def symbols (c : Cursor α) : List (Symbol α) := c.rest.map Token.symbol

theorem look_eq_head? (c : Cursor α) : c.look = c.symbols.head? := List.head?_map.symm

@[simp] theorem symbols_skip (c : Cursor α) : c.skip.symbols = c.symbols.tail := List.map_tail

theorem rest_of_symbols {c : Cursor α} {s : Symbol α} {σ : List (Symbol α)}
    (h : c.symbols = s :: σ) : ∃ t ts, c.rest = t :: ts ∧ t.symbol = s ∧ c.skip.symbols = σ := by
  obtain ⟨t, ts, hr, ht, -⟩ := List.map_eq_cons_iff.1 h
  exact ⟨t, ts, hr, ht, by simp [h]⟩

theorem close_closing [Literal α] {c : Cursor α} {pos : Nat} {σ : List (Symbol α)}
    (h : c.symbols = .closing :: σ) : c.close pos = .ok c.skip := by
  obtain ⟨t, ts, hr, ht, -⟩ := rest_of_symbols h
  rw [close, hr]
  dsimp only
  rw [ht]

end Cursor

namespace Grammar
open CurveStudy.Expr
open Scalar (isFinite)

/-! ## what follows -/

/-- the symbol starts an operand without a sign -/
def startsOperand : Symbol α → Bool
  | .num _ | .name _ | .pi | .opening => true
  | _ => false

def extendsPower : Symbol α → Bool
  | .caret => true
  | _ => false

def extendsProduct : Symbol α → Bool
  | .times | .slash => true
  | s => startsOperand s || extendsPower s

def extendsSum : Symbol α → Bool
  | .plus | .minus => true
  | s => extendsProduct s

/-- the first of the symbols, if there is one, is not one that goes on -/
def Ends (extends? : Symbol α → Bool) (σ : List (Symbol α)) : Prop :=
  ∀ s ∈ σ.head?, extends? s = false

theorem Ends.nil (p : Symbol α → Bool) : Ends p [] := nofun

theorem Ends.cons {p : Symbol α → Bool} {s : Symbol α} (h : p s = false) (σ : List (Symbol α)) :
    Ends p (s :: σ) := by
  rintro t ⟨⟩
  exact h

theorem Ends.product {σ : List (Symbol α)} (h : Ends extendsSum σ) : Ends extendsProduct σ := by
  intro s hs
  have h' := h s hs
  cases s <;> first | rfl | cases h'

theorem Ends.power {σ : List (Symbol α)} (h : Ends extendsProduct σ) : Ends extendsPower σ := by
  intro s hs
  have h' := h s hs
  cases s <;> first | rfl | cases h'

/-! ## the two cases -/

/-- a part whose operands go up to the level `top` has been read: the result, with the symbols `σ`
left and at the level `l`, or a refusal if the limit is below `top` -/
structure Reads {β : Type} (top l : Nat) (b : β) (σ : List (Symbol α))
    (r : Except Fault (β × Cursor α)) : Prop where
  ok : top ≤ maxDepth → ∃ c : Cursor α, c.symbols = σ ∧ c.depth = l ∧ r = .ok (b, c)
  tooDeep : maxDepth < top → ∃ pos, r = .error (.tooDeep pos)

namespace Reads
variable {β γ : Type} {top top' l l' : Nat} {b : β} {b' : γ} {σ σ' : List (Symbol α)}
  {r : Except Fault (β × Cursor α)}

theorem cast (h : Reads top l b σ r) (ht : top = top') : Reads top' l b σ r := ht ▸ h

theorem pure {c : Cursor α} (h : l ≤ maxDepth) (hc : c.symbols = σ) (hl : c.depth = l) (b : β) :
    Reads l l b σ (.ok (b, c)) :=
  ⟨fun _ => ⟨c, hc, hl, rfl⟩, fun h' => absurd h (Nat.not_le.2 h')⟩

theorem bind {f : β × Cursor α → Except Fault (γ × Cursor α)} (h : Reads top l b σ r)
    (hf : ∀ c, c.symbols = σ → c.depth = l → Reads top' l' b' σ' (f (b, c))) :
    Reads (max top top') l' b' σ' (r >>= f) := by
  constructor
  · intro ht
    obtain ⟨c, hc, hl, rfl⟩ := h.ok (by omega)
    exact (hf c hc hl).ok (by omega)
  · intro ht
    by_cases h1 : top ≤ maxDepth
    · obtain ⟨c, hc, hl, rfl⟩ := h.ok h1
      exact (hf c hc hl).tooDeep (by omega)
    · obtain ⟨pos, rfl⟩ := h.tooDeep (by omega)
      exact ⟨pos, rfl⟩

/-- the last step opens no level -/
theorem map {f : β × Cursor α → Except Fault (γ × Cursor α)} (h : Reads top l b σ r)
    (hf : ∀ c, c.symbols = σ → c.depth = l →
      ∃ d : Cursor α, d.symbols = σ' ∧ d.depth = l' ∧ f (b, c) = .ok (b', d)) :
    Reads top l' b' σ' (r >>= f) := by
  constructor
  · intro ht
    obtain ⟨c, hc, hl, rfl⟩ := h.ok ht
    exact hf c hc hl
  · intro ht
    obtain ⟨pos, rfl⟩ := h.tooDeep ht
    exact ⟨pos, rfl⟩

theorem enter {c : Cursor α} {pos : Nat} {f : Cursor α → Except Fault (β × Cursor α)}
    (ht : c.depth < top)
    (hf : c.depth < maxDepth → Reads top l b σ (f { c with depth := c.depth + 1 })) :
    Reads top l b σ (c.enter pos >>= f) := by
  by_cases h : c.depth < maxDepth
  · rw [Cursor.enter_eq_ok_iff.2 ⟨h, rfl⟩]
    exact hf h
  · have he : c.enter pos = .error (.tooDeep pos) := if_neg h
    rw [he]
    exact ⟨fun h' => absurd (Nat.lt_of_lt_of_le ht h') h, fun _ => ⟨pos, rfl⟩⟩

end Reads

/-! ## names -/

@[simp] theorem ofName_name (f : Callee) :
    Meaning.ofName f.name = match f with | .trig k => .trig k | .sqrt => .sqrt := by
  cases f with
  | sqrt => decide
  | trig k => cases k <;> decide

/-! ## one step of a reader -/

section
variable {n k : Nat} {c : Cursor α} {σ : List (Symbol α)}

theorem joint?_times (h : c.symbols = .times :: σ) : c.joint? = some (.product, c.skip) := by
  rw [Cursor.joint?, Cursor.look_eq_head?, h]
  rfl

theorem joint?_slash (h : c.symbols = .slash :: σ) : c.joint? = some (.quotient, c.skip) := by
  rw [Cursor.joint?, Cursor.look_eq_head?, h]
  rfl

theorem joint?_startsOperand {s : Symbol α} (hs : startsOperand s) (h : c.symbols = s :: σ) :
    c.joint? = some (.product, c) := by
  rw [Cursor.joint?, Cursor.look_eq_head?, h]
  cases s <;> first | rfl | cases hs

theorem joint?_ends (h : Ends extendsProduct c.symbols) : c.joint? = none := by
  rw [Cursor.joint?, Cursor.look_eq_head?]
  cases hs : c.symbols.head? with
  | none => rfl
  | some s =>
    have h' := h s hs
    cases s <;> first | rfl | cases h'

variable [Scalar α] [Literal α]

theorem readTerms_ends (h : Ends extendsSum c.symbols) : readTerms (n + 1) c = .ok ([], c) := by
  rw [readTerms, Cursor.look_eq_head?]
  split
  · rename_i hs
    cases h _ hs
  · rename_i hs
    cases h _ hs
  · rfl

theorem readFactors_ends (e : Expr α) (h : Ends extendsProduct c.symbols) :
    readFactors (n + 1) k e c = .ok (e, c.leave k) := by
  rw [readFactors, joint?_ends h]

theorem readSigned_operand {s : Symbol α} (hs : startsOperand s) (h : c.symbols = s :: σ) :
    readSigned (n + 1) c = readPower n c := by
  rw [readSigned, Cursor.look_eq_head?, h]
  cases s <;> first | rfl | cases hs

theorem readSigned_minus (h : c.symbols = .minus :: σ) :
    readSigned (n + 1) c = readPower n c.skip >>= fun p => .ok (p.1.scale (-1), p.2) := by
  rw [readSigned, Cursor.look_eq_head?, h]
  rfl

end

/-! ## where a line starts and what follows it -/

theorem Atom.symbols_eq_cons (a : Atom α) : ∃ s σ, a.symbols = s :: σ ∧ startsOperand s := by
  cases a <;> exact ⟨_, _, rfl, rfl⟩

theorem Power.symbols_eq_cons (p : Power α) : ∃ s σ, p.symbols = s :: σ ∧ startsOperand s := by
  cases p with
  | atom a => exact a.symbols_eq_cons
  | raised a n =>
    obtain ⟨s, σ, h, hs⟩ := a.symbols_eq_cons
    exact ⟨s, _, by rw [Power.symbols, h, List.cons_append], hs⟩

theorem Signed.symbols_ne_nil (s : Signed α) : s.symbols ≠ [] := by
  cases s with
  | plus p =>
    obtain ⟨s, σ, h, -⟩ := p.symbols_eq_cons
    rw [Signed.symbols, h]
    exact List.cons_ne_nil s σ
  | minus p => exact List.cons_ne_nil _ _

theorem Sum.symbols_ne_nil (d : Sum α) : d.symbols ≠ [] := by
  obtain ⟨⟨s, fs⟩, ts⟩ := d
  exact List.append_ne_nil_of_left_ne_nil
    (List.append_ne_nil_of_left_ne_nil s.symbols_ne_nil fs.symbols) ts.symbols

theorem Terms.ends (ts : Terms α) {σ : List (Symbol α)} (h : Ends extendsSum σ) :
    Ends extendsProduct (ts.symbols ++ σ) := by
  cases ts with
  | nil => exact h.product
  | plus p ts => exact Ends.cons rfl _
  | minus p ts => exact Ends.cons rfl _

theorem Factors.ends (fs : Factors α) {σ : List (Symbol α)} (h : Ends extendsProduct σ) :
    Ends extendsPower (fs.symbols ++ σ) := by
  cases fs with
  | nil => exact h.power
  | times s fs => exact Ends.cons rfl _
  | slash s fs => exact Ends.cons rfl _
  | next p fs =>
    obtain ⟨s, τ, hp, hs⟩ := p.symbols_eq_cons
    rw [Factors.symbols, hp]
    refine Ends.cons ?_ _
    cases s <;> first | rfl | cases hs

/-! ## the readers on the symbols of a derivation -/

section
variable [Scalar α]

theorem exponentValue_plus {pos : Nat} {p : Power α} (hv : p.tree.hasVar = false)
    (hf : isFinite (p.tree.eval 0)) :
    exponentValue pos false p.tree = .ok (p.tree.eval 0) := by
  rw [exponentValue, hv]
  exact if_pos hf

theorem exponentValue_minus {pos : Nat} {p : Power α} (hv : p.tree.hasVar = false)
    (hf : isFinite (-p.tree.eval 0)) :
    exponentValue pos true p.tree = .ok (-p.tree.eval 0) := by
  rw [exponentValue, hv]
  exact if_pos hf

variable [Literal α]

theorem readSigned_power {n : Nat} {c : Cursor α} {σ : List (Symbol α)} {p : Power α}
    (hc : c.symbols = p.symbols ++ σ) : readSigned (n + 1) c = readPower n c := by
  obtain ⟨s, τ, h, hs⟩ := p.symbols_eq_cons
  exact readSigned_operand hs (by rw [hc, h, List.cons_append])

/-- one more operand of a product -/
theorem readFactors_reads_joint {n k l t t' : Nat} {c d : Cursor α} {σ : List (Symbol α)}
    {j : Joint} {e b : Expr α} (f : Expr α) (σ' : List (Symbol α))
    (hj : c.joint? = some (j, d)) (hd : d.depth = l + k)
    (hs : ∀ d' : Cursor α, d'.symbols = d.symbols → d'.depth = l + (k + 1) →
      l + (k + 1) ≤ maxDepth → Reads (l + (k + 1) + t) (l + (k + 1)) f σ' (readSigned n d'))
    (hf : ∀ c' : Cursor α, c'.symbols = σ' → c'.depth = l + (k + 1) → l + (k + 1) ≤ maxDepth →
      Reads (l + t') l b σ (readFactors n (k + 1) (join e f j) c')) :
    Reads (l + max (k + 1 + t) t') l b σ (readFactors (n + 1) k e c) := by
  rw [readFactors, hj]
  refine Reads.enter (by omega) fun h => ?_
  have h' : l + (k + 1) ≤ maxDepth := by omega
  have hs' := hs { d with depth := d.depth + 1 } rfl (by show d.depth + 1 = _; omega) h'
  refine Reads.cast (Reads.bind hs' fun c' hc' hl' => hf c' hc' hl' h') ?_
  omega

theorem readBrackets_reads {n l t : Nat} {c : Cursor α} {σ : List (Symbol α)} {e : Expr α}
    (hl : c.depth = l)
    (hs : ∀ d : Cursor α, d.symbols = c.symbols.tail → d.depth = l + 1 → l + 1 ≤ maxDepth →
      Reads (l + 1 + t) (l + 1) e (.closing :: σ) (readSum n d)) :
    Reads (l + (1 + t)) l e σ (readBrackets (n + 1) c) := by
  subst hl
  rw [readBrackets]
  refine Reads.enter (c := c.skip) (by show c.depth < _; omega) fun h => ?_
  have hs' := hs { c.skip with depth := c.depth + 1 } c.symbols_skip rfl h
  refine Reads.cast (hs'.map fun d hd hl => ⟨d.skip.leave 1, ?_, ?_, ?_⟩)
    (Nat.add_assoc c.depth 1 t)
  · show d.skip.symbols = σ
    simp [hd]
  · show d.depth - 1 = c.depth
    rw [hl, Nat.add_sub_cancel]
  · dsimp only
    rw [Cursor.close_closing hd]
    rfl

mutual
theorem readSum_reads (d : Sum α) {n l : Nat} {c : Cursor α} {σ : List (Symbol α)}
    (hn : 8 * d.symbols.length + 5 ≤ n) (hl : c.depth = l) (hm : l ≤ maxDepth)
    (hc : c.symbols = d.symbols ++ σ) (hσ : Ends extendsSum σ) (hk : d.Constant) :
    Reads (l + d.depth) l d.tree σ (readSum n c) := by
  obtain ⟨p, ts⟩ := d
  rw [Sum.symbols, List.length_append] at hn
  obtain ⟨m, rfl⟩ : ∃ m, n = m + 1 := ⟨n - 1, by omega⟩
  rw [Sum.symbols, List.append_assoc] at hc
  have hp := readProduct_reads p (n := m) (by omega) hl hm hc (ts.ends hσ) hk.1
  rw [readSum]
  refine (hp.bind fun c' hc' hl' => ?_).cast (Nat.add_max_add_left ..)
  refine (readTerms_reads ts (n := m) (by omega) hl' hm hc' hσ hk.2).map fun c'' hc'' hl'' => ?_
  exact ⟨c'', hc'', hl'', rfl⟩

theorem readTerms_reads (d : Terms α) {n l : Nat} {c : Cursor α} {σ : List (Symbol α)}
    (hn : 8 * d.symbols.length + 1 ≤ n) (hl : c.depth = l) (hm : l ≤ maxDepth)
    (hc : c.symbols = d.symbols ++ σ) (hσ : Ends extendsSum σ) (hk : d.Constant) :
    Reads (l + d.depth) l d.trees σ (readTerms n c) := by
  obtain ⟨m, rfl⟩ : ∃ m, n = m + 1 := ⟨n - 1, by omega⟩
  cases d with
  | nil =>
    have hc' : c.symbols = σ := hc
    rw [readTerms_ends (hc' ▸ hσ)]
    exact Reads.pure hm hc' hl []
  | plus p ts =>
    rw [Terms.symbols, List.length_cons, List.length_append] at hn
    rw [Terms.symbols, List.cons_append, List.append_assoc] at hc
    have hc' : c.skip.symbols = p.symbols ++ (ts.symbols ++ σ) := by
      simp [hc]
    have hp := readProduct_reads p (n := m) (c := c.skip) (by omega) hl hm hc' (ts.ends hσ) hk.1
    rw [readTerms, Cursor.look_eq_head?, hc]
    refine (hp.bind fun c' hc' hl' => ?_).cast (Nat.add_max_add_left ..)
    refine (readTerms_reads ts (n := m) (by omega) hl' hm hc' hσ hk.2).map fun c'' hc'' hl'' => ?_
    exact ⟨c'', hc'', hl'', rfl⟩
  | minus p ts =>
    rw [Terms.symbols, List.length_cons, List.length_append] at hn
    rw [Terms.symbols, List.cons_append, List.append_assoc] at hc
    have hc' : c.skip.symbols = p.symbols ++ (ts.symbols ++ σ) := by
      simp [hc]
    have hp := readProduct_reads p (n := m) (c := c.skip) (by omega) hl hm hc' (ts.ends hσ) hk.1
    rw [readTerms, Cursor.look_eq_head?, hc]
    refine (hp.bind fun c' hc' hl' => ?_).cast (Nat.add_max_add_left ..)
    refine (readTerms_reads ts (n := m) (by omega) hl' hm hc' hσ hk.2).map fun c'' hc'' hl'' => ?_
    exact ⟨c'', hc'', hl'', rfl⟩

theorem readProduct_reads (d : Product α) {n l : Nat} {c : Cursor α} {σ : List (Symbol α)}
    (hn : 8 * d.symbols.length + 4 ≤ n) (hl : c.depth = l) (hm : l ≤ maxDepth)
    (hc : c.symbols = d.symbols ++ σ) (hσ : Ends extendsProduct σ) (hk : d.Constant) :
    Reads (l + d.depth) l d.tree σ (readProduct n c) := by
  obtain ⟨s, fs⟩ := d
  rw [Product.symbols, List.length_append] at hn
  obtain ⟨m, rfl⟩ : ∃ m, n = m + 1 := ⟨n - 1, by omega⟩
  rw [Product.symbols, List.append_assoc] at hc
  have hs := readSigned_reads s (n := m) (by omega) hl hm hc (fs.ends hσ) hk.1
  rw [readProduct]
  refine (hs.bind fun c' hc' hl' => ?_).cast (Nat.add_max_add_left ..)
  exact readFactors_reads fs (k := 0) s.tree (by omega) hl' hm hc' hσ hk.2

theorem readFactors_reads (d : Factors α) {n k l : Nat} {c : Cursor α} {σ : List (Symbol α)}
    (e : Expr α) (hn : 8 * d.symbols.length + 3 ≤ n) (hl : c.depth = l + k)
    (hm : l + k ≤ maxDepth) (hc : c.symbols = d.symbols ++ σ) (hσ : Ends extendsProduct σ)
    (hk : d.Constant) :
    Reads (l + d.depth (k + 1)) l (d.tree e) σ (readFactors n k e c) := by
  obtain ⟨m, rfl⟩ : ∃ m, n = m + 1 := ⟨n - 1, by omega⟩
  cases d with
  | nil =>
    have hc' : c.symbols = σ := hc
    have hl' : (c.leave k).depth = l := by
      show c.depth - k = l
      omega
    rw [readFactors_ends e (hc' ▸ hσ)]
    exact Reads.pure (c := c.leave k) (by omega) hc' hl' e
  | times s fs =>
    rw [Factors.symbols, List.length_cons, List.length_append] at hn
    rw [Factors.symbols, List.cons_append, List.append_assoc] at hc
    refine readFactors_reads_joint s.tree (fs.symbols ++ σ) (joint?_times hc) hl
      (fun d hd hl' hm' => ?_) fun c' hc' hl' hm' => ?_
    · rw [Cursor.symbols_skip, hc, List.tail_cons] at hd
      exact readSigned_reads s (by omega) hl' hm' hd (fs.ends hσ) hk.1
    · exact readFactors_reads fs _ (by omega) hl' hm' hc' hσ hk.2
  | slash s fs =>
    rw [Factors.symbols, List.length_cons, List.length_append] at hn
    rw [Factors.symbols, List.cons_append, List.append_assoc] at hc
    refine readFactors_reads_joint s.tree (fs.symbols ++ σ) (joint?_slash hc) hl
      (fun d hd hl' hm' => ?_) fun c' hc' hl' hm' => ?_
    · rw [Cursor.symbols_skip, hc, List.tail_cons] at hd
      exact readSigned_reads s (by omega) hl' hm' hd (fs.ends hσ) hk.1
    · exact readFactors_reads fs _ (by omega) hl' hm' hc' hσ hk.2
  | next p fs =>
    rw [Factors.symbols, List.length_append] at hn
    rw [Factors.symbols, List.append_assoc] at hc
    obtain ⟨s, τ, hp, hs⟩ := p.symbols_eq_cons
    have hpl : p.symbols.length = τ.length + 1 := by rw [hp, List.length_cons]
    obtain ⟨i, rfl⟩ : ∃ i, m = i + 1 := ⟨m - 1, by omega⟩
    have hj : c.joint? = some (.product, c) :=
      joint?_startsOperand hs (by rw [hc, hp, List.cons_append])
    refine readFactors_reads_joint p.tree (fs.symbols ++ σ) hj hl (fun d hd hl' hm' => ?_)
      fun c' hc' hl' hm' => ?_
    · rw [hc] at hd
      rw [readSigned_power hd]
      exact readPower_reads p (by omega) hl' hm' hd (fs.ends hσ) hk.1
    · exact readFactors_reads fs _ (by omega) hl' hm' hc' hσ hk.2

theorem readSigned_reads (d : Signed α) {n l : Nat} {c : Cursor α} {σ : List (Symbol α)}
    (hn : 8 * d.symbols.length + 2 ≤ n) (hl : c.depth = l) (hm : l ≤ maxDepth)
    (hc : c.symbols = d.symbols ++ σ) (hσ : Ends extendsPower σ) (hk : d.Constant) :
    Reads (l + d.depth) l d.tree σ (readSigned n c) := by
  obtain ⟨m, rfl⟩ : ∃ m, n = m + 1 := ⟨n - 1, by omega⟩
  cases d with
  | plus p =>
    rw [readSigned_power hc]
    exact readPower_reads p (by rw [Signed.symbols] at hn; omega) hl hm hc hσ hk
  | minus p =>
    rw [Signed.symbols, List.length_cons] at hn
    have hc' : c.skip.symbols = p.symbols ++ σ := by
      simp [hc, Signed.symbols]
    have hp := readPower_reads p (n := m) (c := c.skip) (by omega) hl hm hc' hσ hk
    rw [readSigned_minus hc]
    refine hp.map fun c'' hc'' hl'' => ?_
    exact ⟨c'', hc'', hl'', rfl⟩

theorem readPower_reads (d : Power α) {n l : Nat} {c : Cursor α} {σ : List (Symbol α)}
    (hn : 8 * d.symbols.length + 1 ≤ n) (hl : c.depth = l) (hm : l ≤ maxDepth)
    (hc : c.symbols = d.symbols ++ σ) (hσ : Ends extendsPower σ) (hk : d.Constant) :
    Reads (l + d.depth) l d.tree σ (readPower n c) := by
  obtain ⟨m, rfl⟩ : ∃ m, n = m + 1 := ⟨n - 1, by omega⟩
  cases d with
  | atom a =>
    rw [Power.symbols] at hn
    rw [readPower]
    refine (readAtom_reads a (by omega) hl hm hc hk).map fun c' hc' hl' => ⟨c', hc', hl', ?_⟩
    dsimp only
    rw [Cursor.look_eq_head?, hc']
    split
    · rename_i hs
      cases hσ _ hs
    · rfl
  | raised a s =>
    rw [Power.symbols, List.length_append, List.length_cons] at hn
    rw [Power.symbols, List.append_assoc, List.cons_append] at hc
    rw [readPower]
    refine ((readAtom_reads a (by omega) hl hm hc hk.1).bind fun c' hc' hl' => ?_).cast
      (Nat.add_max_add_left ..)
    dsimp only
    rw [Cursor.look_eq_head?, hc']
    have hc'' : c'.skip.symbols = s.symbols ++ σ := by
      simp [hc']
    refine (readExponent_reads s (n := m) (c := c'.skip) (by omega) hl' hc'' hσ hk.2).map
      fun d hd hl'' => ?_
    exact ⟨d, hd, hl'', rfl⟩

theorem readExponent_reads (d : Signed α) {n l : Nat} {c : Cursor α} {σ : List (Symbol α)}
    (hn : 8 * d.symbols.length + 2 ≤ n) (hl : c.depth = l) (hc : c.symbols = d.symbols ++ σ)
    (hσ : Ends extendsPower σ)
    (hk : d.Constant ∧ d.power.tree.hasVar = false ∧ isFinite d.number) :
    Reads (l + (1 + d.depth)) l d.number σ (readExponent n c) := by
  obtain ⟨m, rfl⟩ : ∃ m, n = m + 1 := ⟨n - 1, by omega⟩
  obtain ⟨hk, hv, hf⟩ := hk
  subst hl
  rw [readExponent]
  refine Reads.enter (by omega) fun h => ?_
  dsimp only
  rw [Cursor.look_eq_head?]
  cases d with
  | plus p =>
    obtain ⟨s, τ, hp, hs⟩ := p.symbols_eq_cons
    have hc' : (Cursor.mk c.rest (c.depth + 1)).symbols = s :: (τ ++ σ) := by
      show c.symbols = _
      rw [hc, Signed.symbols, hp, List.cons_append]
    rw [Signed.symbols] at hn
    have hr := readPower_reads p (n := m) (c := ⟨c.rest, c.depth + 1⟩) (by omega) rfl h hc hσ hk
    have hr' : Reads (c.depth + 1 + p.depth) c.depth (p.tree.eval 0) σ
        (readPower m ⟨c.rest, c.depth + 1⟩ >>= fun x => do
          let v ← exponentValue c.pos false x.1
          .ok (v, x.2.leave 1)) := by
      refine hr.map fun d hd hl' => ⟨d.leave 1, hd, ?_, ?_⟩
      · rw [Cursor.leave, hl']
        rfl
      · dsimp only
        rw [exponentValue_plus (p := p) hv hf]
        rfl
    rw [hc', List.head?_cons]
    refine Reads.cast ?_ (Nat.add_assoc c.depth 1 p.depth)
    cases s <;> first | exact hr' | cases hs
  | minus p =>
    rw [Signed.symbols, List.length_cons] at hn
    have hc' : (Cursor.mk c.rest (c.depth + 1)).symbols = .minus :: (p.symbols ++ σ) := hc
    have hc'' : (Cursor.mk c.rest (c.depth + 1)).skip.symbols = p.symbols ++ σ := by
      simp [hc']
    have hr := readPower_reads p (n := m) (c := (Cursor.mk c.rest (c.depth + 1)).skip) (by omega)
      rfl h hc'' hσ hk
    rw [hc', List.head?_cons]
    refine Reads.cast (hr.map fun d hd hl' => ⟨d.leave 1, hd, ?_, ?_⟩)
      (Nat.add_assoc c.depth 1 p.depth)
    · rw [Cursor.leave, hl']
      rfl
    · dsimp only
      rw [exponentValue_minus (p := p) hv hf]
      rfl

theorem readAtom_reads (d : Atom α) {n l : Nat} {c : Cursor α} {σ : List (Symbol α)}
    (hn : 8 * d.symbols.length ≤ n) (hl : c.depth = l) (hm : l ≤ maxDepth)
    (hc : c.symbols = d.symbols ++ σ) (hk : d.Constant) :
    Reads (l + d.depth) l d.tree σ (readAtom n c) := by
  obtain ⟨s, τ, hs, -⟩ := d.symbols_eq_cons
  have hsl : d.symbols.length = τ.length + 1 := by rw [hs, List.length_cons]
  obtain ⟨m, rfl⟩ : ∃ m, n = m + 1 := ⟨n - 1, by omega⟩
  obtain ⟨t, ts, hr, ht, hσ⟩ := Cursor.rest_of_symbols (hc.trans (by rw [hs, List.cons_append]))
  rw [readAtom, hr]
  dsimp only
  rw [ht]
  subst hl
  cases d with
  | num v =>
    obtain ⟨rfl, rfl⟩ := List.cons.inj hs
    exact Reads.pure hm hσ rfl _
  | pi =>
    obtain ⟨rfl, rfl⟩ := List.cons.inj hs
    exact Reads.pure hm hσ rfl _
  | var =>
    obtain ⟨rfl, rfl⟩ := List.cons.inj hs
    exact Reads.pure hm hσ rfl _
  | call f s =>
    obtain ⟨rfl, rfl⟩ := List.cons.inj hs
    rw [Atom.symbols, List.length_cons, List.length_cons, List.length_append] at hn
    obtain ⟨i, rfl⟩ : ∃ i, m = i + 2 := ⟨m - 2, by omega⟩
    rw [List.cons_append, List.append_assoc] at hσ
    have ha : Reads (c.depth + (1 + s.depth)) c.depth s.tree σ (readArgument (i + 2) f.name c) := by
      rw [readArgument, Cursor.look_eq_head?, hσ]
      refine readBrackets_reads (c := c.skip) rfl fun d hd hl hm => ?_
      rw [hσ] at hd
      exact readSum_reads s (by omega) hl hm hd (Ends.cons rfl _) hk
    dsimp only
    rw [ofName_name]
    cases f <;> exact ha.map fun d hd hl => ⟨d, hd, hl, rfl⟩
  | brackets s =>
    obtain ⟨rfl, rfl⟩ := List.cons.inj hs
    rw [Atom.symbols, List.length_cons, List.length_append] at hn
    obtain ⟨i, rfl⟩ : ∃ i, m = i + 1 := ⟨m - 1, by omega⟩
    refine readBrackets_reads rfl fun d hd hl hm => ?_
    rw [hc, Atom.symbols, List.cons_append, List.append_assoc] at hd
    exact readSum_reads s (by omega) hl hm hd (Ends.cons rfl _) hk
end

/-- the symbols of a derivation with nothing behind them -/
theorem readSum_reads_all (d : Sum α) {ts : List (Token α)}
    (h : ts.map Token.symbol = d.symbols) (hk : d.Constant) :
    Reads d.depth 0 d.tree [] (readSum (fuelFor ts) ⟨ts, 0⟩) := by
  have hn : 8 * d.symbols.length + 5 ≤ fuelFor ts := by
    rw [← h, List.length_map, fuelFor]
    omega
  have hc : (Cursor.mk ts 0).symbols = d.symbols ++ [] := by rw [List.append_nil]; exact h
  have := readSum_reads d hn rfl (Nat.zero_le _) hc (Ends.nil _) hk
  rwa [Nat.zero_add] at this

theorem ofTokens_of_depth_le {d : Sum α} {ts : List (Token α)}
    (h : ts.map Token.symbol = d.symbols) (hk : d.Constant) (hd : d.depth ≤ maxDepth) :
    ofTokens ts = if d.tree.isFinite then .ok d.tree else .error (.nonFiniteNumber 0) := by
  have hts : ts ≠ [] := fun h' => d.symbols_ne_nil (by rw [← h, h']; rfl)
  obtain ⟨⟨us, l⟩, hc, -, hr⟩ := (readSum_reads_all d h hk).ok hd
  obtain rfl : us = [] := List.map_eq_nil_iff.1 hc
  rw [ofTokens, if_neg (by rwa [List.isEmpty_iff]), hr]
  rfl

theorem ofTokens_of_lt_depth {d : Sum α} {ts : List (Token α)}
    (h : ts.map Token.symbol = d.symbols) (hk : d.Constant) (hd : maxDepth < d.depth) :
    ∃ pos, ofTokens ts = .error (.tooDeep pos) := by
  have hts : ts ≠ [] := fun h' => d.symbols_ne_nil (by rw [← h, h']; rfl)
  obtain ⟨pos, hr⟩ := (readSum_reads_all d h hk).tooDeep hd
  refine ⟨pos, ?_⟩
  rw [ofTokens, if_neg (by rwa [List.isEmpty_iff]), hr]
  rfl

end

end Grammar

end CurveStudy
