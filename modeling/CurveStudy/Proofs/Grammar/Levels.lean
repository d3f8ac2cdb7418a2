import CurveStudy.Proofs.Grammar.Unique

/-!
# Levels along a list of symbols

The levels that are open behind some symbols, counted from left to right with no reader: a bracket
opens one until it is closed, an operator of a product and an operand without one open a level for
the operands behind it, and what stands behind a caret opens one until its operand ends.

* `Frame`, `Levels`   the levels inside one bracket, and inside all that are open;
* `Levels.step`       one symbol more;
* `levels`            the levels behind a list of symbols;
* `Levels.Through`, `Levels.Operand`   what operands leave of the levels in front of them;
* `Sum.run`           the symbols of a sum, and so on for the other lines;
* `Balanced`          symbols whose brackets match, as those of a derivation do.
-/

namespace CurveStudy.Grammar

/-- the levels inside a bracket: of its sum, of the operand of a product, and of the exponent -/
structure Frame where
  base : Nat
  operand : Nat
  level : Nat

namespace Frame

/-- nothing is open but the bracket -/
def start (l : Nat) : Frame := ⟨l, l, l⟩

/-- the next term of the sum -/
def term (f : Frame) : Frame := start f.base

/-- the next operand of the product -/
def factor (f : Frame) : Frame := { f with operand := f.operand + 1, level := f.operand + 1 }

/-- an exponent -/
def exponent (f : Frame) : Frame := { f with level := f.level + 1 }

end Frame

/-- what has to follow -/
inductive Due where
  | operand
  | exponent
  /-- an operand has ended -/
  | nothing
  deriving DecidableEq

structure Levels where
  frame : Frame
  due : Due
  /-- the brackets around -/
  outer : List Frame

namespace Levels
variable {α : Type}

/-- in front of the first symbol -/
def start : Levels := ⟨.start 0, .operand, []⟩

/-- the levels of an operand that follows -/
def next (v : Levels) : Frame :=
  match v.due with
  | .operand => v.frame
  | .exponent => v.frame.exponent
  | .nothing => v.frame.factor

/-- a closing bracket -/
def close (v : Levels) : Levels :=
  match v.outer with
  | [] => v
  | f :: fs => ⟨f, .nothing, fs⟩

/-- one symbol more; a sign in front of an operand changes nothing -/
def step (v : Levels) (s : Symbol α) : Levels :=
  match v.due, s with
  | .nothing, .plus | .nothing, .minus => ⟨v.frame.term, .operand, v.outer⟩
  | .nothing, .times | .nothing, .slash => ⟨v.frame.factor, .operand, v.outer⟩
  | .nothing, .caret => { v with due := .exponent }
  | .nothing, .closing => v.close
  | _, .num _ | _, .pi => ⟨v.next, .nothing, v.outer⟩
  | _, .name w => ⟨v.next, if w = ['x'] then .nothing else .operand, v.outer⟩
  | _, .opening => ⟨.start (v.next.level + 1), .operand, v.next :: v.outer⟩
  | _, _ => ⟨v.next, .operand, v.outer⟩

/-- several symbols more -/
def run (v : Levels) (σ : List (Symbol α)) : Levels := σ.foldl step v

@[simp] theorem run_cons (v : Levels) (s : Symbol α) (σ : List (Symbol α)) :
    run v (s :: σ) = run (v.step s) σ := rfl

@[simp] theorem run_append (v : Levels) (σ τ : List (Symbol α)) :
    run v (σ ++ τ) = run (run v σ) τ :=
  List.foldl_append

/-! ## one symbol -/

section
variable (v : Levels)

@[simp] theorem step_num (a : α) : v.step (.num a) = ⟨v.next, .nothing, v.outer⟩ := by
  obtain ⟨f, d, fs⟩ := v
  cases d <;> rfl

@[simp] theorem step_pi : v.step (.pi : Symbol α) = ⟨v.next, .nothing, v.outer⟩ := by
  obtain ⟨f, d, fs⟩ := v
  cases d <;> rfl

@[simp] theorem step_name (w : Text) : v.step (.name w : Symbol α)
    = ⟨v.next, if w = ['x'] then .nothing else .operand, v.outer⟩ := by
  obtain ⟨f, d, fs⟩ := v
  cases d <;> rfl

@[simp] theorem step_opening : v.step (.opening : Symbol α)
    = ⟨.start (v.next.level + 1), .operand, v.next :: v.outer⟩ := by
  obtain ⟨f, d, fs⟩ := v
  cases d <;> rfl

end

section
variable {v : Levels}

theorem step_minus (h : v.due ≠ .nothing) :
    v.step (.minus : Symbol α) = ⟨v.next, .operand, v.outer⟩ := by
  obtain ⟨f, d, fs⟩ := v
  cases d with
  | nothing => exact absurd rfl h
  | _ => rfl

theorem step_plus_of_nothing (h : v.due = .nothing) :
    v.step (.plus : Symbol α) = ⟨v.frame.term, .operand, v.outer⟩ := by
  obtain ⟨f, d, fs⟩ := v
  cases h
  rfl

theorem step_minus_of_nothing (h : v.due = .nothing) :
    v.step (.minus : Symbol α) = ⟨v.frame.term, .operand, v.outer⟩ := by
  obtain ⟨f, d, fs⟩ := v
  cases h
  rfl

theorem step_times (h : v.due = .nothing) :
    v.step (.times : Symbol α) = ⟨v.frame.factor, .operand, v.outer⟩ := by
  obtain ⟨f, d, fs⟩ := v
  cases h
  rfl

theorem step_slash (h : v.due = .nothing) :
    v.step (.slash : Symbol α) = ⟨v.frame.factor, .operand, v.outer⟩ := by
  obtain ⟨f, d, fs⟩ := v
  cases h
  rfl

theorem next_of_operand (h : v.due = .operand) : v.next = v.frame := by
  obtain ⟨f, d, fs⟩ := v
  cases h
  rfl

theorem next_of_exponent (h : v.due = .exponent) : v.next = v.frame.exponent := by
  obtain ⟨f, d, fs⟩ := v
  cases h
  rfl

theorem next_of_nothing (h : v.due = .nothing) : v.next = v.frame.factor := by
  obtain ⟨f, d, fs⟩ := v
  cases h
  rfl

/-- the level of an operand that follows is at most that of the symbol, if this has to be one -/
theorem level_next_le {s : Symbol α} (h : v.due = .nothing → startsOperand s) :
    v.next.level ≤ (v.step s).frame.level := by
  obtain ⟨f, d, fs⟩ := v
  cases d with
  | nothing =>
    have hs := h rfl
    cases s with
    | num | pi | name => exact Nat.le_refl _
    | opening => exact Nat.le_succ _
    | _ => cases hs
  | _ =>
    cases s with
    | opening => exact Nat.le_succ _
    | _ => exact Nat.le_refl _

theorem eq_caret_of_due {s : Symbol α} (h : (v.step s).due = .exponent) : s = .caret := by
  obtain ⟨f, d, fs⟩ := v
  cases s with
  | caret => rfl
  | name w =>
    rw [step_name] at h
    dsimp only at h
    split at h <;> cases h
  | closing =>
    cases d with
    | nothing =>
      cases fs <;> cases h
    | _ => cases h
  | _ => cases d <;> cases h

end

/-! ## several symbols -/

/-- from one to the other operands have been read, in the same bracket -/
structure Through (v w : Levels) : Prop where
  due : w.due = .nothing
  outer : w.outer = v.outer
  base : w.frame.base = v.frame.base

/-- from one to the other one operand has been read, which has at most `d` levels of its own -/
structure Operand (d : Nat) (v w : Levels) : Prop extends Through v w where
  operand : w.frame.operand = v.next.operand
  level : w.frame.level ≤ v.next.level + d

@[simp] theorem next_base (v : Levels) : v.next.base = v.frame.base := by
  obtain ⟨f, d, fs⟩ := v
  cases d <;> rfl

theorem Through.trans {u v w : Levels} (h : Through u v) (h' : Through v w) : Through u w where
  due := h'.due
  outer := h'.outer.trans h.outer
  base := h'.base.trans h.base

/-- the terms behind a sign -/
theorem Through.term {v w : Levels} (h : Through ⟨v.frame.term, .operand, v.outer⟩ w) :
    Through v w := ⟨h.due, h.outer, h.base⟩

/-- the operands behind an operator of a product -/
theorem Through.factor {v w : Levels} (h : Through ⟨v.frame.factor, .operand, v.outer⟩ w) :
    Through v w := ⟨h.due, h.outer, h.base⟩

theorem Operand.atom (v : Levels) (d : Nat) : Operand d v ⟨v.next, .nothing, v.outer⟩ where
  due := rfl
  outer := rfl
  base := v.next_base
  operand := rfl
  level := Nat.le_add_right ..

end Levels

/-- the levels behind the first symbols of a list -/
def levels {α : Type} (σ : List (Symbol α)) : Levels := Levels.start.run σ

/-- the exponent of `x ^ 2`, and the second operand of `(x ^ 2 * x` -/
example (a : Nat) : (levels [.name ['x'], .caret, .num a]).frame.level = 1 := rfl
example (a : Nat) : (levels [.opening, .name ['x'], .caret, .num a, .times,
    .name ['x']]).frame.level = 2 := rfl

open Levels
variable {α : Type}

@[simp] theorem levels_concat (σ : List (Symbol α)) (s : Symbol α) :
    levels (σ ++ [s]) = (levels σ).step s := run_append ..

/-- a caret is the last symbol if an exponent has to follow -/
theorem getLast?_of_due {σ : List (Symbol α)} (h : (levels σ).due = .exponent) :
    σ.getLast? = some .caret := by
  rcases List.eq_nil_or_concat σ with rfl | ⟨σ, s, rfl⟩
  · cases h
  · rw [List.concat_eq_append, levels_concat] at h
    rw [List.concat_eq_append, List.getLast?_concat, eq_caret_of_due h]

/-- a closing bracket gives back the levels in front of the opening one -/
theorem run_brackets (v : Levels) {σ : List (Symbol α)}
    (h : ∀ l fs, Through ⟨.start l, .operand, fs⟩ (run ⟨.start l, .operand, fs⟩ σ)) :
    v.run (.opening :: (σ ++ [.closing])) = ⟨v.next, .nothing, v.outer⟩ := by
  rw [run_cons, run_append, step_opening]
  obtain ⟨hd, ho, -⟩ := h (v.next.level + 1) (v.next :: v.outer)
  generalize run _ σ = w at hd ho
  obtain ⟨f, d, fs⟩ := w
  obtain rfl : d = .nothing := hd
  obtain rfl : fs = v.next :: v.outer := ho
  rfl

mutual
theorem Sum.run (d : Sum α) {v : Levels} (hv : v.due = .operand) :
    Through v (v.run d.symbols) := by
  obtain ⟨p, ts⟩ := d
  have hp := p.run hv
  rw [Sum.symbols, run_append]
  exact hp.trans (ts.run hp.due)
termination_by structural d

theorem Terms.run (d : Terms α) {v : Levels} (hv : v.due = .nothing) :
    Through v (v.run d.symbols) := by
  match d with
  | .nil => exact ⟨hv, rfl, rfl⟩
  | .plus p ts =>
    have hp := p.run (v := ⟨v.frame.term, .operand, v.outer⟩) rfl
    rw [Terms.symbols, run_cons, step_plus_of_nothing hv, run_append]
    exact (hp.trans (ts.run hp.due)).term
  | .minus p ts =>
    have hp := p.run (v := ⟨v.frame.term, .operand, v.outer⟩) rfl
    rw [Terms.symbols, run_cons, step_minus_of_nothing hv, run_append]
    exact (hp.trans (ts.run hp.due)).term
termination_by structural d

theorem Product.run (d : Product α) {v : Levels} (hv : v.due = .operand) :
    Through v (v.run d.symbols) := by
  obtain ⟨s, fs⟩ := d
  have hs := (s.run (v := v) (by rw [hv]; nofun)).toThrough
  rw [Product.symbols, run_append]
  exact hs.trans (fs.run hs.due)
termination_by structural d

theorem Factors.run (d : Factors α) {v : Levels} (hv : v.due = .nothing) :
    Through v (v.run d.symbols) := by
  match d with
  | .nil => exact ⟨hv, rfl, rfl⟩
  | .times s fs =>
    have hs := (s.run (v := ⟨v.frame.factor, .operand, v.outer⟩) nofun).toThrough
    rw [Factors.symbols, run_cons, step_times hv, run_append]
    exact (hs.trans (fs.run hs.due)).factor
  | .slash s fs =>
    have hs := (s.run (v := ⟨v.frame.factor, .operand, v.outer⟩) nofun).toThrough
    rw [Factors.symbols, run_cons, step_slash hv, run_append]
    exact (hs.trans (fs.run hs.due)).factor
  | .next p fs =>
    have hp := (p.run v).toThrough
    rw [Factors.symbols, run_append]
    exact hp.trans (fs.run hp.due)
termination_by structural d

theorem Signed.run (d : Signed α) {v : Levels} (hv : v.due ≠ .nothing) :
    Operand d.depth v (v.run d.symbols) := by
  match d with
  | .plus p => exact p.run v
  | .minus p =>
    have h := p.run ⟨v.next, .operand, v.outer⟩
    rw [Signed.symbols, run_cons, step_minus hv]
    exact ⟨⟨h.due, h.outer, h.base.trans v.next_base⟩, h.operand, h.level⟩
termination_by structural d

theorem Power.run (d : Power α) (v : Levels) : Operand d.depth v (v.run d.symbols) := by
  match d with
  | .atom a =>
    rw [Power.symbols, a.run v]
    exact .atom v _
  | .raised a n =>
    rw [Power.symbols, run_append, a.run v, run_cons]
    have h := n.run (v := ⟨v.next, .exponent, v.outer⟩) nofun
    refine ⟨⟨h.due, h.outer, h.base.trans v.next_base⟩, h.operand, ?_⟩
    have hl : _ ≤ v.next.level + 1 + n.depth := h.level
    rw [Nat.add_assoc] at hl
    exact Nat.le_trans hl (Nat.add_le_add_left (Nat.le_max_right ..) _)
termination_by structural d

theorem Atom.run (d : Atom α) (v : Levels) :
    v.run d.symbols = ⟨v.next, .nothing, v.outer⟩ := by
  match d with
  | .num a => exact step_num v a
  | .pi => exact step_pi v
  | .var => exact step_name v ['x']
  | .call f s =>
    rw [Atom.symbols, run_cons, step_name, if_neg f.name_ne_var]
    exact run_brackets _ fun l fs => s.run rfl
  | .brackets s => exact run_brackets v fun l fs => s.run rfl
termination_by structural d
end

/-! ## brackets -/

/-- every opening bracket is closed, and every closing one closes one -/
inductive Balanced : List (Symbol α) → Prop where
  | nil : Balanced []
  | cons {s : Symbol α} {σ : List (Symbol α)} (ho : s ≠ .opening) (hc : s ≠ .closing)
      (h : Balanced σ) : Balanced (s :: σ)
  | brackets {σ τ : List (Symbol α)} (h : Balanced σ) (h' : Balanced τ) :
      Balanced (.opening :: (σ ++ .closing :: τ))

theorem Balanced.append {σ τ : List (Symbol α)} (h : Balanced σ) (h' : Balanced τ) :
    Balanced (σ ++ τ) := by
  induction h with
  | nil => exact h'
  | cons ho hc _ ih => exact .cons ho hc ih
  | brackets h _ _ ih =>
    rw [List.cons_append, List.append_assoc, List.cons_append]
    exact .brackets h ih

mutual
theorem Sum.balanced (d : Sum α) : Balanced d.symbols := by
  obtain ⟨p, ts⟩ := d
  exact p.balanced.append ts.balanced
termination_by structural d

theorem Terms.balanced (d : Terms α) : Balanced d.symbols := by
  match d with
  | .nil => exact .nil
  | .plus p ts => exact .cons nofun nofun (p.balanced.append ts.balanced)
  | .minus p ts => exact .cons nofun nofun (p.balanced.append ts.balanced)
termination_by structural d

theorem Product.balanced (d : Product α) : Balanced d.symbols := by
  obtain ⟨s, fs⟩ := d
  exact s.balanced.append fs.balanced
termination_by structural d

theorem Factors.balanced (d : Factors α) : Balanced d.symbols := by
  match d with
  | .nil => exact .nil
  | .times s fs => exact .cons nofun nofun (s.balanced.append fs.balanced)
  | .slash s fs => exact .cons nofun nofun (s.balanced.append fs.balanced)
  | .next p fs => exact p.balanced.append fs.balanced
termination_by structural d

theorem Signed.balanced (d : Signed α) : Balanced d.symbols := by
  match d with
  | .plus p => exact p.balanced
  | .minus p => exact .cons nofun nofun p.balanced
termination_by structural d

theorem Power.balanced (d : Power α) : Balanced d.symbols := by
  match d with
  | .atom a => exact a.balanced
  | .raised a n => exact a.balanced.append (.cons nofun nofun n.balanced)
termination_by structural d

theorem Atom.balanced (d : Atom α) : Balanced d.symbols := by
  match d with
  | .num v => exact .cons nofun nofun .nil
  | .pi => exact .cons nofun nofun .nil
  | .var => exact .cons nofun nofun .nil
  | .call f s => exact .cons nofun nofun (.brackets s.balanced .nil)
  | .brackets s => exact .brackets s.balanced .nil
termination_by structural d
end

end CurveStudy.Grammar
