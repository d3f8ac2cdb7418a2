import CurveStudy.Double
import CurveStudy.Proofs.Walk.Calls
import CurveStudy.Proofs.Walk.Reading

/-!
# The account of a line

What holds of each line of the grammar, from any place of any list of tokens on and at any level
that is allowed.  However many calls its walk may make, the levels stay in their bounds, and if the
line is read there are more tokens behind than before and the level is the one of the start.  The
reader of the line ends as the walk does.  With the calls that a list of this length is given, or
with more, the walk is not cut short: it is one walk, which ends.

* `Line`                       the lines of the grammar, with a reader and a walk for each;
* `Line.exists_outcome_walk`   how a walk with any number of calls ends;
* `Line.outcome_walk_ne_cut`   how many calls are enough;
* `Line.walk_balanced`         the account.
-/

namespace CurveStudy

open Cursor (behind)

inductive Line where
  | sum
  | product
  | signed
  | power
  | exponent
  | atom
  /-- the argument of the function `name`, whose name stands at `pos` and is behind -/
  | argument (name : Text) (pos : Nat)

namespace Line

/-- what is read along the line: a number for an exponent, a tree otherwise -/
def Value (α : Type) : Line → Type
  | exponent => α
  | sum | product | signed | power | atom | argument _ _ => Expr α

variable {α : Type} [Scalar α] [Literal α]

/-- the reader of the line; that of an argument takes the name of the function away itself -/
def read (calls : Nat) : (q : Line) → Cursor α → Except Fault (q.Value α × Cursor α)
  | sum, c => Expr.readSum calls c
  | product, c => Expr.readProduct calls c
  | signed, c => Expr.readSigned calls c
  | power, c => Expr.readPower calls c
  | exponent, c => Expr.readExponent (α := α) calls c
  | atom, c => Expr.readAtom calls c
  | argument w p, c => Expr.readArgument calls w ⟨⟨.name w, p⟩ :: c.rest, c.depth⟩

/-- the walk along the line -/
def walk (ts : List (Token α)) (calls : Nat) : (q : Line) → Walk (q.Value α)
  | sum => Expr.walkSum ts calls
  | product => Expr.walkProduct ts calls
  | signed => Expr.walkSigned ts calls
  | power => Expr.walkPower ts calls
  | exponent => Expr.walkExponent (α := α) ts calls
  | atom => Expr.walkAtom ts calls
  | argument w p => Expr.walkArgument ts calls w p

theorem walk_tracks (q : Line) {ts : List (Token α)} (n : Nat) {i l : Nat} (hi : i ≤ ts.length)
    (hl : l ≤ maxDepth) :
    Tracks (Expr.fuelFor ts ≤ n) ts i l (i + 1) l (q.read n (behind ts i l)) (q.walk ts n) := by
  have hj := Nat.le_refl (i + 1)
  rw [Expr.fuelFor]
  cases q with
  | sum => exact (Expr.walkSum_tracks n hi hl).mono (by omega) hj
  | product => exact (Expr.walkProduct_tracks n hi hl).mono (by omega) hj
  | signed => exact (Expr.walkSigned_tracks n hi hl).mono (by omega) hj
  | power => exact (Expr.walkPower_tracks n hi hl).mono (by omega) hj
  | exponent => exact (Expr.walkExponent_tracks (α := α) n hi hl).mono (by omega) hj
  | atom => exact (Expr.walkAtom_tracks n hl).mono (by omega) hj
  | argument w p => exact (Expr.walkArgument_tracks n ⟨.name w, p⟩ w hl).mono (by omega) hj

theorem walk_extends (q : Line) (ts : List (Token α)) (n : Nat) :
    (q.walk ts n).Extends (q.walk ts (n + 1)) := by
  cases q with
  | sum => exact Expr.walkSum_extends ts n
  | product => exact Expr.walkProduct_extends ts n
  | signed => exact Expr.walkSigned_extends ts n
  | power => exact Expr.walkPower_extends ts n
  | exponent => exact Expr.walkExponent_extends (α := α) ts n
  | atom => exact Expr.walkAtom_extends ts n
  | argument w p => exact Expr.walkArgument_extends ts n w p

section
variable (q : Line) (ts : List (Token α)) {i l : Nat}

theorem exists_outcome_walk (hi : i ≤ ts.length) (hl : l ≤ maxDepth) (n : Nat) :
    ∃ r s, (q.walk ts n).outcome ⟨i, l, []⟩ = (r, s) ∧ s.Sound ∧ s.place ≤ ts.length
      ∧ (∀ b, r = .ok b → i < s.place ∧ s.level = l)
      ∧ q.read n ⟨ts.drop i, l⟩
        = (r.map fun b => (b, ⟨ts.drop s.place, l⟩)).mapError Halt.reported := by
  have h := q.walk_tracks n hi hl _ (Walker.at_start hi hl)
  generalize (q.walk ts n).outcome ⟨i, l, []⟩ = o at h
  rw [behind] at h
  generalize q.read n ⟨ts.drop i, l⟩ = r at h ⊢
  cases h with
  | ok b hj hs =>
    obtain ⟨rfl, hl, hle, h⟩ := hs
    exact ⟨_, _, rfl, h, hle, fun _ _ => ⟨hj, hl⟩, rfl⟩
  | error e hi hs he =>
    refine ⟨_, _, rfl, hs, hi, fun b hb => ?_, rfl⟩
    cases hb

theorem outcome_walk_ne_cut (hi : i ≤ ts.length) (hl : l ≤ maxDepth) {n : Nat}
    (hn : Expr.fuelFor ts ≤ n) : ((q.walk ts n).outcome ⟨i, l, []⟩).1 ≠ .error .cut := by
  have h := q.walk_tracks n hi hl _ (Walker.at_start hi hl)
  generalize (q.walk ts n).outcome ⟨i, l, []⟩ = o at h ⊢
  generalize q.read n (behind ts i l) = r at h
  cases h with
  | ok b hj hs =>
    intro h
    cases h
  | error e hi hs he => exact fun h => he hn (Except.error.inj h)

/-- A walk along a line starts at any place of the tokens and at any allowed level.  However many
calls it may make, all levels there have been are between zero and one above the limit, and if there
is a result at least one token more is behind and the level is that of the start; the reader of the
line, with as many calls, has the same result at the same place or the same fault.  And the walk
ends: from the calls on that a list of this length is given, it is one walk that is not cut
short. -/
theorem walk_balanced (hi : i ≤ ts.length) (hl : l ≤ maxDepth) :
    (∀ n, ∃ r s, (q.walk ts n).outcome ⟨i, l, []⟩ = (r, s)
      ∧ (∀ v ∈ s.level :: s.past, 0 ≤ v ∧ v ≤ maxDepth + 1)
      ∧ s.place ≤ ts.length
      ∧ (∀ b, r = .ok b → i < s.place ∧ s.level = l)
      ∧ q.read n ⟨ts.drop i, l⟩
        = (r.map fun b => (b, ⟨ts.drop s.place, l⟩)).mapError Halt.reported)
    ∧ ∃ r s, r ≠ .error .cut
      ∧ ∀ n, Expr.fuelFor ts ≤ n → (q.walk ts n).outcome ⟨i, l, []⟩ = (r, s) := by
  refine ⟨q.exists_outcome_walk ts hi hl, ?_⟩
  have hc := q.outcome_walk_ne_cut ts hi hl (Nat.le_refl _)
  exact ⟨_, _, hc, fun n hn => Walk.outcome_eq_of_extends (q.walk_extends ts) hn hc⟩

end

/-- the tokens of `x/(x)/x` -/
def divided : List (Token Float) :=
  [⟨.name ['x'], 0⟩, ⟨.slash, 1⟩, ⟨.opening, 2⟩, ⟨.name ['x'], 3⟩, ⟨.closing, 4⟩, ⟨.slash, 5⟩,
    ⟨.name ['x'], 6⟩]

/-- two levels below the limit there is room for the operators and for the brackets, and all levels
are given back -/
theorem walk_balanced_divided : 0 ≤ divided.length ∧ 254 ≤ maxDepth
    ∧ ((∀ n, ∃ r s, (product.walk divided n).outcome ⟨0, (254 : Nat), []⟩ = (r, s)
      ∧ (∀ v ∈ s.level :: s.past, 0 ≤ v ∧ v ≤ maxDepth + 1)
      ∧ s.place ≤ divided.length
      ∧ (∀ b, r = .ok b → 0 < s.place ∧ s.level = (254 : Nat))
      ∧ product.read n ⟨divided.drop 0, 254⟩
        = (r.map fun b => (b, ⟨divided.drop s.place, 254⟩)).mapError Halt.reported)
    ∧ ∃ r s, r ≠ .error .cut
      ∧ ∀ n, Expr.fuelFor divided ≤ n →
        (product.walk divided n).outcome ⟨0, (254 : Nat), []⟩ = (r, s))
    ∧ (product.walk divided (Expr.fuelFor divided)).outcome ⟨0, 254, []⟩
      = (.ok (.quotient (.quotient .var .var 1) .var 1),
        ⟨7, 254, [256, 255, 256, 256, 255, 254]⟩) :=
  ⟨by decide, by decide, walk_balanced product divided (by decide) (by decide), rfl⟩

/-- one level below the limit the bracket is refused, when its level is there -/
example : (product.walk divided (Expr.fuelFor divided)).outcome ⟨0, 255, []⟩
    = (.error (.fault (.tooDeep 2)), ⟨3, 257, [256, 255]⟩) :=
  rfl

end Line

end CurveStudy
