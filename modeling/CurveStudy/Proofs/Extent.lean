import Mathlib.Tactic.Ring
import CurveStudy.Expr.Measure
import CurveStudy.Expr.Render
import CurveStudy.Proofs.Shape

/-!
# The levels in the text of a tree

The levels that the text of a tree has for the reader, counted on the tree.  A bracket and an
exponent are one level each.  The operators of a product without brackets are counted from its
start, so that what stands behind an operator is as many levels further in as there are operators
up to it.

* `Extent`        the operators and the levels of a text, and how texts are put together;
* `Expr.extent`   the extent of the text of a tree;
* `Formed.fits`   there are at most two levels for each node but the last.
-/

set_option linter.unusedSectionVars false

namespace CurveStudy

/-- the operators of a product that is not in brackets, and the greatest level in it -/
structure Extent where
  ops : Nat
  levels : Nat

namespace Extent

/-- a number or the variable -/
def atom : Extent := ⟨0, 0⟩

def bracketed (x : Extent) : Extent := ⟨0, x.levels + 1⟩

def bracketIf (b : Bool) (x : Extent) : Extent := if b then x.bracketed else x

/-- a number as an exponent -/
def raised (x : Extent) : Extent := ⟨0, max x.levels 1⟩

/-- an operator with `y` behind it -/
def times (x y : Extent) : Extent :=
  ⟨x.ops + 1 + y.ops, max x.levels (x.ops + 1 + y.levels)⟩

/-- a coefficient in front; of `1` and `-1` no number is written -/
def withCoeff {α : Type} [Scalar α] (c : α) (x : Extent) : Extent :=
  if c == 1 || c == -1 then x else atom.times x

/-- the factors of a product -/
def product : List Extent → Extent
  | [] => atom
  | [x] => x
  | x :: y :: xs => x.times (product (y :: xs))

/-- the terms of a sum -/
def sum (xs : List Extent) : Extent := ⟨0, xs.foldr (fun x n => max x.levels n) 0⟩

theorem ops_bracketIf_le (b : Bool) (x : Extent) : (x.bracketIf b).ops ≤ x.ops := by
  cases b with
  | false => exact Nat.le_refl _
  | true => exact Nat.zero_le _

theorem levels_bracketIf_le (b : Bool) (x : Extent) : (x.bracketIf b).levels ≤ x.levels + 1 := by
  cases b with
  | false => exact Nat.le_succ _
  | true => exact Nat.le_refl _

section
variable {α : Type} [Scalar α]

theorem withCoeff_of_beq_one {c : α} (h : c == 1) (x : Extent) : withCoeff c x = x := by
  rw [withCoeff, h, Bool.true_or, if_pos rfl]

variable (c : α) (x : Extent)

theorem ops_withCoeff_le : (withCoeff c x).ops ≤ x.ops + 1 := by
  unfold withCoeff
  split
  · exact Nat.le_succ _
  · simp only [times, atom]
    omega

theorem levels_withCoeff_le : (withCoeff c x).levels ≤ x.levels + 1 := by
  unfold withCoeff
  split
  · exact Nat.le_succ _
  · simp only [times, atom]
    omega

end

end Extent

namespace Expr
open Extent

section
variable {α : Type} [Scalar α] [Literal α]

mutual
/-- the extent of the text of the tree -/
def extent : Expr α → Extent
  | .const _ => .atom
  | .var => .atom
  | .sum ts => .sum (extentEach ts)
  | .product fs c => .withCoeff c (.product (extentFactors fs))
  | .power b _ c => .withCoeff c ((extent b).bracketIf (!b.isAtom)).raised
  | .quotient a b c =>
    let num := (extent a).bracketIf (a.isSum || c != 1 && a.render.isSigned)
    .withCoeff c (num.times ((extent b).bracketIf (!b.isDivisor)))
  | .trig _ a c => .withCoeff c (extent a).bracketed

def extentEach : List (Expr α) → List Extent
  | [] => []
  | e :: es => extent e :: extentEach es

def extentFactors : List (Expr α) → List Extent
  | [] => []
  | e :: es =>
    (extent e).bracketIf (e.isSum || e.isQuotient || e.render.isSigned) :: extentFactors es
end

/-! ## at most two levels for a node -/

/-- there are at most two operators and two levels for each of `n` nodes but the last -/
structure Fits (x : Extent) (n : Nat) : Prop where
  ops : x.ops + 2 ≤ 2 * n
  levels : x.levels + 2 ≤ 2 * n

theorem Fits.withCoeff {c : α} {x : Extent} {n : Nat} (ho : x.ops + 1 ≤ 2 * n)
    (hl : x.levels + 1 ≤ 2 * n) : Fits (.withCoeff c x) (1 + n) := by
  have := ops_withCoeff_le c x
  have := levels_withCoeff_le c x
  exact ⟨by omega, by omega⟩

theorem levels_sum_le {ts : List (Expr α)} (h : ∀ t ∈ ts, Fits t.extent t.size) :
    (Extent.sum (extentEach ts)).levels ≤ 2 * sizeEach ts := by
  induction ts with
  | nil => exact Nat.zero_le _
  | cons t ts ih =>
    obtain ⟨ht, hts⟩ := List.forall_mem_cons.1 h
    have := ih hts
    have := ht.levels
    show max t.extent.levels (Extent.sum (extentEach ts)).levels ≤ 2 * (t.size + sizeEach ts)
    omega

/-- a factor may be in brackets, but is not behind all of the operators -/
theorem extent_product_le {fs : List (Expr α)} (hl : fs ≠ [])
    (h : ∀ f ∈ fs, Fits f.extent f.size) :
    (Extent.product (extentFactors fs)).ops + 2 ≤ 2 * sizeEach fs
    ∧ (Extent.product (extentFactors fs)).levels + 1 ≤ 2 * sizeEach fs := by
  induction fs with
  | nil => exact absurd rfl hl
  | cons f fs ih =>
    obtain ⟨hf, hfs⟩ := List.forall_mem_cons.1 h
    obtain ⟨hfo, hfl⟩ := hf
    obtain ⟨b, hb⟩ : ∃ b, (f.isSum || f.isQuotient || f.render.isSigned) = b := ⟨_, rfl⟩
    have hbo := ops_bracketIf_le b f.extent
    have hbl := levels_bracketIf_le b f.extent
    rw [extentFactors, hb, sizeEach]
    cases fs with
    | nil =>
      show (f.extent.bracketIf b).ops + 2 ≤ _ ∧ (f.extent.bracketIf b).levels + 1 ≤ _
      omega
    | cons g gs =>
      obtain ⟨iho, ihl⟩ := ih (List.cons_ne_nil g gs) hfs
      obtain ⟨x, hx⟩ : ∃ x, Extent.product (extentFactors (g :: gs)) = x := ⟨_, rfl⟩
      rw [hx] at iho ihl
      show ((f.extent.bracketIf b).times (Extent.product (extentFactors (g :: gs)))).ops + 2 ≤ _
        ∧ ((f.extent.bracketIf b).times (Extent.product (extentFactors (g :: gs)))).levels + 1 ≤ _
      rw [hx]
      simp only [Extent.times]
      omega

theorem Formed.fits {p : α → Prop} {e : Expr α} (h : Formed p e) : Fits e.extent e.size := by
  induction h with
  | const _ => exact ⟨Nat.le_refl 2, Nat.le_refl 2⟩
  | var => exact ⟨Nat.le_refl 2, Nat.le_refl 2⟩
  | @sum ts _ _ _ ih =>
    have := levels_sum_le ih
    rw [extent, size]
    refine ⟨?_, by omega⟩
    show 0 + 2 ≤ _
    omega
  | product _ hl _ ih =>
    obtain ⟨ho, hv⟩ := extent_product_le hl ih
    exact .withCoeff (by omega) hv
  | @power b n c _ _ _ _ _ ih =>
    have := levels_bracketIf_le (!b.isAtom) b.extent
    have := ih.levels
    refine .withCoeff ?_ ?_
    · show 0 + 1 ≤ _
      omega
    · show max _ 1 + 1 ≤ _
      omega
  | @quotient a b c _ _ _ iha ihb =>
    obtain ⟨hao, hal⟩ := iha
    obtain ⟨hbo, hbl⟩ := ihb
    obtain ⟨i, hi⟩ : ∃ i, (a.isSum || c != 1 && a.render.isSigned) = i := ⟨_, rfl⟩
    have := ops_bracketIf_le i a.extent
    have := levels_bracketIf_le i a.extent
    have := ops_bracketIf_le (!b.isDivisor) b.extent
    have := levels_bracketIf_le (!b.isDivisor) b.extent
    rw [extent, hi]
    refine .withCoeff ?_ ?_
    · simp only [Extent.times]
      omega
    · simp only [Extent.times]
      omega
  | trig _ _ ih =>
    obtain ⟨ho, hv⟩ := ih
    refine .withCoeff ?_ ?_
    · show 0 + 1 ≤ _
      omega
    · show _ + 1 + 1 ≤ _
      omega

end

end Expr

end CurveStudy
