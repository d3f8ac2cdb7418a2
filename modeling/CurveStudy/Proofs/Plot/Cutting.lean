import Mathlib.Data.List.TakeWhile
import CurveStudy.Plot.Pieces

/-!
# The parts of a list that is cut

A list is cut member by member, with the parts that are complete and the one that goes on at hand.
The parts can also be had one by one: the first one is as many members as satisfy the test, and the
others are those of what comes behind it.

* `runs`             the maximal runs of members that satisfy a test, one by one;
* `Cutting.result`   what the cutting of a list ends in, from any state on;
* `result_step`, `out_flush_foldl`   one member, and all of them;
* `cut_eq_runs`      the parts are the maximal runs;
* `infix_of_mem_pieces`   a piece of a curve is some of its samples, next to each other.
-/

namespace CurveStudy.Plot

variable {β : Type} {p : β → Bool}

/-- the maximal runs of members that satisfy `p` -/
def runs (p : β → Bool) : List β → List (List β)
  | [] => []
  | b :: bs =>
    if p b then (b :: bs.takeWhile p) :: runs p (bs.dropWhile p) else runs p bs
termination_by bs => bs.length
decreasing_by
  · exact Nat.lt_succ_of_le (List.dropWhile_sublist p).length_le
  · exact Nat.lt_succ_self _

@[simp] theorem runs_nil : runs p [] = [] := by rw [runs]

theorem runs_cons_of_pos {b : β} {bs : List β} (h : p b) :
    runs p (b :: bs) = (b :: bs.takeWhile p) :: runs p (bs.dropWhile p) := by
  rw [runs, if_pos h]

theorem runs_cons_of_neg {b : β} {bs : List β} (h : ¬p b) : runs p (b :: bs) = runs p bs := by
  rw [runs, if_neg h]

/-! ## the parts, and the one that goes on -/

namespace Cutting

/-- the parts at the end of the list, if `bs` is still to come: what goes on takes in as many
members as satisfy `p` -/
def result (p : β → Bool) (c : Cutting β) (bs : List β) : List (List β) :=
  if c.current.isEmpty then c.out ++ runs p bs
  else c.out ++ (c.current ++ bs.takeWhile p) :: runs p (bs.dropWhile p)

theorem result_nil (c : Cutting β) : c.result p [] = c.flush.out := by
  rw [result, flush]
  split <;> simp

/-- a member that comes is the first one of those to come -/
theorem result_step (c : Cutting β) (b : β) (bs : List β) :
    (c.step p b).result p bs = c.result p (b :: bs) := by
  obtain ⟨out, current⟩ := c
  by_cases hb : p b
  · -- the part goes on with `b`, or starts with it
    cases current with
    | nil => simp [step, result, hb, runs_cons_of_pos hb]
    | cons a as => simp [step, result, hb]
  · cases current with
    | nil => simp [step, flush, result, hb, runs_cons_of_neg hb]
    | cons a as => simp [step, flush, result, hb, runs_cons_of_neg hb]

theorem out_flush_foldl (c : Cutting β) (bs : List β) :
    (bs.foldl (step p) c).flush.out = c.result p bs := by
  induction bs generalizing c with
  | nil => exact (result_nil c).symm
  | cons b bs ih => rw [List.foldl_cons, ih, result_step]

end Cutting

/-- a list is cut into its maximal runs -/
theorem cut_eq_runs (p : β → Bool) (bs : List β) : cut p bs = runs p bs :=
  Cutting.out_flush_foldl ⟨[], []⟩ bs

/-! ## where a run comes from -/

theorem infix_of_mem_runs {bs run : List β} (h : run ∈ runs p bs) :
    run <:+: bs ∧ ∀ b ∈ run, p b := by
  fun_induction runs p bs with
  | case1 => cases h
  | case2 b bs hb ih =>
    rcases List.mem_cons.1 h with rfl | h
    · have hrun : b :: bs.takeWhile p = (b :: bs).takeWhile p :=
        (List.takeWhile_cons_of_pos hb).symm
      rw [hrun]
      exact ⟨(List.takeWhile_prefix p).isInfix, fun c hc => List.mem_takeWhile_imp hc⟩
    · obtain ⟨hi, hr⟩ := ih h
      exact ⟨hi.trans ((List.dropWhile_suffix p).trans (List.suffix_cons b bs)).isInfix, hr⟩
  | case3 b bs hb ih =>
    obtain ⟨hi, hr⟩ := ih h
    exact ⟨hi.trans (List.suffix_cons b bs).isInfix, hr⟩

theorem infix_of_mem_pieces {α : Type} [Number α] {samples piece : List (α × α)}
    (h : piece ∈ pieces samples) : piece <:+: samples ∧ ∀ s ∈ piece, drawable s.2 := by
  have hmem := (List.mem_filter.1 h).1
  rw [cut_eq_runs] at hmem
  exact infix_of_mem_runs hmem

end CurveStudy.Plot
