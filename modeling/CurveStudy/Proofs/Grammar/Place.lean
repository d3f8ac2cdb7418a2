import Mathlib.Tactic.Ring
import CurveStudy.Proofs.Grammar.Derived

/-!
# Where a refused exponent starts

An exponent whose value is not finite is refused at the place of its first token.  That token is
one of those that were to be read, and never the first of them, which cannot be an exponent.

* `Keeps`            what is left are the last of the tokens, and an exponent is refused at one of
                     them;
* `readSum_keeps`    the tokens behind the first of a sum, and so on for the other lines.
-/

namespace CurveStudy.Grammar
open CurveStudy.Expr

variable {α β γ : Type}

/-- what is left after a reading are the last of the tokens `ts`, and an exponent whose value is
not finite starts at one of them -/
structure Keeps (ts : List (Token α)) (r : Except Fault (β × Cursor α)) : Prop where
  rest : ∀ b d, r = .ok (b, d) → d.rest <:+ ts
  place : ∀ pos, r = .error (.nonFiniteNumber pos) → ∃ t ∈ ts, t.pos = pos

namespace Keeps
variable {ts us : List (Token α)} {r : Except Fault (β × Cursor α)}

theorem ok {b : β} {d : Cursor α} (h : d.rest <:+ ts) : Keeps ts (.ok (b, d)) := by
  refine ⟨?_, nofun⟩
  rintro _ _ ⟨⟩
  exact h

theorem error {f : Fault} (h : ∀ pos, f ≠ .nonFiniteNumber pos) :
    Keeps ts (.error f : Except Fault (β × Cursor α)) :=
  ⟨nofun, fun pos hf => absurd (Except.error.inj hf) (h pos)⟩

theorem mono (h : Keeps ts r) (hu : ts <:+ us) : Keeps us r := by
  refine ⟨fun b d hr => (h.rest b d hr).trans hu, fun pos hr => ?_⟩
  obtain ⟨t, ht, hp⟩ := h.place pos hr
  exact ⟨t, hu.subset ht, hp⟩

theorem bind {f : β × Cursor α → Except Fault (γ × Cursor α)} (h : Keeps ts r)
    (hf : ∀ b d, r = .ok (b, d) → d.rest <:+ ts → Keeps ts (f (b, d))) : Keeps ts (r >>= f) := by
  cases r with
  | error e =>
    exact ⟨nofun, fun pos he => h.place pos (congrArg Except.error (Except.error.inj he))⟩
  | ok p => exact hf p.1 p.2 rfl (h.rest p.1 p.2 rfl)

theorem enter {c : Cursor α} {pos : Nat} {f : Cursor α → Except Fault (β × Cursor α)}
    (h : Keeps ts (f { c with depth := c.depth + 1 })) : Keeps ts (c.enter pos >>= f) := by
  by_cases hd : c.depth < maxDepth
  · rw [Cursor.enter_eq_ok_iff.2 ⟨hd, rfl⟩]
    exact h
  · have he : c.enter pos = .error (.tooDeep pos) := if_neg hd
    rw [he]
    exact error nofun

end Keeps

section
variable {ts : List (Token α)} {c : Cursor α}

theorem exists_pos_of_rest_ne_nil (h : c.rest ≠ []) : ∃ t ∈ c.rest, t.pos = c.pos := by
  obtain ⟨t, us, hr⟩ := List.exists_cons_of_ne_nil h
  refine ⟨t, hr ▸ List.mem_cons_self .., ?_⟩
  rw [Cursor.pos, hr]

theorem rest_ne_nil_of_look {s : Symbol α} (h : c.look = some s) : c.rest ≠ [] := by
  intro hr
  rw [Cursor.look, hr] at h
  cases h

theorem suffix_of_joint? {d : Cursor α} {j : Joint} (h : c.joint? = some (j, d)) :
    d.rest <:+ c.rest := by
  rcases joint?_eq_some h with ⟨-, -, rfl⟩ | ⟨-, -, rfl⟩ | ⟨-, -, -, -, rfl⟩
  · exact List.tail_suffix _
  · exact List.tail_suffix _
  · exact List.suffix_rfl

theorem close_keeps [Literal α] {b : β} {pos : Nat} (hc : c.rest <:+ ts) :
    Keeps ts (c.close pos >>= fun d => .ok (b, d.leave 1)) := by
  unfold Cursor.close
  split
  · exact .error fun _ h => Fault.noConfusion h
  · split
    · exact .ok ((List.tail_suffix c.rest).trans hc)
    · exact .error fun _ h => Fault.noConfusion h

variable [Scalar α]

theorem exponentValue_eq_error {pos : Nat} {b : Bool} {e : Expr α} {f : Fault}
    (h : exponentValue pos b e = .error f) :
    f = .variableExponent pos ∨ f = .nonFiniteNumber pos := by
  rw [exponentValue] at h
  by_cases hv : e.hasVar
  · rw [if_pos hv] at h
    exact .inl (Except.error.inj h).symm
  · rw [if_neg hv] at h
    by_cases hf : Scalar.isFinite (if b then -e.eval 0 else e.eval 0)
    · rw [if_pos hf] at h
      cases h
    · rw [if_neg hf] at h
      exact .inr (Except.error.inj h).symm

theorem exponentValue_keeps {pos : Nat} {b : Bool} {e : Expr α} (hc : c.rest <:+ ts)
    (hp : ∃ t ∈ ts, t.pos = pos) :
    Keeps ts (exponentValue pos b e >>= fun v => .ok (v, c.leave 1)) := by
  cases he : exponentValue pos b e with
  | ok v => exact .ok hc
  | error f =>
    rcases exponentValue_eq_error he with rfl | rfl
    · exact .error nofun
    · refine ⟨nofun, ?_⟩
      rintro _ ⟨⟩
      exact hp

variable [Literal α]

/-- an exponent is not empty -/
theorem rest_ne_nil_of_readPower {n : Nat} {r : Expr α × Cursor α} (h : readPower n c = .ok r) :
    c.rest ≠ [] := by
  obtain ⟨ts, l⟩ := c
  rintro rfl
  match n, h with
  | 0, h => cases h
  | 1, h => cases h
  | _ + 2, h => cases h

mutual
theorem readSum_keeps (n : Nat) (c : Cursor α) : Keeps c.rest.tail (readSum n c) := by
  match n with
  | 0 => exact .error nofun
  | n + 1 =>
    rw [readSum]
    refine (readProduct_keeps n c).bind fun e d _ hd => ?_
    refine ((readTerms_keeps n d).mono hd).bind fun es d' _ hd' => .ok hd'
termination_by structural n

theorem readTerms_keeps (n : Nat) (c : Cursor α) : Keeps c.rest (readTerms n c) := by
  match n with
  | 0 => exact .error nofun
  | n + 1 =>
    have operand : Keeps c.rest (readProduct n c.skip) :=
      (readProduct_keeps n c.skip).mono ((List.tail_suffix _).trans (List.tail_suffix _))
    rw [readTerms]
    split
    · refine operand.bind fun e d _ hd => ?_
      exact ((readTerms_keeps n d).mono hd).bind fun es d' _ hd' => .ok hd'
    · refine operand.bind fun e d _ hd => ?_
      exact ((readTerms_keeps n d).mono hd).bind fun es d' _ hd' => .ok hd'
    · exact .ok List.suffix_rfl
termination_by structural n

theorem readProduct_keeps (n : Nat) (c : Cursor α) : Keeps c.rest.tail (readProduct n c) := by
  match n with
  | 0 => exact .error nofun
  | n + 1 =>
    rw [readProduct]
    exact (readSigned_keeps n c).bind fun e d _ hd => (readFactors_keeps n 0 e d).mono hd
termination_by structural n

theorem readFactors_keeps (n k : Nat) (e : Expr α) (c : Cursor α) :
    Keeps c.rest (readFactors n k e c) := by
  match n with
  | 0 => exact .error nofun
  | n + 1 =>
    rw [readFactors]
    split
    · rename_i j d hj
      refine .enter ?_
      have hd : d.rest.tail <:+ c.rest := (List.tail_suffix _).trans (suffix_of_joint? hj)
      refine ((readSigned_keeps n { d with depth := d.depth + 1 }).mono hd).bind ?_
      exact fun f d' _ hd' => (readFactors_keeps n (k + 1) (join e f j) d').mono hd'
    · exact .ok List.suffix_rfl
termination_by structural n

theorem readSigned_keeps (n : Nat) (c : Cursor α) : Keeps c.rest.tail (readSigned n c) := by
  match n with
  | 0 => exact .error nofun
  | n + 1 =>
    rw [readSigned]
    split
    · refine ((readPower_keeps n c.skip).mono (List.tail_suffix _)).bind ?_
      exact fun e d _ hd => .ok hd
    · exact readPower_keeps n c
termination_by structural n

theorem readPower_keeps (n : Nat) (c : Cursor α) : Keeps c.rest.tail (readPower n c) := by
  match n with
  | 0 => exact .error nofun
  | n + 1 =>
    rw [readPower]
    refine (readAtom_keeps n c).bind fun b d _ hd => ?_
    dsimp only
    split
    · have h := (readExponent_keeps n d.skip).mono (List.tail_suffix d.rest)
      exact (h.mono hd).bind fun v d' _ hd' => .ok hd'
    · exact .ok hd
termination_by structural n

theorem readExponent_keeps (n : Nat) (c : Cursor α) : Keeps c.rest (readExponent n c) := by
  match n with
  | 0 => exact .error nofun
  | n + 1 =>
    rw [readExponent]
    refine .enter ?_
    dsimp only
    split
    · rename_i hs
      have h := (readPower_keeps n (Cursor.skip { c with depth := c.depth + 1 })).mono
        ((List.tail_suffix _).trans (List.tail_suffix c.rest))
      refine h.bind fun e d _ hd => ?_
      exact exponentValue_keeps hd (exists_pos_of_rest_ne_nil (rest_ne_nil_of_look hs))
    · have h := (readPower_keeps n { c with depth := c.depth + 1 }).mono (List.tail_suffix c.rest)
      refine h.bind fun e d hr hd => ?_
      have hc : c.rest ≠ [] := rest_ne_nil_of_readPower (c := ⟨c.rest, c.depth + 1⟩) hr
      exact exponentValue_keeps hd (exists_pos_of_rest_ne_nil hc)
termination_by structural n

theorem readAtom_keeps (n : Nat) (c : Cursor α) : Keeps c.rest.tail (readAtom n c) := by
  match n with
  | 0 => exact .error nofun
  | n + 1 =>
    rw [readAtom]
    split
    · exact .error nofun
    · split
      · exact .ok List.suffix_rfl
      · exact .ok List.suffix_rfl
      · exact readBrackets_keeps n c
      · exact .error nofun
      · split
        · exact .ok List.suffix_rfl
        · exact (readArgument_keeps n _ c).bind fun a d _ hd => .ok hd
        · exact (readArgument_keeps n _ c).bind fun a d _ hd => .ok hd
        · exact .error nofun
        · exact .error nofun
      · exact .error nofun
termination_by structural n

theorem readArgument_keeps (n : Nat) (w : Text) (c : Cursor α) :
    Keeps c.rest.tail (readArgument n w c) := by
  match n with
  | 0 => exact .error nofun
  | n + 1 =>
    rw [readArgument]
    split
    · exact (readBrackets_keeps n c.skip).mono (List.tail_suffix _)
    · exact .error nofun
termination_by structural n

theorem readBrackets_keeps (n : Nat) (c : Cursor α) : Keeps c.rest.tail (readBrackets n c) := by
  match n with
  | 0 => exact .error nofun
  | n + 1 =>
    rw [readBrackets]
    refine .enter ?_
    have h := (readSum_keeps n { c.skip with depth := c.skip.depth + 1 }).mono
      (List.tail_suffix c.skip.rest)
    exact h.bind fun e d _ hd => close_keeps hd
termination_by structural n
end

end

end CurveStudy.Grammar
