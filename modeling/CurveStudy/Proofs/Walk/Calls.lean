import CurveStudy.Proofs.Walk.Basic

/-!
# More calls

If a walk is allowed more calls it ends as before, unless it was cut short.  So all walks along a
line that are not cut short are one walk.

* `Walk.Extends`                 the second walk ends as the first one does, unless that is cut
                                 short;
* `Walk.outcome_eq_of_extends`   walks of which each extends the one before it;
* `walkSum_extends`              a sum with one call more, and so on for the other lines of the
                                 grammar.
-/

namespace CurveStudy

namespace Walk

/-- the second walk ends as the first one does, unless that is cut short -/
def Extends {β : Type} (m m' : Walk β) : Prop :=
  ∀ s, (m.outcome s).1 ≠ .error .cut → m'.outcome s = m.outcome s

namespace Extends
variable {β γ : Type} {m m' : Walk β}

theorem refl (m : Walk β) : Extends m m := fun _ _ => rfl

theorem cut (m : Walk β) : Extends (throw .cut) m := fun _ h => absurd rfl h

theorem bind {g g' : β → Walk γ} (h : Extends m m') (hg : ∀ b, Extends (g b) (g' b)) :
    Extends (m >>= g) (m' >>= g') := by
  intro s hc
  -- the first part is not cut short itself, or the whole would be
  obtain ⟨r, s', ho⟩ : ∃ r s', m.outcome s = (r, s') := ⟨_, _, rfl⟩
  have hm (hr : r ≠ .error .cut) : m'.outcome s = (r, s') := by
    rw [h s (by rwa [ho]), ho]
  cases r with
  | ok b =>
    rw [outcome_bind_ok ho] at hc ⊢
    rw [outcome_bind_ok (hm nofun)]
    exact hg b s' hc
  | error e =>
    rw [outcome_bind_error g ho] at hc ⊢
    exact outcome_bind_error g' (hm fun h => hc (congrArg Except.error (Except.error.inj h)))

end Extends

/-- all walks with at least the calls of one that is not cut short end as this one does -/
theorem outcome_eq_of_extends {β : Type} {m : Nat → Walk β} (h : ∀ n, Extends (m n) (m (n + 1)))
    {k n : Nat} (hn : k ≤ n) {s : Walker} (hk : ((m k).outcome s).1 ≠ .error .cut) :
    (m n).outcome s = (m k).outcome s := by
  induction hn with
  | refl => rfl
  | step hn ih => rw [h _ s (by rwa [ih]), ih]

end Walk

namespace Expr
open Walk (Extends)
variable {α : Type} [Scalar α] [Literal α] (ts : List (Token α))

mutual
theorem walkSum_extends (n : Nat) : Extends (walkSum ts n) (walkSum ts (n + 1)) := by
  match n with
  | 0 => exact .cut _
  | n + 1 =>
    rw [walkSum, walkSum]
    refine (walkProduct_extends n).bind fun e => ?_
    exact (walkTerms_extends n).bind fun es => .refl _
termination_by structural n

theorem walkTerms_extends (n : Nat) : Extends (walkTerms ts n) (walkTerms ts (n + 1)) := by
  match n with
  | 0 => exact .cut _
  | n + 1 =>
    have hterm (g : Expr α → Expr α) : Extends
        (Walk.skip >>= fun _ => walkProduct ts n >>= fun e => walkTerms ts n >>= fun es =>
          pure (g e :: es))
        (Walk.skip >>= fun _ => walkProduct ts (n + 1) >>= fun e => walkTerms ts (n + 1) >>=
          fun es => pure (g e :: es)) :=
      (Extends.refl _).bind fun _ => (walkProduct_extends n).bind fun e =>
        (walkTerms_extends n).bind fun es => .refl _
    rw [walkTerms, walkTerms]
    refine (Extends.refl _).bind fun x => ?_
    cases x with
    | none => exact .refl _
    | some s =>
      cases s with
      | plus => exact hterm id
      | minus => exact hterm (scale (-1))
      | _ => exact .refl _
termination_by structural n

theorem walkProduct_extends (n : Nat) : Extends (walkProduct ts n) (walkProduct ts (n + 1)) := by
  match n with
  | 0 => exact .cut _
  | n + 1 =>
    rw [walkProduct, walkProduct]
    exact (walkSigned_extends n).bind fun e => walkFactors_extends n 0 e
termination_by structural n

theorem walkFactors_extends (n levels : Nat) (e : Expr α) :
    Extends (walkFactors ts n levels e) (walkFactors ts (n + 1) levels e) := by
  match n with
  | 0 => exact .cut _
  | n + 1 =>
    rw [walkFactors, walkFactors]
    refine (Extends.refl _).bind fun p => (Extends.refl _).bind fun o => ?_
    cases o with
    | none => exact .refl _
    | some j =>
      refine (Extends.refl _).bind fun _ => (walkSigned_extends n).bind fun f => ?_
      exact walkFactors_extends n (levels + 1) (join e f j)
termination_by structural n

theorem walkSigned_extends (n : Nat) : Extends (walkSigned ts n) (walkSigned ts (n + 1)) := by
  match n with
  | 0 => exact .cut _
  | n + 1 =>
    rw [walkSigned, walkSigned]
    refine (Extends.refl _).bind fun x => ?_
    cases x with
    | none => exact walkPower_extends n
    | some s =>
      cases s with
      | minus => exact (Extends.refl _).bind fun _ => (walkPower_extends n).bind fun e => .refl _
      | _ => exact walkPower_extends n
termination_by structural n

theorem walkPower_extends (n : Nat) : Extends (walkPower ts n) (walkPower ts (n + 1)) := by
  match n with
  | 0 => exact .cut _
  | n + 1 =>
    rw [walkPower, walkPower]
    refine (walkAtom_extends n).bind fun b => (Extends.refl _).bind fun x => ?_
    cases x with
    | none => exact .refl _
    | some s =>
      cases s with
      | caret => exact (Extends.refl _).bind fun _ => (walkExponent_extends n).bind fun v => .refl _
      | _ => exact .refl _
termination_by structural n

theorem walkExponent_extends (n : Nat) :
    Extends (walkExponent ts n) (walkExponent ts (n + 1)) := by
  match n with
  | 0 => exact .cut _
  | n + 1 =>
    rw [walkExponent, walkExponent]
    refine (Extends.refl _).bind fun p => (Extends.refl _).bind fun _ => ?_
    refine (Extends.refl _).bind fun x => ?_
    cases x with
    | none => exact (walkPower_extends n).bind fun e => .refl _
    | some s =>
      cases s with
      | minus => exact (Extends.refl _).bind fun _ => (walkPower_extends n).bind fun e => .refl _
      | _ => exact (walkPower_extends n).bind fun e => .refl _
termination_by structural n

theorem walkAtom_extends (n : Nat) : Extends (walkAtom ts n) (walkAtom ts (n + 1)) := by
  match n with
  | 0 => exact .cut _
  | n + 1 =>
    rw [walkAtom, walkAtom]
    refine (Extends.refl _).bind fun x => ?_
    cases x with
    | none => exact .refl _
    | some t =>
      refine (Extends.refl _).bind fun _ => ?_
      cases t.symbol with
      | opening => exact walkBrackets_extends n t.pos
      | name w =>
        dsimp only
        cases Meaning.ofName w with
        | trig k => exact (walkArgument_extends n w t.pos).bind fun a => .refl _
        | sqrt => exact (walkArgument_extends n w t.pos).bind fun a => .refl _
        | _ => exact .refl _
      | _ => exact .refl _
termination_by structural n

theorem walkArgument_extends (n : Nat) (w : Text) (p : Nat) :
    Extends (walkArgument ts n w p) (walkArgument ts (n + 1) w p) := by
  match n with
  | 0 => exact .cut _
  | n + 1 =>
    rw [walkArgument, walkArgument]
    refine (Extends.refl _).bind fun x => ?_
    cases x with
    | none => exact .refl _
    | some t =>
      dsimp only
      cases t.symbol with
      | opening => exact (Extends.refl _).bind fun _ => walkBrackets_extends n t.pos
      | _ => exact .refl _
termination_by structural n

theorem walkBrackets_extends (n p : Nat) :
    Extends (walkBrackets ts n p) (walkBrackets ts (n + 1) p) := by
  match n with
  | 0 => exact .cut _
  | n + 1 =>
    rw [walkBrackets, walkBrackets]
    exact (Extends.refl _).bind fun _ => (walkSum_extends n).bind fun e => .refl _
termination_by structural n
end

end Expr

end CurveStudy
