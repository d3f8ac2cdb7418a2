import CurveStudy.Proofs.Walk.Basic

/-!
# A walk reads what the reader reads

Each function of `CurveStudy.Expr.Read` against the walk of the same line, both with the same number
of calls allowed.  They end alike: with the same result at the same place, with the same fault, or
cut short both, which they are not if the number goes by the tokens that are left.  On the way each
step keeps the levels between zero and one above the limit, and each line gives back the levels that
it has entered and leaves at least one token behind.

* `Cursor.behind`     the cursor that goes with a place in the list;
* `Walker.Sound`      the bounds of all levels there have been;
* `Matches`           how a reading and a walk end;
* `Tracks`            a walk that ends as a reading does, from a place and a level on, and how such
                      walks compose;
* `walkSum_tracks`    the walk along a sum, and so on for the other lines.
-/

namespace CurveStudy

namespace Cursor
variable {α : Type} {ts : List (Token α)} {i l : Nat}

/-- the cursor with `i` of the tokens behind it, at the level `l` -/
def behind (ts : List (Token α)) (i l : Nat) : Cursor α := ⟨ts.drop i, l⟩

theorem look_behind : (behind ts i l).look = ts[i]?.map Token.symbol :=
  congrArg (Option.map Token.symbol) List.head?_drop

theorem pos_behind : (behind ts i l).pos = (ts[i]?.map Token.pos).getD 0 := by
  rw [← List.head?_drop, pos, behind]
  cases ts.drop i <;> rfl

@[simp] theorem skip_behind : (behind ts i l).skip = behind ts (i + 1) l := by
  rw [skip, behind, List.tail_drop]
  rfl

@[simp] theorem leave_behind (k : Nat) : (behind ts i (l + k)).leave k = behind ts i l := by
  rw [leave, behind, Nat.add_sub_cancel]
  rfl

theorem behind_of_getElem? {t : Token α} (h : ts[i]? = some t) :
    i < ts.length ∧ behind ts i l = ⟨t :: ts.drop (i + 1), l⟩ := by
  obtain ⟨hi, rfl⟩ := List.getElem?_eq_some_iff.1 h
  exact ⟨hi, congrArg (Cursor.mk · l) (List.drop_eq_getElem_cons hi)⟩

theorem behind_of_getElem?_eq_none (h : ts[i]? = none) : behind ts i l = ⟨[], l⟩ :=
  congrArg (Cursor.mk · l) (List.drop_eq_nil_of_le (List.getElem?_eq_none_iff.1 h))

theorem lt_of_look_behind {s : Symbol α} (h : (behind ts i l).look = some s) : i < ts.length := by
  rw [look_behind] at h
  obtain ⟨t, ht, -⟩ := Option.map_eq_some_iff.1 h
  exact (List.getElem?_eq_some_iff.1 ht).1

end Cursor

open Cursor (behind)

namespace Walker
variable {α : Type}

/-- the level was never below zero and never more than one above the limit -/
def Sound (s : Walker) : Prop := ∀ v ∈ s.level :: s.past, 0 ≤ v ∧ v ≤ maxDepth + 1

theorem Sound.setLevel {s : Walker} (h : s.Sound) {v : Int} (h0 : 0 ≤ v) (h1 : v ≤ maxDepth + 1) :
    (s.setLevel v).Sound :=
  List.forall_mem_cons.2 ⟨⟨h0, h1⟩, h⟩

/-- the walker stands with `i` of the tokens behind it, at the level `l` -/
structure At (ts : List (Token α)) (i l : Nat) (s : Walker) : Prop where
  place_eq : s.place = i
  level_eq : s.level = l
  le : i ≤ ts.length
  sound : s.Sound

theorem at_start {ts : List (Token α)} {i l : Nat} (hi : i ≤ ts.length) (hl : l ≤ maxDepth) :
    At ts i l ⟨i, l, []⟩ := by
  refine ⟨rfl, rfl, hi, fun v hv => ?_⟩
  obtain rfl : v = l := List.mem_singleton.1 hv
  omega

end Walker

/-- How a reading and a walk end: with one result, at the level `l` and with at least `i` tokens
behind, with one fault, or cut short, which `P` excludes. -/
inductive Matches {α β : Type} (P : Prop) (ts : List (Token α)) (i l : Nat) :
    Except Fault (β × Cursor α) → Except Halt β × Walker → Prop where
  | ok {j : Nat} {s : Walker} (b : β) (hj : i ≤ j) (hs : s.At ts j l) :
    Matches P ts i l (.ok (b, behind ts j l)) (.ok b, s)
  | error {s : Walker} (e : Halt) (hi : s.place ≤ ts.length) (hs : s.Sound)
    (he : P → e ≠ .cut) : Matches P ts i l (.error e.reported) (.error e, s)

/-- The walk ends as the reading does, not cut short if `P` holds.  It starts with `i` tokens behind
and at the level `l`, and ends with at least `j` of them behind and at the level `l'`. -/
def Tracks {α β : Type} (P : Prop) (ts : List (Token α)) (i l j l' : Nat)
    (r : Except Fault (β × Cursor α)) (m : Walk β) : Prop :=
  ∀ s : Walker, s.At ts i l → Matches P ts j l' r (m.outcome s)

namespace Tracks
variable {α β γ : Type} {P Q : Prop} {ts : List (Token α)} {i l j l' k l'' : Nat}
  {r : Except Fault (β × Cursor α)} {m : Walk β}

theorem done (b : β) (hj : j ≤ i) : Tracks P ts i l j l (.ok (b, behind ts i l)) (pure b) :=
  fun _ hs => .ok b hj hs

theorem refuse (f : Fault) : Tracks P ts i l j l' (.error f) (Walk.refuse f : Walk β) :=
  fun _ hs => .error (.fault f) (hs.place_eq ▸ hs.le) hs.sound fun _ => nofun

theorem cut (h : ¬P) : Tracks P ts i l j l' (.error .unexpectedEnd) (throw .cut : Walk β) :=
  fun _ hs => .error .cut (hs.place_eq ▸ hs.le) hs.sound fun hp => absurd hp h

theorem mono (h : Tracks Q ts i l j l' r m) (hp : P → Q) (hk : k ≤ j) :
    Tracks P ts i l k l' r m := by
  intro s hs
  generalize ho : m.outcome s = o
  cases ho ▸ h s hs with
  | ok b hj hs => exact .ok b (Nat.le_trans hk hj) hs
  | error e hi hs he => exact .error e hi hs fun h => he (hp h)

/-- a part of a walk, of which `Q` is asked, and what comes behind it -/
theorem bind {f : β × Cursor α → Except Fault (γ × Cursor α)} {g : β → Walk γ}
    (h : Tracks Q ts i l j l' r m) (hp : P → Q)
    (hf : ∀ b n, j ≤ n → n ≤ ts.length → Tracks P ts n l' k l'' (f (b, behind ts n l')) (g b)) :
    Tracks P ts i l k l'' (r >>= f) (m >>= g) := by
  intro s hs
  generalize ho : m.outcome s = o
  cases ho ▸ h s hs with
  | ok b hj hs =>
    rw [Walk.outcome_bind_ok ho]
    exact hf b _ hj hs.le _ hs
  | error e hi hs he =>
    rw [Walk.outcome_bind_error g ho]
    exact .error e hi hs fun h => he (hp h)

/-! ## steps of a walk alone -/

theorem token {g : Option (Token α) → Walk β} (h : Tracks P ts i l j l' r (g ts[i]?)) :
    Tracks P ts i l j l' r (Walk.token ts >>= g) := by
  intro s hs
  rw [Walk.outcome_bind_ok (Walk.outcome_token ts s), hs.place_eq]
  exact h s hs

theorem look {g : Option (Symbol α) → Walk β}
    (h : Tracks P ts i l j l' r (g (behind ts i l).look)) :
    Tracks P ts i l j l' r (Walk.look ts >>= g) := by
  intro s hs
  rw [Walk.outcome_bind_ok (Walk.outcome_look ts s), hs.place_eq, ← Cursor.look_behind (l := l)]
  exact h s hs

theorem pos {g : Nat → Walk β} (h : Tracks P ts i l j l' r (g (behind ts i l).pos)) :
    Tracks P ts i l j l' r (Walk.pos ts >>= g) := by
  intro s hs
  rw [Walk.outcome_bind_ok (Walk.outcome_pos ts s), hs.place_eq, ← Cursor.pos_behind (l := l)]
  exact h s hs

theorem skip {g : Unit → Walk β} (hi : i < ts.length) (h : Tracks P ts (i + 1) l j l' r (g ())) :
    Tracks P ts i l j l' r (Walk.skip >>= g) := by
  intro s hs
  rw [Walk.outcome_bind_ok (Walk.outcome_skip s)]
  exact h _ ⟨congrArg (· + 1) hs.place_eq, hs.level_eq, hi, hs.sound⟩

/-- levels can be given back if they are there -/
theorem leave {n : Nat} {g : Unit → Walk β} (hl : l ≤ maxDepth)
    (h : Tracks P ts i l j l' r (g ())) :
    Tracks P ts i (l + n) j l' r (Walk.leave n >>= g) := by
  intro s hs
  have hv : s.level - n = l := by
    rw [hs.level_eq]
    omega
  rw [Walk.outcome_bind_ok (Walk.outcome_leave n s), hv]
  exact h _ ⟨hs.place_eq, rfl, hs.le, hs.sound.setLevel (by omega) (by omega)⟩

/-! ## steps of both -/

/-- The reader refuses the level before it is there and the walker when it is there, one above the
limit. -/
theorem enter {p : Nat} {f : Cursor α → Except Fault (β × Cursor α)} {g : Unit → Walk β}
    (hl : l ≤ maxDepth)
    (h : l + 1 ≤ maxDepth → Tracks P ts i (l + 1) j l' (f (behind ts i (l + 1))) (g ())) :
    Tracks P ts i l j l' ((behind ts i l).enter p >>= f) (Walk.enter p >>= g) := by
  intro s hs
  have hv : s.level + 1 = (l + 1 : Nat) := by
    rw [hs.level_eq]
    rfl
  have hs' : (s.setLevel (s.level + 1)).At ts i (l + 1) :=
    ⟨hs.place_eq, hv, hs.le, hs.sound.setLevel (by omega) (by omega)⟩
  by_cases hm : l + 1 ≤ maxDepth
  · have hc : (behind ts i l).enter p = .ok (behind ts i (l + 1)) := if_pos hm
    rw [hc, Walk.outcome_bind_ok (Walk.outcome_enter_of_le p (by omega))]
    exact h hm _ hs'
  · have hc : (behind ts i l).enter p = .error (.tooDeep p) := if_neg hm
    rw [hc, Walk.outcome_bind_error g (Walk.outcome_enter_of_lt p (by omega))]
    exact .error (.fault _) (hs'.place_eq ▸ hs.le) hs'.sound fun _ => nofun

theorem joint {g : Option Joint → Walk β}
    (hn : (behind ts i l).joint? = none → Tracks P ts i l j l' r (g none))
    (hs : ∀ o n, (behind ts i l).joint? = some (o, behind ts n l) → i ≤ n → n ≤ ts.length →
      Tracks P ts n l j l' r (g (some o))) :
    Tracks P ts i l j l' r (Walk.joint ts >>= g) := by
  rw [Cursor.joint?, Cursor.skip_behind] at hn hs
  rw [Walk.joint, bind_assoc]
  refine .look ?_
  cases hx : (behind ts i l).look with
  | none =>
    rw [hx] at hn
    exact hn rfl
  | some x =>
    have hi := Cursor.lt_of_look_behind hx
    rw [hx] at hn hs
    cases x with
    | times | slash =>
      dsimp only
      rw [bind_assoc]
      refine .skip hi ?_
      exact hs _ _ rfl (Nat.le_succ i) hi
    | num | name | pi | opening => exact hs _ _ rfl (Nat.le_refl i) (Nat.le_of_lt hi)
    | plus | minus | caret | closing => exact hn rfl

theorem close [Literal α] {p : Nat} {f : Cursor α → Except Fault (β × Cursor α)}
    {g : Unit → Walk β}
    (h : i < ts.length → Tracks P ts (i + 1) l j l' (f (behind ts (i + 1) l)) (g ())) :
    Tracks P ts i l j l' ((behind ts i l).close p >>= f) (Walk.close ts p >>= g) := by
  rw [Walk.close, bind_assoc, Cursor.close, Cursor.skip_behind]
  refine .token ?_
  cases ht : ts[i]? with
  | none =>
    rw [Cursor.behind_of_getElem?_eq_none ht]
    exact .refuse _
  | some t =>
    obtain ⟨hi, hc⟩ := Cursor.behind_of_getElem? (l := l) ht
    rw [hc]
    dsimp only
    rw [bind_assoc]
    refine .skip hi ?_
    cases t.symbol with
    | closing => exact h hi
    | _ => exact .refuse _

/-- the value of an exponent whose tree has been read, one level inside -/
theorem exponentValue [Scalar α] {p : Nat} {b : Bool} {r : Except Fault (Expr α × Cursor α)}
    {m : Walk (Expr α)} (h : Tracks Q ts i (l + 1) j (l + 1) r m) (hp : P → Q)
    (hl : l ≤ maxDepth) :
    Tracks P ts i (l + 1) j l
      (r >>= fun x => Expr.exponentValue p b x.1 >>= fun v => .ok (v, x.2.leave 1))
      (m >>= fun e => Walk.exponentValue p b e >>= fun v =>
        Walk.leave 1 >>= fun _ => pure v) := by
  refine h.bind hp fun e n hn _ => ?_
  dsimp only
  rw [Walk.exponentValue, Cursor.leave_behind]
  cases Expr.exponentValue p b e with
  | ok v =>
    show Tracks P ts n (l + 1) j l (.ok (v, behind ts n l)) (Walk.leave 1 >>= fun _ => pure v)
    refine .leave hl ?_
    exact .done v hn
  | error f => exact .refuse f

end Tracks

/-! ## the lines of the grammar

The calls that are allowed go down by one with each call, and those that are needed by eight with
each token. -/

namespace Expr
variable {α : Type} [Scalar α] [Literal α] {ts : List (Token α)}

mutual
theorem walkSum_tracks (n : Nat) {i l : Nat} (hi : i ≤ ts.length) (hl : l ≤ maxDepth) :
    Tracks (8 * (ts.length - i) + 5 ≤ n) ts i l (i + 1) l (readSum n (behind ts i l))
      (walkSum ts n) := by
  match n with
  | 0 => exact .cut (by omega)
  | n + 1 =>
    rw [readSum, walkSum]
    refine (walkProduct_tracks n hi hl).bind (by omega) fun e j hj _ => ?_
    refine (walkTerms_tracks n hl).bind (by omega) fun es k hk _ => ?_
    exact .done _ (by omega)
termination_by structural n

theorem walkTerms_tracks (n : Nat) {i l : Nat} (hl : l ≤ maxDepth) :
    Tracks (8 * (ts.length - i) + 1 ≤ n) ts i l i l (readTerms n (behind ts i l))
      (walkTerms ts n) := by
  match n with
  | 0 => exact .cut (by omega)
  | n + 1 =>
    have hterm (g : Expr α → Expr α) (hi : i < ts.length) :
        Tracks (8 * (ts.length - i) + 1 ≤ n + 1) ts i l i l
          (readProduct n (behind ts (i + 1) l) >>= fun x => readTerms n x.2 >>= fun y =>
            .ok (g x.1 :: y.1, y.2))
          (Walk.skip >>= fun _ => walkProduct ts n >>= fun e => walkTerms ts n >>= fun es =>
            pure (g e :: es)) := by
      refine .skip hi ?_
      refine (walkProduct_tracks n hi hl).bind (by omega) fun e j hj _ => ?_
      refine (walkTerms_tracks n hl).bind (by omega) fun es k hk _ => ?_
      exact .done _ (by omega)
    rw [readTerms, walkTerms, Cursor.skip_behind]
    refine .look ?_
    cases hs : (behind ts i l).look with
    | none => exact .done _ (Nat.le_refl i)
    | some s =>
      have hi := Cursor.lt_of_look_behind hs
      cases s with
      | plus => exact hterm id hi
      | minus => exact hterm (scale (-1)) hi
      | _ => exact .done _ (Nat.le_refl i)
termination_by structural n

theorem walkProduct_tracks (n : Nat) {i l : Nat} (hi : i ≤ ts.length) (hl : l ≤ maxDepth) :
    Tracks (8 * (ts.length - i) + 4 ≤ n) ts i l (i + 1) l (readProduct n (behind ts i l))
      (walkProduct ts n) := by
  match n with
  | 0 => exact .cut (by omega)
  | n + 1 =>
    rw [readProduct, walkProduct]
    refine (walkSigned_tracks n hi hl).bind (by omega) fun e j hj hjs => ?_
    exact (walkFactors_tracks n (k := 0) e hjs hl).mono (by omega) hj
termination_by structural n

/-- the `k` levels of the operands so far are given back with those of the operands to come -/
theorem walkFactors_tracks (n : Nat) {i k l : Nat} (e : Expr α) (hi : i ≤ ts.length)
    (hl : l + k ≤ maxDepth) :
    Tracks (8 * (ts.length - i) + 4 ≤ n) ts i (l + k) i l
      (readFactors n k e (behind ts i (l + k))) (walkFactors ts n k e) := by
  match n with
  | 0 => exact .cut (by omega)
  | n + 1 =>
    rw [readFactors, walkFactors]
    refine .pos (.joint (fun hj => ?_) fun o m hj hm hms => ?_)
    · rw [hj, Cursor.leave_behind]
      refine .leave (by omega) ?_
      exact .done e (Nat.le_refl i)
    · rw [hj]
      refine .enter hl fun hlt => ?_
      refine (walkSigned_tracks n hms hlt).bind (by omega) fun f j hj hjs => ?_
      exact (walkFactors_tracks n (k := k + 1) (join e f o) hjs hlt).mono (by omega) (by omega)
termination_by structural n

theorem walkSigned_tracks (n : Nat) {i l : Nat} (hi : i ≤ ts.length) (hl : l ≤ maxDepth) :
    Tracks (8 * (ts.length - i) + 3 ≤ n) ts i l (i + 1) l (readSigned n (behind ts i l))
      (walkSigned ts n) := by
  match n with
  | 0 => exact .cut (by omega)
  | n + 1 =>
    have hp := (walkPower_tracks n hi hl).mono (P := 8 * (ts.length - i) + 3 ≤ n + 1) (by omega)
      (Nat.le_refl (i + 1))
    rw [readSigned, walkSigned, Cursor.skip_behind]
    refine .look ?_
    cases hs : (behind ts i l).look with
    | none => exact hp
    | some s =>
      have hi' := Cursor.lt_of_look_behind hs
      cases s with
      | minus =>
        refine .skip hi' ?_
        refine (walkPower_tracks n hi' hl).bind (by omega) fun e j hj _ => ?_
        exact .done _ (by omega)
      | _ => exact hp
termination_by structural n

theorem walkPower_tracks (n : Nat) {i l : Nat} (hi : i ≤ ts.length) (hl : l ≤ maxDepth) :
    Tracks (8 * (ts.length - i) + 2 ≤ n) ts i l (i + 1) l (readPower n (behind ts i l))
      (walkPower ts n) := by
  match n with
  | 0 => exact .cut (by omega)
  | n + 1 =>
    rw [readPower, walkPower]
    refine (walkAtom_tracks n hl).bind (by omega) fun b j hj hjs => .look ?_
    dsimp only
    rw [Cursor.skip_behind]
    cases hs : (behind ts j l).look with
    | none => exact .done _ hj
    | some s =>
      have hj' := Cursor.lt_of_look_behind hs
      cases s with
      | caret =>
        refine .skip hj' ?_
        refine (walkExponent_tracks n hj' hl).bind (by omega) fun v k hk _ => ?_
        exact .done _ (by omega)
      | _ => exact .done _ hj
termination_by structural n

theorem walkExponent_tracks (n : Nat) {i l : Nat} (hi : i ≤ ts.length) (hl : l ≤ maxDepth) :
    Tracks (8 * (ts.length - i) + 3 ≤ n) ts i l (i + 1) l (readExponent n (behind ts i l))
      (walkExponent ts n) := by
  match n with
  | 0 => exact .cut (by omega)
  | n + 1 =>
    rw [readExponent, walkExponent]
    refine .pos (.enter hl fun hlt => .look ?_)
    have hp := walkPower_tracks n hi hlt
    dsimp only
    rw [Cursor.skip_behind]
    cases hs : (behind ts i (l + 1)).look with
    | none => exact hp.exponentValue (by omega) hl
    | some s =>
      have hi' := Cursor.lt_of_look_behind hs
      cases s with
      | minus =>
        refine .skip hi' ?_
        have hp' := (walkPower_tracks n hi' hlt).mono id (Nat.le_succ (i + 1))
        exact hp'.exponentValue (by omega) hl
      | _ => exact hp.exponentValue (by omega) hl
termination_by structural n

theorem walkAtom_tracks (n : Nat) {i l : Nat} (hl : l ≤ maxDepth) :
    Tracks (8 * (ts.length - i) + 1 ≤ n) ts i l (i + 1) l (readAtom n (behind ts i l))
      (walkAtom ts n) := by
  match n with
  | 0 => exact .cut (by omega)
  | n + 1 =>
    rw [readAtom, walkAtom]
    refine .token ?_
    cases ht : ts[i]? with
    | none =>
      rw [Cursor.behind_of_getElem?_eq_none ht]
      exact .refuse _
    | some t =>
      obtain ⟨hi, hc⟩ := Cursor.behind_of_getElem? (l := l) ht
      rw [Cursor.skip_behind, hc]
      refine .skip hi ?_
      dsimp only
      cases t.symbol with
      | num v => exact .done _ (Nat.le_refl _)
      | pi => exact .done _ (Nat.le_refl _)
      | opening => exact (walkBrackets_tracks n hi hl).mono (by omega) (by omega)
      | name w =>
        have ha := walkArgument_tracks n (i := i + 1) t w hl
        dsimp only
        cases Meaning.ofName w with
        | var => exact .done _ (Nat.le_refl _)
        | trig k => exact ha.bind (by omega) fun a j hj _ => .done _ (by omega)
        | sqrt => exact ha.bind (by omega) fun a j hj _ => .done _ (by omega)
        | reserved | unknown => exact .refuse _
      | _ => exact .refuse _
termination_by structural n

/-- the reader has not left the name `t` of the function behind yet -/
theorem walkArgument_tracks (n : Nat) {i l : Nat} (t : Token α) (w : Text) (hl : l ≤ maxDepth) :
    Tracks (8 * (ts.length - i) + 3 ≤ n) ts i l (i + 1) l (readArgument n w ⟨t :: ts.drop i, l⟩)
      (walkArgument ts n w t.pos) := by
  match n with
  | 0 => exact .cut (by omega)
  | n + 1 =>
    have hskip : (Cursor.mk (t :: ts.drop i) l).skip = behind ts i l := rfl
    rw [readArgument, walkArgument, hskip, Cursor.look_behind]
    refine .token ?_
    cases hu : ts[i]? with
    | none => exact .refuse _
    | some u =>
      obtain ⟨hi, hc⟩ := Cursor.behind_of_getElem? (l := l) hu
      rw [Option.map_some, hc]
      dsimp only
      cases u.symbol with
      | opening =>
        refine .skip hi ?_
        exact (walkBrackets_tracks n hi hl).mono (by omega) (by omega)
      | _ => exact .refuse _
termination_by structural n

/-- the reader has not left the opening bracket `t` behind yet -/
theorem walkBrackets_tracks (n : Nat) {i l : Nat} {t : Token α} (hi : i ≤ ts.length)
    (hl : l ≤ maxDepth) :
    Tracks (8 * (ts.length - i) + 6 ≤ n) ts i l (i + 1) l (readBrackets n ⟨t :: ts.drop i, l⟩)
      (walkBrackets ts n t.pos) := by
  match n with
  | 0 => exact .cut (by omega)
  | n + 1 =>
    rw [readBrackets, walkBrackets]
    refine .enter hl fun hlt => ?_
    refine (walkSum_tracks n hi hlt).bind (by omega) fun e j hj _ => ?_
    refine .close fun _ => ?_
    rw [Cursor.leave_behind]
    refine .leave hl ?_
    exact .done e (by omega)
termination_by structural n
end

end Expr

end CurveStudy
