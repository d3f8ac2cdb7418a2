import CurveStudy.Proofs.Grammar.Place

/-!
# Tokens in other places

A reader of tokens takes no decision by their places: if these are changed by a function, it reads
the same, and the place of a fault is changed by this function too.  There is one exception.  Where
there is no token that could give a fault its place the place is zero, whatever the other places
are: for an exponent that is missing at the end of the tokens, if there are too many levels already,
and for a tree with a number that is not finite.

* `Fault.relocate`, `Token.relocate`, `Cursor.relocate`   everything at other places;
* `Fault.Follows`       the same fault at another place, but for the exception;
* `Relocated`           two outcomes, the second one of the tokens at the other places;
* `readSum_relocate`    a sum, and so on for the other lines of the grammar;
* `ofTokens_relocate`   a list of tokens.
-/

namespace CurveStudy

/-- the fault with its place changed by a function -/
def Fault.relocate (m : Nat → Nat) : Fault → Fault
  | empty => empty
  | unexpectedChar c pos => unexpectedChar c (m pos)
  | numeralTooLarge t pos => numeralTooLarge t (m pos)
  | unclosedBracket pos => unclosedBracket (m pos)
  | unmatchedBracket pos => unmatchedBracket (m pos)
  | unexpectedEnd => unexpectedEnd
  | unexpectedToken t pos => unexpectedToken t (m pos)
  | unknownName t pos => unknownName t (m pos)
  | reservedName t pos => reservedName t (m pos)
  | missingArgument t pos => missingArgument t (m pos)
  | variableExponent pos => variableExponent (m pos)
  | nonFiniteNumber pos => nonFiniteNumber (m pos)
  | tooDeep pos => tooDeep (m pos)

/-- the second fault is the first one at its new place, but for the two that have none -/
def Fault.Follows (m : Nat → Nat) (f g : Fault) : Prop :=
  g = f.relocate m ∨ f = g ∧ (f = tooDeep 0 ∨ f = nonFiniteNumber 0)

/-- of two outcomes the second one is that of the same tokens at other places: the result is changed
by `move`, or the place of the fault -/
inductive Relocated {β : Type} (m : Nat → Nat) (move : β → β) :
    Except Fault β → Except Fault β → Prop where
  | ok (b : β) : Relocated m move (.ok b) (.ok (move b))
  | error {f g : Fault} (h : f.Follows m g) : Relocated m move (.error f) (.error g)

namespace Relocated
variable {β γ : Type} {m : Nat → Nat} {move : β → β} {move' : γ → γ} {r s : Except Fault β}

theorem fault (f : Fault) : Relocated m move (.error f) (.error (f.relocate m)) := .error (.inl rfl)

theorem bind {f g : β → Except Fault γ} (h : Relocated m move r s)
    (hf : ∀ b, r = .ok b → Relocated m move' (f b) (g (move b))) :
    Relocated m move' (r >>= f) (s >>= g) := by
  cases h with
  | ok b => exact hf b rfl
  | error h => exact .error h

end Relocated

namespace Token
variable {α : Type}

def relocate (m : Nat → Nat) (t : Token α) : Token α := { t with pos := m t.pos }

end Token

namespace Cursor
variable {α : Type} {m : Nat → Nat} {c : Cursor α}

def relocate (m : Nat → Nat) (c : Cursor α) : Cursor α :=
  { c with rest := c.rest.map (Token.relocate m) }

theorem relocate_cons (m : Nat → Nat) (l : Nat) (t : Token α) (ts : List (Token α)) :
    relocate m ⟨t :: ts, l⟩ = ⟨t.relocate m :: ts.map (Token.relocate m), l⟩ := rfl

theorem look_relocate (m : Nat → Nat) (c : Cursor α) : (c.relocate m).look = c.look := by
  obtain ⟨ts, l⟩ := c
  cases ts <;> rfl

theorem skip_relocate (m : Nat → Nat) (c : Cursor α) : (c.relocate m).skip = c.skip.relocate m := by
  obtain ⟨ts, l⟩ := c
  cases ts <;> rfl

theorem pos_relocate (h : c.rest ≠ []) : (c.relocate m).pos = m c.pos := by
  obtain ⟨ts, l⟩ := c
  cases ts with
  | nil => exact absurd rfl h
  | cons t ts => rfl

/-- at the end both places are zero -/
theorem pos_relocate_of_rest_eq_nil (h : c.rest = []) : c.pos = 0 ∧ (c.relocate m).pos = 0 := by
  obtain ⟨ts, l⟩ := c
  cases h
  exact ⟨rfl, rfl⟩

theorem joint?_relocate (m : Nat → Nat) (c : Cursor α) :
    (c.relocate m).joint? = c.joint?.map (Prod.map id (relocate m)) := by
  rw [joint?, joint?, look_relocate, skip_relocate]
  cases c.look with
  | none => rfl
  | some s => cases s <;> rfl

/-- the fault of a level too many stands at the cursor -/
theorem follows_tooDeep (m : Nat → Nat) (c : Cursor α) :
    (Fault.tooDeep c.pos).Follows m (.tooDeep (c.relocate m).pos) := by
  by_cases h : c.rest = []
  · obtain ⟨h0, hk⟩ := pos_relocate_of_rest_eq_nil (m := m) h
    rw [h0, hk]
    exact .inr ⟨rfl, .inl rfl⟩
  · exact .inl (congrArg Fault.tooDeep (pos_relocate h))

theorem enter_relocate {p q : Nat} (h : (Fault.tooDeep p).Follows m (.tooDeep q)) (c : Cursor α) :
    Relocated m (relocate m) (c.enter p) ((c.relocate m).enter q) := by
  unfold enter
  by_cases hd : c.depth < maxDepth
  · rw [if_pos hd, if_pos (show (c.relocate m).depth < maxDepth from hd)]
    exact .ok _
  · rw [if_neg hd, if_neg (show ¬(c.relocate m).depth < maxDepth from hd)]
    exact .error h

theorem close_relocate [Literal α] (m : Nat → Nat) (p : Nat) (c : Cursor α) :
    Relocated m (relocate m) (c.close p) ((c.relocate m).close (m p)) := by
  obtain ⟨ts, l⟩ := c
  cases ts with
  | nil => exact .fault (.unclosedBracket p)
  | cons t ts =>
    obtain ⟨s, pos⟩ := t
    cases s with
    | closing => exact Relocated.ok (Cursor.mk ts l)
    | _ => exact .fault (.unexpectedToken _ pos)

end Cursor

section
variable {α β γ : Type} {m : Nat → Nat} {move : γ → γ} {r s : Except Fault (β × Cursor α)}

/-- two readings of a part, the second one of the tokens at other places -/
abbrev RelocatedReading (m : Nat → Nat) :
    Except Fault (β × Cursor α) → Except Fault (β × Cursor α) → Prop :=
  Relocated m (Prod.map id (Cursor.relocate m))

theorem Relocated.read (b : β) (d : Cursor α) :
    RelocatedReading m (.ok (b, d)) (.ok (b, d.relocate m)) :=
  .ok (b, d)

theorem Relocated.andThen {f g : β × Cursor α → Except Fault γ} (h : RelocatedReading m r s)
    (hf : ∀ b d, r = .ok (b, d) → Relocated m move (f (b, d)) (g (b, d.relocate m))) :
    Relocated m move (r >>= f) (s >>= g) :=
  h.bind fun (b, d) => hf b d

end

namespace Grammar
open CurveStudy.Expr

variable {α β : Type} {m : Nat → Nat}

variable [Scalar α]

theorem exponentValue_relocate (m : Nat → Nat) (p : Nat) (b : Bool) (e : Expr α) :
    Relocated m id (exponentValue p b e) (exponentValue (m p) b e) := by
  rw [exponentValue, exponentValue]
  by_cases hv : e.hasVar
  · rw [if_pos hv, if_pos hv]
    exact .fault (.variableExponent p)
  · rw [if_neg hv, if_neg hv]
    by_cases hf : Scalar.isFinite (if b then -e.eval 0 else e.eval 0)
    · rw [if_pos hf, if_pos hf]
      exact .ok _
    · rw [if_neg hf, if_neg hf]
      exact .fault (.nonFiniteNumber p)

variable [Literal α]

/-- the value of an exponent that was read: it has a token, and its place is that of this token -/
theorem readPower_exponentValue_relocate {n : Nat} (b : Bool) (c d : Cursor α)
    (hd : d.rest ≠ [] → c.rest ≠ [])
    (h : RelocatedReading m (readPower n d) (readPower n (d.relocate m))) :
    RelocatedReading m
      (readPower n d >>= fun r => exponentValue c.pos b r.1 >>= fun v => .ok (v, r.2.leave 1))
      (readPower n (d.relocate m) >>= fun r =>
        exponentValue (c.relocate m).pos b r.1 >>= fun v => .ok (v, r.2.leave 1)) := by
  refine h.andThen fun e d' hr => ?_
  -- only an exponent that was read has a value to refuse
  rw [Cursor.pos_relocate (hd (rest_ne_nil_of_readPower hr))]
  exact (exponentValue_relocate m c.pos b e).bind fun v _ => .read v (d'.leave 1)

mutual
theorem readSum_relocate (m : Nat → Nat) (n : Nat) (c : Cursor α) :
    RelocatedReading m (readSum n c) (readSum n (c.relocate m)) := by
  match n with
  | 0 => exact .fault .unexpectedEnd
  | n + 1 =>
    rw [readSum, readSum]
    refine (readProduct_relocate m n c).andThen fun e d _ => ?_
    exact (readTerms_relocate m n d).andThen fun es d' _ => .read _ d'
termination_by structural n

theorem readTerms_relocate (m : Nat → Nat) (n : Nat) (c : Cursor α) :
    RelocatedReading m (readTerms n c) (readTerms n (c.relocate m)) := by
  match n with
  | 0 => exact .fault .unexpectedEnd
  | n + 1 =>
    rw [readTerms, readTerms, Cursor.look_relocate, Cursor.skip_relocate]
    cases c.look with
    | none => exact .read [] c
    | some s =>
      cases s with
      | plus | minus =>
        refine (readProduct_relocate m n c.skip).andThen fun e d _ => ?_
        exact (readTerms_relocate m n d).andThen fun es d' _ => .read _ d'
      | _ => exact .read [] c
termination_by structural n

theorem readProduct_relocate (m : Nat → Nat) (n : Nat) (c : Cursor α) :
    RelocatedReading m (readProduct n c) (readProduct n (c.relocate m)) := by
  match n with
  | 0 => exact .fault .unexpectedEnd
  | n + 1 =>
    rw [readProduct, readProduct]
    exact (readSigned_relocate m n c).andThen fun e d _ => readFactors_relocate m n 0 e d
termination_by structural n

theorem readFactors_relocate (m : Nat → Nat) (n l : Nat) (e : Expr α) (c : Cursor α) :
    RelocatedReading m (readFactors n l e c) (readFactors n l e (c.relocate m)) := by
  match n with
  | 0 => exact .fault .unexpectedEnd
  | n + 1 =>
    rw [readFactors, readFactors, Cursor.joint?_relocate]
    cases c.joint? with
    | none => exact .read e (c.leave l)
    | some jd =>
      obtain ⟨j, d⟩ := jd
      refine (Cursor.enter_relocate (Cursor.follows_tooDeep m c) d).bind fun d _ => ?_
      refine (readSigned_relocate m n d).andThen fun f d' _ => ?_
      exact readFactors_relocate m n (l + 1) (join e f j) d'
termination_by structural n

theorem readSigned_relocate (m : Nat → Nat) (n : Nat) (c : Cursor α) :
    RelocatedReading m (readSigned n c) (readSigned n (c.relocate m)) := by
  match n with
  | 0 => exact .fault .unexpectedEnd
  | n + 1 =>
    rw [readSigned, readSigned, Cursor.look_relocate, Cursor.skip_relocate]
    cases c.look with
    | none => exact readPower_relocate m n c
    | some s =>
      cases s with
      | minus => exact (readPower_relocate m n c.skip).andThen fun e d _ => .read _ d
      | _ => exact readPower_relocate m n c
termination_by structural n

theorem readPower_relocate (m : Nat → Nat) (n : Nat) (c : Cursor α) :
    RelocatedReading m (readPower n c) (readPower n (c.relocate m)) := by
  match n with
  | 0 => exact .fault .unexpectedEnd
  | n + 1 =>
    rw [readPower, readPower]
    refine (readAtom_relocate m n c).andThen fun b d _ => ?_
    dsimp only
    rw [Cursor.look_relocate, Cursor.skip_relocate]
    cases d.look with
    | none => exact .read b d
    | some s =>
      cases s with
      | caret => exact (readExponent_relocate m n d.skip).andThen fun v d' _ => .read _ d'
      | _ => exact .read b d
termination_by structural n

theorem readExponent_relocate (m : Nat → Nat) (n : Nat) (c : Cursor α) :
    RelocatedReading m (readExponent n c) (readExponent n (c.relocate m)) := by
  match n with
  | 0 => exact .fault .unexpectedEnd
  | n + 1 =>
    rw [readExponent, readExponent]
    refine (Cursor.enter_relocate (Cursor.follows_tooDeep m c) c).bind fun d hd => ?_
    obtain ⟨-, rfl⟩ := Cursor.enter_eq_ok_iff.1 hd
    have unsigned := readPower_exponentValue_relocate false c { c with depth := c.depth + 1 }
      (fun h => h) (readPower_relocate m n _)
    rw [Cursor.look_relocate, Cursor.skip_relocate]
    cases hs : Cursor.look { c with depth := c.depth + 1 } with
    | none => exact unsigned
    | some s =>
      cases s with
      | minus =>
        exact readPower_exponentValue_relocate true c (Cursor.skip { c with depth := c.depth + 1 })
          (fun _ => rest_ne_nil_of_look hs) (readPower_relocate m n _)
      | _ => exact unsigned
termination_by structural n

theorem readAtom_relocate (m : Nat → Nat) (n : Nat) (c : Cursor α) :
    RelocatedReading m (readAtom n c) (readAtom n (c.relocate m)) := by
  match n with
  | 0 => exact .fault .unexpectedEnd
  | n + 1 =>
    obtain ⟨ts, l⟩ := c
    cases ts with
    | nil => exact .fault .unexpectedEnd
    | cons t ts =>
      have brackets := readBrackets_relocate m n t ts l
      have argument := fun w => readArgument_relocate m n w t ts l
      rw [Cursor.relocate_cons] at brackets argument ⊢
      rw [readAtom, readAtom]
      obtain ⟨s, pos⟩ := t
      cases s with
      | num v => exact .read _ ⟨ts, l⟩
      | pi => exact .read _ ⟨ts, l⟩
      | opening => exact brackets
      | closing => exact .fault (.unmatchedBracket pos)
      | name w =>
        dsimp only [Token.relocate]
        cases Meaning.ofName w with
        | var => exact .read _ ⟨ts, l⟩
        | trig f => exact (argument w).andThen fun a d _ => .read _ d
        | sqrt => exact (argument w).andThen fun a d _ => .read _ d
        | reserved => exact .fault (.reservedName w pos)
        | unknown => exact .fault (.unknownName w pos)
      | _ => exact .fault (.unexpectedToken _ pos)
termination_by structural n

theorem readArgument_relocate (m : Nat → Nat) (n : Nat) (w : Text) (t : Token α)
    (ts : List (Token α)) (l : Nat) : RelocatedReading m (readArgument n w ⟨t :: ts, l⟩)
      (readArgument n w (Cursor.relocate m ⟨t :: ts, l⟩)) := by
  match n with
  | 0 => exact .fault .unexpectedEnd
  | n + 1 =>
    rw [readArgument, readArgument]
    cases ts with
    | nil => exact .fault (.missingArgument w t.pos)
    | cons u us =>
      have brackets := readBrackets_relocate m n u us l
      obtain ⟨s, pos⟩ := u
      cases s with
      | opening => exact brackets
      | _ => exact .fault (.missingArgument w t.pos)
termination_by structural n

theorem readBrackets_relocate (m : Nat → Nat) (n : Nat) (t : Token α) (ts : List (Token α))
    (l : Nat) : RelocatedReading m (readBrackets n ⟨t :: ts, l⟩)
      (readBrackets n (Cursor.relocate m ⟨t :: ts, l⟩)) := by
  match n with
  | 0 => exact .fault .unexpectedEnd
  | n + 1 =>
    rw [readBrackets, readBrackets]
    refine (Cursor.enter_relocate (.inl rfl) ⟨ts, l⟩).bind fun d _ => ?_
    refine (readSum_relocate m n d).andThen fun e d' _ => ?_
    exact (Cursor.close_relocate m t.pos d').bind fun c _ => .read e (c.leave 1)
termination_by structural n
end

end Grammar

namespace Expr
variable {α : Type}

theorem fuelFor_map_relocate (m : Nat → Nat) (ts : List (Token α)) :
    fuelFor (ts.map (Token.relocate m)) = fuelFor ts := by
  rw [fuelFor, fuelFor, List.length_map]

variable [Literal α]

theorem leftover_relocate (m : Nat → Nat) (t : Token α) :
    leftover (t.relocate m) = (leftover t).relocate m := by
  obtain ⟨s, pos⟩ := t
  cases s <;> rfl

variable [Scalar α]

/-- the tree of the tokens at other places -/
theorem ofTokens_relocate (m : Nat → Nat) (ts : List (Token α)) :
    Relocated m id (ofTokens ts) (ofTokens (ts.map (Token.relocate m))) := by
  rw [ofTokens, ofTokens, List.isEmpty_map, fuelFor_map_relocate]
  by_cases hts : ts.isEmpty
  · rw [if_pos hts, if_pos hts]
    exact .fault .empty
  · rw [if_neg hts, if_neg hts]
    refine (Grammar.readSum_relocate m (fuelFor ts) ⟨ts, 0⟩).andThen fun e d _ => ?_
    obtain ⟨us, l⟩ := d
    cases us with
    | cons u us =>
      show Relocated m id (.error (leftover u)) (.error (leftover (u.relocate m)))
      rw [leftover_relocate]
      exact .fault (leftover u)
    | nil =>
      show Relocated m id (if e.isFinite then _ else _) (if e.isFinite then _ else _)
      by_cases hf : e.isFinite
      · rw [if_pos hf]
        exact .ok e
      · rw [if_neg hf]
        exact .error (.inr ⟨rfl, .inr rfl⟩)

end Expr

end CurveStudy
