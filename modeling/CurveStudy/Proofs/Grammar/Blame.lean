import CurveStudy.Proofs.Grammar.Levels
import CurveStudy.Proofs.Grammar.Place

/-!
# What a fault stands at

A fault of the grammar that has a place stands at the token it is about.

* `readSum_ends`    what follows a sum that was read cannot go on with it, and so on for the other
                    lines;
* `Culprit`         the token that a fault is about;
* `Behind`          the tokens in front of a cursor and their levels;
* `readSum_blames`  the fault of a sum, and so on for the other lines;
* `ofTokens_blames` the fault of a list of tokens.
-/

namespace CurveStudy.Grammar
open CurveStudy.Expr Levels

variable {α : Type}

theorem cases_of_bind_eq_error {ε β γ : Type} {r : Except ε β} {f : β → Except ε γ} {e : ε}
    (h : r >>= f = .error e) : r = .error e ∨ ∃ b, r = .ok b ∧ f b = .error e := by
  cases r with
  | error e' => exact .inl (congrArg Except.error (Except.error.inj h))
  | ok b => exact .inr ⟨b, rfl, h⟩

theorem bind_eq_error_of_ok {ε β γ : Type} {r : Except ε β} {f : β → Except ε γ} {b : β} {e : ε}
    (h : r = .ok b) (hf : f b = .error e) : r >>= f = .error e := by
  rw [h]
  exact hf

theorem enter_eq_error {c : Cursor α} {pos : Nat} {f : Fault} (h : c.enter pos = .error f) :
    maxDepth ≤ c.depth ∧ f = .tooDeep pos := by
  unfold Cursor.enter at h
  by_cases hd : c.depth < maxDepth
  · rw [if_pos hd] at h
    cases h
  · rw [if_neg hd] at h
    cases h
    exact ⟨Nat.not_lt.1 hd, rfl⟩

/-! ## what follows a part that was read -/

section
variable [Scalar α] [Literal α]

mutual
theorem readPower_ends {n : Nat} {c c' : Cursor α} {e : Expr α} (h : readPower n c = .ok (e, c')) :
    Ends extendsPower c'.symbols := by
  match n, h with
  | 0, h => cases h
  | n + 1, h =>
    rw [readPower] at h
    obtain ⟨⟨b, d⟩, -, h⟩ := exists_of_bind_eq_ok h
    dsimp only at h
    split at h
    · obtain ⟨⟨v, d'⟩, h1, h⟩ := exists_of_bind_eq_ok h
      cases h
      exact readExponent_ends h1
    · rename_i hl
      cases h
      intro s hs
      rw [← Cursor.look_eq_head?] at hs
      cases s with
      | caret => exact absurd hs hl
      | _ => rfl
termination_by structural n

theorem readExponent_ends {n : Nat} {c c' : Cursor α} {v : α}
    (h : readExponent n c = .ok (v, c')) : Ends extendsPower c'.symbols := by
  match n, h with
  | 0, h => cases h
  | n + 1, h =>
    rw [readExponent] at h
    obtain ⟨d, -, h⟩ := exists_of_bind_eq_ok h
    dsimp only at h
    split at h
    · obtain ⟨⟨e, d'⟩, h1, h⟩ := exists_of_bind_eq_ok h
      obtain ⟨w, -, h⟩ := exists_of_bind_eq_ok h
      cases h
      show Ends extendsPower d'.symbols
      exact readPower_ends h1
    · obtain ⟨⟨e, d'⟩, h1, h⟩ := exists_of_bind_eq_ok h
      obtain ⟨w, -, h⟩ := exists_of_bind_eq_ok h
      cases h
      show Ends extendsPower d'.symbols
      exact readPower_ends h1
termination_by structural n
end

theorem readSigned_ends {n : Nat} {c c' : Cursor α} {e : Expr α}
    (h : readSigned n c = .ok (e, c')) : Ends extendsPower c'.symbols := by
  cases n with
  | zero => cases h
  | succ n =>
    rw [readSigned] at h
    split at h
    · obtain ⟨⟨e, d⟩, h1, h⟩ := exists_of_bind_eq_ok h
      cases h
      exact readPower_ends h1
    · exact readPower_ends h

theorem readFactors_ends_of {n k : Nat} {c c' : Cursor α} {e e' : Expr α}
    (hc : Ends extendsPower c.symbols) (h : readFactors n k e c = .ok (e', c')) :
    Ends extendsProduct c'.symbols := by
  induction n generalizing k c e with
  | zero => cases h
  | succ n ih =>
    rw [readFactors] at h
    split at h
    · obtain ⟨d, -, h⟩ := exists_of_bind_eq_ok h
      obtain ⟨⟨f, d'⟩, h1, h⟩ := exists_of_bind_eq_ok h
      exact ih (readSigned_ends h1) h
    · rename_i hj
      cases h
      intro s hs
      have hp := hc s hs
      have hs : c.symbols.head? = some s := hs
      rw [Cursor.joint?, Cursor.look_eq_head?, hs] at hj
      cases s with
      | caret => cases hp
      | plus | minus | closing => rfl
      | _ => cases hj

theorem readProduct_ends {n : Nat} {c c' : Cursor α} {e : Expr α}
    (h : readProduct n c = .ok (e, c')) : Ends extendsProduct c'.symbols := by
  cases n with
  | zero => cases h
  | succ n =>
    rw [readProduct] at h
    obtain ⟨⟨e, d⟩, h1, h⟩ := exists_of_bind_eq_ok h
    exact readFactors_ends_of (readSigned_ends h1) h

theorem readTerms_ends_of {n : Nat} {c c' : Cursor α} {es : List (Expr α)}
    (hc : Ends extendsProduct c.symbols) (h : readTerms n c = .ok (es, c')) :
    Ends extendsSum c'.symbols := by
  induction n generalizing c es with
  | zero => cases h
  | succ n ih =>
    rw [readTerms] at h
    split at h
    · obtain ⟨⟨e, d⟩, h1, h⟩ := exists_of_bind_eq_ok h
      obtain ⟨⟨es, d'⟩, h2, h⟩ := exists_of_bind_eq_ok h
      cases h
      exact ih (readProduct_ends h1) h2
    · obtain ⟨⟨e, d⟩, h1, h⟩ := exists_of_bind_eq_ok h
      obtain ⟨⟨es, d'⟩, h2, h⟩ := exists_of_bind_eq_ok h
      cases h
      exact ih (readProduct_ends h1) h2
    · rename_i hp hm
      cases h
      intro s hs
      have he := hc s hs
      rw [← Cursor.look_eq_head?] at hs
      cases s with
      | plus => exact absurd hs hp
      | minus => exact absurd hs hm
      | _ => exact he

theorem readSum_ends {n : Nat} {c c' : Cursor α} {e : Expr α} (h : readSum n c = .ok (e, c')) :
    Ends extendsSum c'.symbols := by
  cases n with
  | zero => cases h
  | succ n =>
    rw [readSum] at h
    obtain ⟨⟨e, d⟩, h1, h⟩ := exists_of_bind_eq_ok h
    obtain ⟨⟨es, d'⟩, h2, h⟩ := exists_of_bind_eq_ok h
    cases h
    exact readTerms_ends_of (readProduct_ends h1) h2

end

/-! ## culprits -/

/-- the levels behind the first tokens of a list -/
def levelsOf (us : List (Token α)) : Levels := levels (us.map Token.symbol)

/-- the symbols are those of an exponent whose own exponents are finite numbers, with symbols behind
it that do not go on with it -/
structure Exponent [Scalar α] (n : Signed α) (σ : List (Symbol α)) : Prop where
  constant : n.Constant
  symbols : ∃ τ, σ = n.symbols ++ τ ∧ Ends extendsPower τ

section
variable [Scalar α] [Literal α]

/-- What a fault of the tokens `ts` stands at: the token `k` that it is about, with the tokens `us`
in front of it and `vs` behind it.  The two that carry no place stand at none. -/
inductive Culprit (ts : List (Token α)) : Fault → Prop where
  | empty : Culprit ts .empty
  | unexpectedEnd : Culprit ts .unexpectedEnd
  /-- where an operand has to stand -/
  | unexpectedToken {us vs : List (Token α)} {k : Token α} (hts : ts = us ++ k :: vs)
      (hu : (levelsOf us).due ≠ .nothing) (hk : startsOperand k.symbol = false) :
      Culprit ts (.unexpectedToken k.symbol.text k.pos)
  /-- where an operand has to stand, or where no bracket is open -/
  | unmatchedBracket {us vs : List (Token α)} {k : Token α} (hts : ts = us ++ k :: vs)
      (hu : (levelsOf us).due ≠ .nothing ∨ Balanced (us.map Token.symbol))
      (hk : k.symbol = .closing) : Culprit ts (.unmatchedBracket k.pos)
  /-- the last one that is not closed -/
  | unclosedBracket {us vs : List (Token α)} {k : Token α} (hts : ts = us ++ k :: vs)
      (hk : k.symbol = .opening) (hv : Balanced (vs.map Token.symbol)) :
      Culprit ts (.unclosedBracket k.pos)
  | unknownName {us vs : List (Token α)} {k : Token α} {w : Text} (hts : ts = us ++ k :: vs)
      (hk : k.symbol = .name w) (hw : Meaning.ofName w = .unknown) :
      Culprit ts (.unknownName w k.pos)
  | reservedName {us vs : List (Token α)} {k : Token α} {w : Text} (hts : ts = us ++ k :: vs)
      (hk : k.symbol = .name w) (hw : Meaning.ofName w = .reserved) :
      Culprit ts (.reservedName w k.pos)
  | missingArgument {us vs : List (Token α)} {k : Token α} {g : Callee} (hts : ts = us ++ k :: vs)
      (hk : k.symbol = .name g.name) (hv : ∀ s ∈ (vs.map Token.symbol).head?, s ≠ .opening) :
      Culprit ts (.missingArgument g.name k.pos)
  | variableExponent {us vs : List (Token α)} {k : Token α} {n : Signed α}
      (hts : ts = us ++ k :: vs) (hu : (us.map Token.symbol).getLast? = some .caret)
      (hn : Exponent n ((k :: vs).map Token.symbol)) (hv : n.power.tree.hasVar) :
      Culprit ts (.variableExponent k.pos)
  | nonFiniteNumber {us vs : List (Token α)} {k : Token α} {n : Signed α}
      (hts : ts = us ++ k :: vs) (hu : (us.map Token.symbol).getLast? = some .caret)
      (hn : Exponent n ((k :: vs).map Token.symbol)) (hv : Scalar.isFinite n.number = false) :
      Culprit ts (.nonFiniteNumber k.pos)
  /-- the token that opens the first level above the limit -/
  | tooDeep {us vs : List (Token α)} {k : Token α} (hts : ts = us ++ k :: vs)
      (hu : (levelsOf us).frame.level ≤ maxDepth)
      (hk : maxDepth < (levelsOf (us ++ [k])).frame.level) : Culprit ts (.tooDeep k.pos)

/-- an exponent is missing at the end, and it would open a level above the limit -/
structure OpenEnd (ts : List (Token α)) : Prop where
  last : (ts.map Token.symbol).getLast? = some .caret
  level : (levelsOf ts).frame.level = maxDepth

/-- the fault stands at its culprit, or at the place zero for an exponent that is missing -/
def Blamed (ts : List (Token α)) (f : Fault) : Prop :=
  Culprit ts f ∨ f = .tooDeep 0 ∧ OpenEnd ts

end

/-! ## in front of a cursor -/

/-- `v` are the levels behind the tokens in front of the cursor, which is within the limit -/
structure Behind (ts : List (Token α)) (v : Levels) (c : Cursor α) : Prop where
  split : ∃ us, ts = us ++ c.rest ∧ levelsOf us = v
  le : c.depth ≤ maxDepth

namespace Behind
variable {ts : List (Token α)} {v : Levels} {c d : Cursor α}

/-- the next token -/
theorem exists_token (h : Behind ts v c) {s : Symbol α} (hs : c.symbols.head? = some s) :
    ∃ us k vs, ts = us ++ k :: vs ∧ levelsOf us = v ∧ c.rest = k :: vs ∧ k.symbol = s
      ∧ c.pos = k.pos := by
  obtain ⟨us, hts, hv⟩ := h.split
  obtain ⟨σ, hσ⟩ := List.head?_eq_some_iff.1 hs
  obtain ⟨k, vs, hr, hk, -⟩ := Cursor.rest_of_symbols hσ
  rw [hr] at hts
  exact ⟨us, k, vs, hts, hv, hr, hk, by rw [Cursor.pos, hr]⟩

theorem skip (h : Behind ts v c) {s : Symbol α} (hs : c.symbols.head? = some s) :
    Behind ts (v.step s) c.skip := by
  obtain ⟨us, k, vs, hts, rfl, hr, rfl, -⟩ := h.exists_token hs
  refine ⟨⟨us ++ [k], ?_, ?_⟩, h.le⟩
  · rw [hts, Cursor.skip, hr, List.append_assoc]
    rfl
  · rw [levelsOf, List.map_append]
    exact levels_concat ..

/-- another level -/
theorem depth (h : Behind ts v c) (hd : d.rest = c.rest) (hl : d.depth ≤ maxDepth) :
    Behind ts v d := by
  obtain ⟨us, hts, hv⟩ := h.split
  exact ⟨⟨us, by rw [hts, hd], hv⟩, hl⟩

/-- behind symbols that have been read -/
theorem read (h : Behind ts v c) {top l : Nat} {σ : List (Symbol α)} (hs : Spans top l σ c d)
    (hd : d.rest <:+ c.rest.tail) (hl : l ≤ maxDepth) : Behind ts (v.run σ) d := by
  obtain ⟨us, hts, hv⟩ := h.split
  obtain ⟨vs, hvs⟩ := hd.trans (List.tail_suffix _)
  have hσ : vs.map Token.symbol = σ := by
    have hc := hs.symbols_eq
    rw [Cursor.symbols, ← hvs, List.map_append] at hc
    exact List.append_cancel_right hc
  refine ⟨⟨us ++ vs, ?_, ?_⟩, hs.depth_eq.symm ▸ hl⟩
  · rw [hts, ← hvs, List.append_assoc]
  · rw [levelsOf, List.map_append, levels, run_append, hσ, ← hv]
    rfl

/-- the next token opens a level above the limit -/
theorem tooDeep [Scalar α] [Literal α] (h : Behind ts v c) {s : Symbol α}
    (hs : c.symbols.head? = some s) (hv : v.frame.level ≤ maxDepth)
    (hk : maxDepth < (v.step s).frame.level) : Blamed ts (.tooDeep c.pos) := by
  obtain ⟨us, k, vs, hts, rfl, -, rfl, hp⟩ := h.exists_token hs
  rw [hp]
  refine .inl (.tooDeep hts hv ?_)
  rw [levelsOf, List.map_append]
  exact (levels_concat ..).symm ▸ hk

end Behind

/-! ## the faults of the readers -/

section
variable [Scalar α] [Literal α] {ts : List (Token α)}

theorem blamed_unexpectedEnd : Blamed ts .unexpectedEnd := .inl .unexpectedEnd

/-- one level too many for an operand behind another one, with an operator or without -/
theorem enter_joint_blames {v : Levels} {c d : Cursor α} {j : Joint} {f : Fault}
    (hb : Behind ts v c) (hv : v.due = .nothing) (ho : v.frame.operand = c.depth)
    (hl : v.frame.level ≤ maxDepth) (hj : c.joint? = some (j, d)) (h : d.enter c.pos = .error f) :
    Blamed ts f := by
  obtain ⟨hd, rfl⟩ := enter_eq_error h
  have hfactor : maxDepth ≤ c.depth → maxDepth < v.frame.factor.level := by
    rw [← ho]
    exact Nat.lt_succ_of_le
  rcases joint?_eq_some hj with ⟨hs, -, rfl⟩ | ⟨hs, -, rfl⟩ | ⟨s, hs, ht, -, rfl⟩
  · refine hb.tooDeep hs hl ?_
    rw [step_times hv]
    exact hfactor hd
  · refine hb.tooDeep hs hl ?_
    rw [step_slash hv]
    exact hfactor hd
  · refine hb.tooDeep hs hl (Nat.lt_of_lt_of_le ?_ (level_next_le fun _ => ht))
    rw [next_of_nothing hv]
    exact hfactor hd

/-- the exponent that starts at the next token has a value that is refused -/
theorem exponentValue_blames {v : Levels} {c d : Cursor α} {n : Signed α} {top l : Nat} {b : Bool}
    {f : Fault} (hb : Behind ts v c) (hv : v.due = .exponent) (hn : Spans top l n.symbols c d)
    (hk : n.Constant) (hd : Ends extendsPower d.symbols)
    (hval : n.number = if b then -n.power.tree.eval 0 else n.power.tree.eval 0)
    (h : exponentValue c.pos b n.power.tree = .error f) : Blamed ts f := by
  obtain ⟨s, hs⟩ : ∃ s, c.symbols.head? = some s := by
    rw [hn.symbols_eq]
    exact ⟨_, List.head?_eq_some_head (List.append_ne_nil_of_left_ne_nil n.symbols_ne_nil _)⟩
  obtain ⟨us, k, vs, hts, rfl, hr, -, hp⟩ := hb.exists_token hs
  have hexp : Exponent n ((k :: vs).map Token.symbol) := by
    refine ⟨hk, d.symbols, ?_, hd⟩
    rw [← hr]
    exact hn.symbols_eq
  have hu := getLast?_of_due hv
  rw [hp] at h
  rw [exponentValue] at h
  by_cases hx : n.power.tree.hasVar
  · rw [if_pos hx] at h
    cases h
    exact .inl (.variableExponent hts hu hexp hx)
  · rw [if_neg hx, ← hval] at h
    by_cases hf : Scalar.isFinite n.number
    · rw [if_pos hf] at h
      cases h
    · rw [if_neg hf] at h
      cases h
      exact .inl (.nonFiniteNumber hts hu hexp (Bool.eq_false_iff.2 hf))

/-- a sum is followed by a closing bracket, by nothing, or by what is refused -/
theorem close_blames {d : Cursor α} {us vs : List (Token α)} {k : Token α} {f : Fault}
    (hts : ts = us ++ k :: vs) (hk : k.symbol = .opening) (hd : Ends extendsSum d.symbols)
    (hv : d.rest = [] → Balanced (vs.map Token.symbol)) (h : d.close k.pos = .error f) :
    Blamed ts f := by
  unfold Cursor.close at h
  split at h
  · rename_i hr
    cases h
    exact .inl (.unclosedBracket hts hk (hv hr))
  · rename_i t _ hr
    have ht := hd t.symbol (by rw [Cursor.symbols, hr]; rfl)
    split at h
    · cases h
    · rename_i s hs
      generalize t.symbol = r at ht hs
      cases r with
      | closing => exact absurd rfl hs
      | _ => cases ht

mutual
theorem readSum_blames {n : Nat} {c : Cursor α} {v : Levels} {f : Fault} (hb : Behind ts v c)
    (hv : v.due = .operand) (hf : v.frame = .start c.depth) (h : readSum n c = .error f) :
    Blamed ts f := by
  match n, h with
  | 0, h =>
    cases h
    exact blamed_unexpectedEnd
  | n + 1, h =>
    rw [readSum] at h
    rcases cases_of_bind_eq_error h with h | ⟨⟨e, d⟩, h1, h⟩
    · exact readProduct_blames hb hv hf h
    · obtain ⟨p, hp, -, -⟩ := readProduct_derived hb.le h1
      have ht := p.run hv
      have hd := hb.read hp ((readProduct_keeps n c).rest e d h1) hb.le
      rcases cases_of_bind_eq_error h with h | ⟨⟨es, d'⟩, -, h⟩
      · exact readTerms_blames hd ht.due (by rw [ht.base, hf, hp.depth_eq]; rfl) h
      · cases h
termination_by structural n

theorem readTerms_blames {n : Nat} {c : Cursor α} {v : Levels} {f : Fault} (hb : Behind ts v c)
    (hv : v.due = .nothing) (hf : v.frame.base = c.depth) (h : readTerms n c = .error f) :
    Blamed ts f := by
  match n, h with
  | 0, h =>
    cases h
    exact blamed_unexpectedEnd
  | n + 1, h =>
    have hterm : v.frame.term = .start c.depth := congrArg Frame.start hf
    -- the term behind a sign, and those behind it
    have step : ∀ g : Expr α × Cursor α → Except Fault (List (Expr α) × Cursor α),
        (∀ e d, g (e, d) = .error f → readTerms n d = .error f) →
        Behind ts ⟨v.frame.term, .operand, v.outer⟩ c.skip →
        readProduct n c.skip >>= g = .error f → Blamed ts f := by
      intro g hg hbs h
      rcases cases_of_bind_eq_error h with h | ⟨⟨e, d⟩, h1, h⟩
      · exact readProduct_blames hbs rfl hterm h
      · obtain ⟨p, hp, -, -⟩ := readProduct_derived hbs.le h1
        have ht := p.run (v := ⟨v.frame.term, .operand, v.outer⟩) rfl
        have hd := hbs.read hp ((readProduct_keeps n c.skip).rest e d h1) hbs.le
        refine readTerms_blames hd ht.due ?_ (hg e d h)
        rw [ht.base, hp.depth_eq]
        exact hf
    rw [readTerms] at h
    split at h
    · rename_i hs
      rw [Cursor.look_eq_head?] at hs
      have hbs := hb.skip hs
      rw [step_plus_of_nothing hv] at hbs
      refine step _ (fun e d h => ?_) hbs h
      rcases cases_of_bind_eq_error h with h | ⟨_, -, h⟩
      · exact h
      · cases h
    · rename_i hs
      rw [Cursor.look_eq_head?] at hs
      have hbs := hb.skip hs
      rw [step_minus_of_nothing hv] at hbs
      refine step _ (fun e d h => ?_) hbs h
      rcases cases_of_bind_eq_error h with h | ⟨_, -, h⟩
      · exact h
      · cases h
    · cases h
termination_by structural n

theorem readProduct_blames {n : Nat} {c : Cursor α} {v : Levels} {f : Fault} (hb : Behind ts v c)
    (hv : v.due = .operand) (hf : v.frame = .start c.depth) (h : readProduct n c = .error f) :
    Blamed ts f := by
  match n, h with
  | 0, h =>
    cases h
    exact blamed_unexpectedEnd
  | n + 1, h =>
    rw [readProduct] at h
    rcases cases_of_bind_eq_error h with h | ⟨⟨e, d⟩, h1, h⟩
    · exact readSigned_blames hb hv (congrArg Frame.level hf) h
    · obtain ⟨s, hs, -, -⟩ := readSigned_derived hb.le h1
      have ho := s.run (v := v) (by rw [hv]; nofun)
      have hd := hb.read hs ((readSigned_keeps n c).rest e d h1) hb.le
      refine readFactors_blames hd ho.due ?_ ?_ h
      · rw [ho.operand, next_of_operand hv, hf, hs.depth_eq]
        rfl
      · refine Nat.le_trans ho.level ?_
        rw [next_of_operand hv, hf]
        exact hs.le
termination_by structural n

theorem readFactors_blames {n k : Nat} {c : Cursor α} {v : Levels} {e : Expr α} {f : Fault}
    (hb : Behind ts v c) (hv : v.due = .nothing) (ho : v.frame.operand = c.depth)
    (hl : v.frame.level ≤ maxDepth) (h : readFactors n k e c = .error f) : Blamed ts f := by
  match n, h with
  | 0, h =>
    cases h
    exact blamed_unexpectedEnd
  | n + 1, h =>
    rw [readFactors] at h
    split at h
    · rename_i j d hj
      rcases cases_of_bind_eq_error h with h | ⟨d1, h1, h2⟩
      · exact enter_joint_blames hb hv ho hl hj h
      · obtain ⟨hlt, rfl⟩ := Cursor.enter_eq_ok_iff.1 h1
        have hfactor : v.frame.factor.level = c.depth + 1 := congrArg (· + 1) ho
        -- the operand behind an operator, and those behind it
        have signed : c.depth < maxDepth →
            Behind ts ⟨v.frame.factor, .operand, v.outer⟩ ⟨c.skip.rest, c.depth + 1⟩ →
            readSigned n ⟨c.skip.rest, c.depth + 1⟩ >>= (fun r =>
              readFactors n (k + 1) (join e r.1 j) r.2) = .error f → Blamed ts f := by
          intro hlt hbs h
          rcases cases_of_bind_eq_error h with h | ⟨⟨e', d'⟩, h3, h⟩
          · exact readSigned_blames hbs rfl hfactor h
          · obtain ⟨s, hs, -, -⟩ := readSigned_derived hbs.le h3
            have hr := s.run (v := ⟨v.frame.factor, .operand, v.outer⟩) nofun
            have hd := hbs.read hs ((readSigned_keeps n _).rest e' d' h3) hbs.le
            refine readFactors_blames hd hr.due ?_ (Nat.le_trans hr.level ?_) h
            · rw [hr.operand, hs.depth_eq]
              exact hfactor
            · exact hfactor ▸ hs.le
        rcases joint?_eq_some hj with ⟨hs, -, rfl⟩ | ⟨hs, -, rfl⟩ | ⟨s, hs, ht, -, rfl⟩
        · have hbs := hb.skip hs
          rw [step_times hv] at hbs
          exact signed hlt (hbs.depth rfl hlt) h2
        · have hbs := hb.skip hs
          rw [step_slash hv] at hbs
          exact signed hlt (hbs.depth rfl hlt) h2
        · match n, h2 with
          | 0, h2 =>
            cases h2
            exact blamed_unexpectedEnd
          | n + 1, h2 =>
            obtain ⟨τ, hτ⟩ := List.head?_eq_some_iff.1 hs
            have hn : v.next.level = d.depth + 1 := by rw [next_of_nothing hv, hfactor]
            have hbd := hb.depth (d := ⟨d.rest, d.depth + 1⟩) rfl hlt
            rw [readSigned_operand (c := ⟨d.rest, d.depth + 1⟩) ht hτ] at h2
            rcases cases_of_bind_eq_error h2 with h | ⟨⟨e', d'⟩, h3, h⟩
            · exact readPower_blames hbd (fun _ => ⟨s, hs, ht⟩) hn hl h
            · obtain ⟨p, hp, -, -⟩ := readPower_derived hbd.le h3
              have hr := p.run v
              have hd := hbd.read hp ((readPower_keeps n _).rest e' d' h3) hbd.le
              refine readFactors_blames hd hr.due ?_ (Nat.le_trans hr.level ?_) h
              · rw [hr.operand, hp.depth_eq, next_of_nothing hv]
                exact hfactor
              · exact hn ▸ hp.le
    · cases h
termination_by structural n

theorem readSigned_blames {n : Nat} {c : Cursor α} {v : Levels} {f : Fault} (hb : Behind ts v c)
    (hv : v.due = .operand) (hf : v.frame.level = c.depth) (h : readSigned n c = .error f) :
    Blamed ts f := by
  match n, h with
  | 0, h =>
    cases h
    exact blamed_unexpectedEnd
  | n + 1, h =>
    have hn : v.next.level = c.depth := by rw [next_of_operand hv, hf]
    rw [readSigned] at h
    split at h
    · rename_i hs
      rw [Cursor.look_eq_head?] at hs
      have hbs := hb.skip hs
      rw [step_minus (by rw [hv]; nofun)] at hbs
      rcases cases_of_bind_eq_error h with h | ⟨_, -, h⟩
      · exact readPower_blames hbs nofun hn (hn ▸ hb.le) h
      · cases h
    · exact readPower_blames hb (fun hd => by rw [hv] at hd; cases hd) hn (hf ▸ hb.le) h
termination_by structural n

theorem readPower_blames {n : Nat} {c : Cursor α} {v : Levels} {f : Fault} (hb : Behind ts v c)
    (hv : v.due = .nothing → ∃ s, c.symbols.head? = some s ∧ startsOperand s)
    (hn : v.next.level = c.depth) (hl : v.frame.level ≤ maxDepth) (h : readPower n c = .error f) :
    Blamed ts f := by
  match n, h with
  | 0, h =>
    cases h
    exact blamed_unexpectedEnd
  | n + 1, h =>
    rw [readPower] at h
    rcases cases_of_bind_eq_error h with h | ⟨⟨b, d⟩, h1, h⟩
    · exact readAtom_blames hb hv hn hl h
    · obtain ⟨a, ha, -, -⟩ := readAtom_derived hb.le h1
      have hd := hb.read ha ((readAtom_keeps n c).rest b d h1) hb.le
      rw [a.run v] at hd
      dsimp only at h
      split at h
      · rename_i hs
        rw [Cursor.look_eq_head?] at hs
        rcases cases_of_bind_eq_error h with h | ⟨_, -, h⟩
        · exact readExponent_blames (hd.skip hs) rfl (hn.trans ha.depth_eq.symm) h
        · cases h
      · cases h
termination_by structural n

theorem readExponent_blames {n : Nat} {c : Cursor α} {v : Levels} {f : Fault} (hb : Behind ts v c)
    (hv : v.due = .exponent) (hf : v.frame.level = c.depth) (h : readExponent n c = .error f) :
    Blamed ts f := by
  match n, h with
  | 0, h =>
    cases h
    exact blamed_unexpectedEnd
  | n + 1, h =>
    have hn : v.next.level = c.depth + 1 := by
      rw [next_of_exponent hv]
      exact congrArg (· + 1) hf
    have hne : v.due ≠ .nothing := by
      rw [hv]
      nofun
    rw [readExponent] at h
    rcases cases_of_bind_eq_error h with h | ⟨d, h1, h⟩
    · obtain ⟨hd, rfl⟩ := enter_eq_error h
      cases hs : c.symbols.head? with
      | some s =>
        refine hb.tooDeep hs (hf ▸ hb.le) ?_
        refine Nat.lt_of_lt_of_le ?_ (level_next_le fun h => absurd h hne)
        rw [hn]
        exact Nat.lt_succ_of_le hd
      | none =>
        -- nothing stands behind the caret
        have hr : c.rest = [] := List.map_eq_nil_iff.1 (List.head?_eq_none_iff.1 hs)
        obtain ⟨us, hts, rfl⟩ := hb.split
        rw [hr, List.append_nil] at hts
        subst hts
        refine .inr ⟨by rw [Cursor.pos, hr], getLast?_of_due hv, ?_⟩
        exact Nat.le_antisymm (hf ▸ hb.le) (hf ▸ hd)
    · obtain ⟨hlt, rfl⟩ := Cursor.enter_eq_ok_iff.1 h1
      dsimp only at h
      split at h
      · rename_i hs
        have hs : c.symbols.head? = some .minus := (Cursor.look_eq_head? c).symm.trans hs
        have hbs := hb.skip hs
        rw [step_minus hne] at hbs
        rcases cases_of_bind_eq_error h with h | ⟨⟨e, d⟩, h1, h⟩
        · exact readPower_blames
            (hbs.depth (d := Cursor.skip ⟨c.rest, c.depth + 1⟩) rfl hlt) nofun hn (hn ▸ hlt) h
        · obtain ⟨p, hp, rfl, hk⟩ :=
            readPower_derived (c := Cursor.skip ⟨c.rest, c.depth + 1⟩) hlt h1
          rcases cases_of_bind_eq_error h with h | ⟨_, -, h⟩
          · have hp' := (hp.of_symbols_eq c.skip rfl).cons (c := c) hs
            exact exponentValue_blames (n := .minus p) hb hv hp' hk (readPower_ends h1) rfl h
          · cases h
      · rcases cases_of_bind_eq_error h with h | ⟨⟨e, d⟩, h1, h⟩
        · exact readPower_blames (hb.depth (d := ⟨c.rest, c.depth + 1⟩) rfl hlt)
            (fun hd => absurd hd hne) hn (hf ▸ hb.le) h
        · obtain ⟨p, hp, rfl, hk⟩ := readPower_derived (c := ⟨c.rest, c.depth + 1⟩) hlt h1
          rcases cases_of_bind_eq_error h with h | ⟨_, -, h⟩
          · exact exponentValue_blames (n := .plus p) hb hv (hp.of_symbols_eq c rfl) hk
              (readPower_ends h1) rfl h
          · cases h
termination_by structural n

theorem readAtom_blames {n : Nat} {c : Cursor α} {v : Levels} {f : Fault} (hb : Behind ts v c)
    (hv : v.due = .nothing → ∃ s, c.symbols.head? = some s ∧ startsOperand s)
    (hn : v.next.level = c.depth) (hl : v.frame.level ≤ maxDepth) (h : readAtom n c = .error f) :
    Blamed ts f := by
  match n, h with
  | 0, h =>
    cases h
    exact blamed_unexpectedEnd
  | n + 1, h =>
    rw [readAtom] at h
    split at h
    · cases h
      exact blamed_unexpectedEnd
    · rename_i t vs hr
      have hs : c.symbols.head? = some t.symbol := by rw [Cursor.symbols, hr]; rfl
      obtain ⟨us, hts, rfl⟩ := hb.split
      rw [hr] at hts
      -- no operand stands in front of what starts none
      have hu : startsOperand t.symbol = false → (levelsOf us).due ≠ .nothing := by
        intro ht hd
        obtain ⟨s, hs', ht'⟩ := hv hd
        rw [hs] at hs'
        obtain rfl := Option.some.inj hs'
        rw [ht] at ht'
        cases ht'
      split at h
      · cases h
      · cases h
      · rename_i ht
        exact readBrackets_blames hb (ht ▸ hs) hn hl h
      · rename_i ht
        cases h
        exact .inl (.unmatchedBracket hts (.inl (hu (by rw [ht]; rfl))) ht)
      · rename_i w ht
        rw [ht] at hs
        split at h
        · cases h
        · rename_i k hw
          rcases cases_of_bind_eq_error h with h | ⟨_, -, h⟩
          · obtain rfl := eq_trig_name hw
            exact readArgument_blames (g := .trig k) hb hs hn h
          · cases h
        · rename_i hw
          rcases cases_of_bind_eq_error h with h | ⟨_, -, h⟩
          · obtain rfl := eq_sqrt_name hw
            exact readArgument_blames (g := .sqrt) hb hs hn h
          · cases h
        · rename_i hw
          cases h
          exact .inl (.reservedName hts ht hw)
        · rename_i hw
          cases h
          exact .inl (.unknownName hts ht hw)
      · rename_i hnum hpi ho hc hw
        cases h
        have ht : startsOperand t.symbol = false := by
          cases hk : t.symbol with
          | num a => exact absurd hk (hnum a)
          | pi => exact absurd hk hpi
          | opening => exact absurd hk ho
          | name w => exact absurd hk (hw w)
          | _ => rfl
        exact .inl (.unexpectedToken hts (hu ht) ht)
termination_by structural n

theorem readArgument_blames {n : Nat} {c : Cursor α} {v : Levels} {g : Callee} {f : Fault}
    (hb : Behind ts v c) (hs : c.symbols.head? = some (.name g.name))
    (hn : v.next.level = c.depth) (h : readArgument n g.name c = .error f) : Blamed ts f := by
  match n, h with
  | 0, h =>
    cases h
    exact blamed_unexpectedEnd
  | n + 1, h =>
    rw [readArgument] at h
    split at h
    · rename_i ho
      rw [Cursor.look_eq_head?] at ho
      have hbs := hb.skip hs
      rw [step_name, if_neg g.name_ne_var] at hbs
      exact readBrackets_blames hbs ho hn (hn ▸ hb.le) h
    · rename_i ho
      cases h
      obtain ⟨us, k, vs, hts, -, hr, hk, hp⟩ := hb.exists_token hs
      rw [hp]
      refine .inl (.missingArgument hts hk fun s hs' => ?_)
      rintro rfl
      refine ho ?_
      rw [Cursor.look_eq_head?, Cursor.symbols, Cursor.skip, hr]
      exact hs'
termination_by structural n

theorem readBrackets_blames {n : Nat} {c : Cursor α} {v : Levels} {f : Fault} (hb : Behind ts v c)
    (hs : c.symbols.head? = some .opening) (hn : v.next.level = c.depth)
    (hl : v.frame.level ≤ maxDepth) (h : readBrackets n c = .error f) : Blamed ts f := by
  match n, h with
  | 0, h =>
    cases h
    exact blamed_unexpectedEnd
  | n + 1, h =>
    rw [readBrackets] at h
    have hbs := hb.skip hs
    rw [step_opening, hn] at hbs
    rcases cases_of_bind_eq_error h with h | ⟨d, h1, h⟩
    · obtain ⟨hd, rfl⟩ := enter_eq_error h
      refine hb.tooDeep hs hl ?_
      rw [step_opening, hn]
      exact Nat.lt_succ_of_le hd
    · obtain ⟨hlt, rfl⟩ := Cursor.enter_eq_ok_iff.1 h1
      have hbs := hbs.depth (d := ⟨c.skip.rest, c.depth + 1⟩) rfl hlt
      rcases cases_of_bind_eq_error h with h | ⟨⟨e, d⟩, h1, h⟩
      · exact readSum_blames hbs rfl rfl h
      · obtain ⟨s, hss, -, -⟩ := readSum_derived hbs.le h1
        obtain ⟨us, k, vs, hts, -, hr, hk, hp⟩ := hb.exists_token hs
        rcases cases_of_bind_eq_error h with h | ⟨_, -, h⟩
        · rw [hp] at h
          refine close_blames hts hk (readSum_ends h1) (fun hd => ?_) h
          have hvs : vs.map Token.symbol = s.symbols ++ d.symbols := by
            rw [← hss.symbols_eq, Cursor.symbols, Cursor.skip, hr]
            rfl
          rw [hvs, Cursor.symbols, hd, List.map_nil, List.append_nil]
          exact s.balanced
        · cases h
termination_by structural n
end

theorem leftover_blames {us vs : List (Token α)} {k : Token α} (hts : ts = us ++ k :: vs)
    (hu : Balanced (us.map Token.symbol)) (hk : Ends extendsSum ((k :: vs).map Token.symbol)) :
    Blamed ts (leftover k) := by
  have hk := hk k.symbol rfl
  obtain ⟨s, pos⟩ := k
  cases s with
  | closing => exact .inl (.unmatchedBracket hts (.inr hu) rfl)
  | _ => cases hk

/-- the fault of a list of tokens stands at its culprit; a number of the tree that is not finite has
none -/
theorem ofTokens_blames {f : Fault} (h0 : f ≠ .nonFiniteNumber 0) (h : ofTokens ts = .error f) :
    Blamed ts f := by
  rw [ofTokens] at h
  by_cases hts : ts.isEmpty
  · rw [if_pos hts] at h
    cases h
    exact .inl .empty
  · rw [if_neg hts] at h
    have hb : Behind ts .start ⟨ts, 0⟩ := ⟨⟨[], rfl, rfl⟩, Nat.zero_le _⟩
    rcases cases_of_bind_eq_error h with h | ⟨⟨e, c⟩, h1, h⟩
    · exact readSum_blames hb rfl rfl h
    · obtain ⟨d, hd, -, -⟩ := readSum_derived hb.le h1
      obtain ⟨us, hus⟩ := ((readSum_keeps _ _).rest e c h1).trans (List.tail_suffix _)
      have hus : us ++ c.rest = ts := hus
      have hsym : us.map Token.symbol = d.symbols := by
        have hs := hd.symbols_eq
        rw [Cursor.symbols, ← hus, List.map_append] at hs
        exact List.append_cancel_right hs
      have hends := readSum_ends h1
      rw [Cursor.symbols] at hends
      dsimp only at h
      split at h
      · rename_i k vs hr
        cases h
        rw [hr] at hus hends
        exact leftover_blames hus.symm (hsym ▸ d.balanced) hends
      · by_cases hf : e.isFinite
        · rw [if_pos hf] at h
          cases h
        · rw [if_neg hf] at h
          exact absurd (Except.error.inj h).symm h0

end

end CurveStudy.Grammar
