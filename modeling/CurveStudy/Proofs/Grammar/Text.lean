import Mathlib.Tactic.Ring
import CurveStudy.Proofs.Extent
import CurveStudy.Proofs.Grammar.Value
import CurveStudy.Proofs.Scan

/-!
# Texts that are read by the grammar

`AtomText t f l` says that the text `t` lexes to the symbols of an atom whose exponents are
constant, whose value, where numbers are exact, is the function `f`, and whose operators and levels
are `l`; and so on for the other lines of the grammar.  An `UnsignedText` is a product without a
minus in front, a `SignedText` a product that may have one.  The texts of larger expressions are put
together from those of smaller ones.

* `PlainText`   what is asked of the texts of numbers;
* `AtomText.num`, `call`, `brackets`, `raised`   atoms and powers;
* `UnsignedText.times`, `UnsignedText.slash`, `SignedText.slash`   operators;
* `SignedText.withCoeff`   a coefficient in front;
* `SumText.sumText`   a sum.
-/

set_option linter.unusedSectionVars false

namespace CurveStudy
open Scalar (pow apply)

/-- The text of a finite number is a plain numeral, with a minus in front if need be.  It reads
back to the number, and without the minus to the opposite. -/
class PlainText (α : Type) [Scalar α] [Literal α] : Prop where
  unsigned {v : α} : Scalar.isFinite v → (Literal.text v).isSigned = false →
    Plain (Literal.text v) ∧ Numeral.value (Literal.text v) = v
  signed {v : α} {t : Text} : Scalar.isFinite v → Literal.text v = '-' :: t →
    Plain t ∧ Numeral.value t = -v

namespace Grammar
open CurveStudy.Token CurveStudy.Expr

variable {α : Type}

/-! ## one list of operands behind another -/

def Factors.append : Factors α → Factors α → Factors α
  | .nil, gs => gs
  | .times s fs, gs => .times s (fs.append gs)
  | .slash s fs, gs => .slash s (fs.append gs)
  | .next p fs, gs => .next p (fs.append gs)

@[simp] theorem Factors.symbols_append (fs gs : Factors α) :
    (fs.append gs).symbols = fs.symbols ++ gs.symbols := by
  cases fs with
  | nil => rfl
  | times s fs =>
    show .times :: (s.symbols ++ (fs.append gs).symbols)
      = .times :: (s.symbols ++ fs.symbols) ++ gs.symbols
    rw [fs.symbols_append gs, List.cons_append, List.append_assoc]
  | slash s fs =>
    show .slash :: (s.symbols ++ (fs.append gs).symbols)
      = .slash :: (s.symbols ++ fs.symbols) ++ gs.symbols
    rw [fs.symbols_append gs, List.cons_append, List.append_assoc]
  | next p fs =>
    show p.symbols ++ (fs.append gs).symbols = p.symbols ++ fs.symbols ++ gs.symbols
    rw [fs.symbols_append gs, List.append_assoc]
termination_by structural fs

@[simp] theorem Factors.length_append (fs gs : Factors α) :
    (fs.append gs).length = fs.length + gs.length := by
  cases fs with
  | nil => exact (Nat.zero_add _).symm
  | times s fs | slash s fs | next p fs =>
    show (fs.append gs).length + 1 = fs.length + 1 + gs.length
    rw [fs.length_append gs, Nat.add_right_comm]
termination_by structural fs

@[simp] theorem Factors.depth_append (fs gs : Factors α) (k : Nat) :
    (fs.append gs).depth k = max (fs.depth k) (gs.depth (k + fs.length)) := by
  cases fs with
  | nil => exact (Nat.zero_max _).symm
  | times s fs | slash s fs | next p fs =>
    show max _ ((fs.append gs).depth (k + 1)) = max (max _ _) (gs.depth (k + (fs.length + 1)))
    rw [fs.depth_append gs (k + 1), Nat.max_assoc, Nat.add_right_comm, Nat.add_assoc]
termination_by structural fs

/-- a product that stands `k` operands further behind the start of another -/
theorem Factors.max_add_depth (fs : Factors α) (k a j : Nat) :
    max (k + a) (fs.depth (k + j)) = k + max a (fs.depth j) := by
  cases fs with
  | nil => exact (Nat.max_zero _).trans (congrArg (k + ·) (Nat.max_zero a).symm)
  | times s fs | slash s fs | next s fs =>
    show max (k + a) (max (k + j + s.depth) (fs.depth (k + j + 1)))
      = k + max a (max (j + s.depth) (fs.depth (j + 1)))
    rw [Nat.add_assoc k j s.depth, ← Nat.max_assoc, Nat.add_max_add_left, ← Nat.max_assoc]
    exact fs.max_add_depth k (max a (j + s.depth)) (j + 1)
termination_by structural fs

section
variable [Scalar α]

theorem Factors.Constant.append {fs gs : Factors α} (h : fs.Constant) (h' : gs.Constant) :
    (fs.append gs).Constant := by
  cases fs with
  | nil => exact h'
  | times s fs => exact ⟨h.1, Factors.Constant.append h.2 h'⟩
  | slash s fs => exact ⟨h.1, Factors.Constant.append h.2 h'⟩
  | next p fs => exact ⟨h.1, Factors.Constant.append h.2 h'⟩
termination_by structural fs

@[simp] theorem Factors.value_append (fs gs : Factors α) (x a : α) :
    (fs.append gs).value x a = gs.value x (fs.value x a) := by
  cases fs with
  | nil => rfl
  | times s fs => exact fs.value_append gs x _
  | slash s fs => exact fs.value_append gs x _
  | next p fs => exact fs.value_append gs x _
termination_by structural fs

end

/-! ## the ends of texts -/

/-- a character that can stand behind an operand -/
def ends (c : Char) : Bool := !(c.isAlphanum || c == '.')

/-- a character that an operand without a sign can start with -/
def opens (c : Char) : Bool := !(isBlank c || c == '-' || c == 'e' || c == 'E')

theorem endsNumeral_of_ends {c : Char} (h : ends c) : Numeral.endsNumeral c := by
  have he : ∀ d : Char, d.isAlphanum → c ≠ d := by
    rintro d hd rfl
    rw [ends, hd] at h
    cases h
  rw [Numeral.endsNumeral, beq_eq_false_iff_ne.2 (he 'e' rfl), beq_eq_false_iff_ne.2 (he 'E' rfl),
    Bool.or_false, Bool.or_false]
  cases hc : c.isDigit with
  | false =>
    rw [ends, Bool.not_or] at h
    rw [Bool.false_or]
    exact (Bool.and_eq_true_iff.1 h).2
  | true =>
    rw [ends, isAlphanum_of_isDigit hc] at h
    cases h

theorem not_isAlpha_of_ends {c : Char} (h : ends c) : !c.isAlpha := by
  cases hc : c.isAlpha with
  | false => rfl
  | true =>
    rw [ends, isAlphanum_of_isAlpha hc] at h
    cases h

theorem opens_of_isDigit {c : Char} (h : c.isDigit) : opens c := by
  have hne : ∀ d : Char, d.isDigit = false → (c == d) = false := by
    intro d hd
    refine beq_eq_false_iff_ne.2 ?_
    rintro rfl
    rw [h] at hd
    cases hd
  rw [opens, isBlank_of_isAlphanum (isAlphanum_of_isDigit h), hne '-' rfl, hne 'e' rfl, hne 'E' rfl]
  rfl

theorem not_isBlank_of_opens {c : Char} (h : opens c) : isBlank c = false := by
  cases hc : isBlank c with
  | false => rfl
  | true =>
    rw [opens, hc] at h
    cases h

/-- an operand without a sign starts the text -/
def Opens (t : Text) : Prop := ∃ c u, t = c :: u ∧ opens c

theorem Opens.append {t : Text} (h : Opens t) (u : Text) : Opens (t ++ u) := by
  obtain ⟨c, t, rfl, hc⟩ := h
  exact ⟨c, t ++ u, rfl, hc⟩

/-- what follows a numeral, if it is not a numeral itself -/
theorem Opens.endsNumeral {t : Text} (h : Opens t)
    (hd : (t.head?.any fun d => d.isDigit || d == '.') = false) :
    ∀ c ∈ t.head?, Numeral.endsNumeral c := by
  obtain ⟨c, t, rfl, hc⟩ := h
  rintro d ⟨⟩
  have h1 : (c.isDigit || c == '.') = false := hd
  rw [opens, Bool.not_or, Bool.and_eq_true, Bool.not_or, Bool.and_eq_true] at hc
  rw [Numeral.endsNumeral, h1, Bool.false_or, Bool.not_or, hc.1.2, hc.2]
  rfl

theorem opens_of_plain {n : Text} (h : Plain n) : Opens n := by
  obtain ⟨c, t, rfl, hc⟩ := h.exists_digit
  exact ⟨c, t, rfl, opens_of_isDigit hc⟩

/-! ## texts of the lines of the grammar -/

section
variable [Scalar α] [Literal α] {t u : Text} {f g : α → α} {l m : Extent}

/-- The text lexes to the symbols `σ` of a derivation whose exponents are constant.  Where numbers
are exact, the value of the derivation is `f`. -/
structure Spells (t : Text) (f : α → α) (σ : List (Symbol α)) (constant : Prop) (value : α → α) :
    Prop where
  lexes : Lexes ends t σ
  constant : constant
  value : IsExact α → ∀ x, value x = f x

def AtomText (t : Text) (f : α → α) (l : Extent) : Prop :=
  Opens t ∧ ∃ a : Atom α, l = ⟨0, a.depth⟩ ∧ Spells t f a.symbols a.Constant fun x => a.value x

def PowerText (t : Text) (f : α → α) (l : Extent) : Prop :=
  Opens t ∧ ∃ p : Power α, l = ⟨0, p.depth⟩ ∧ Spells t f p.symbols p.Constant fun x => p.value x

/-- a product without a minus in front -/
def UnsignedText (t : Text) (f : α → α) (l : Extent) : Prop :=
  Opens t ∧ ∃ (p : Power α) (fs : Factors α), l = ⟨fs.length, max p.depth (fs.depth 1)⟩
    ∧ Spells t f (p.symbols ++ fs.symbols) (p.Constant ∧ fs.Constant)
      fun x => fs.value x (p.value x)

/-- a product, behind a minus or not -/
def SignedText (t : Text) (f : α → α) (l : Extent) : Prop :=
  UnsignedText t f l ∨ ∃ u, t = '-' :: u ∧ UnsignedText u (fun x => -f x) l

def SumText (t : Text) (f : α → α) (n : Nat) : Prop :=
  (∃ c u, t = c :: u ∧ isBlank c = false)
    ∧ ∃ d : Sum α, n = d.depth ∧ Spells t f d.symbols d.Constant fun x => d.value x

theorem Spells.congr {σ : List (Symbol α)} {k : Prop} {v : α → α} (h : Spells t f σ k v)
    (hfg : IsExact α → ∀ x, f x = g x) : Spells t g σ k v :=
  ⟨h.lexes, h.constant, fun E x => (h.value E x).trans (hfg E x)⟩

theorem AtomText.congr (h : AtomText t f l) (hfg : IsExact α → ∀ x, f x = g x) :
    AtomText t g l := by
  obtain ⟨ho, a, hl, h⟩ := h
  exact ⟨ho, a, hl, h.congr hfg⟩

theorem PowerText.congr (h : PowerText t f l) (hfg : IsExact α → ∀ x, f x = g x) :
    PowerText t g l := by
  obtain ⟨ho, p, hl, h⟩ := h
  exact ⟨ho, p, hl, h.congr hfg⟩

theorem UnsignedText.congr (h : UnsignedText t f l) (hfg : IsExact α → ∀ x, f x = g x) :
    UnsignedText t g l := by
  obtain ⟨ho, p, fs, hl, h⟩ := h
  exact ⟨ho, p, fs, hl, h.congr hfg⟩

theorem SumText.congr {n : Nat} (h : SumText t f n) (hfg : IsExact α → ∀ x, f x = g x) :
    SumText t g n := by
  obtain ⟨hb, d, hn, h⟩ := h
  exact ⟨hb, d, hn, h.congr hfg⟩

theorem SignedText.congr (h : SignedText t f l) (hfg : IsExact α → ∀ x, f x = g x) :
    SignedText t g l := by
  rcases h with h | ⟨u, ht, h⟩
  · exact .inl (h.congr hfg)
  · exact .inr ⟨u, ht, h.congr fun E x => congrArg Neg.neg (hfg E x)⟩

/-! ## atoms and powers -/

theorem AtomText.power (h : AtomText t f l) : PowerText t f l := by
  obtain ⟨ho, a, hl, h⟩ := h
  exact ⟨ho, .atom a, hl, h.lexes, h.constant, h.value⟩

theorem PowerText.unsigned (h : PowerText t f l) : UnsignedText t f l := by
  obtain ⟨ho, p, rfl, h⟩ := h
  refine ⟨ho, p, .nil, congrArg (Extent.mk 0) (Nat.max_zero _).symm, ?_,
    ⟨h.constant, trivial⟩, h.value⟩
  rw [show p.symbols ++ (Factors.nil : Factors α).symbols = p.symbols from List.append_nil _]
  exact h.lexes

theorem AtomText.num {n : Text} {v : α} (hn : Plain n) (hv : Numeral.value n = v)
    (hf : Scalar.isFinite v) : AtomText n (fun _ => v) .atom :=
  ⟨opens_of_plain hn, .num v, rfl, (Lexes.numeral hn hv hf).mono fun _ => endsNumeral_of_ends,
    trivial, fun _ _ => rfl⟩

theorem AtomText.var : AtomText (α := α) ['x'] (fun x => x) .atom := by
  have h : Lexes (α := α) (fun d => !d.isAlpha) ['x'] [ofWord ['x']] :=
    Lexes.word (List.forall_mem_singleton.2 rfl)
  exact ⟨⟨'x', [], rfl, rfl⟩, .var, rfl, h.mono fun _ => not_isAlpha_of_ends, trivial,
    fun _ _ => rfl⟩

/-- a symbol of one character between two texts -/
theorem lexes_operator {c : Char} {s : Symbol α} {σ τ : List (Symbol α)} (hc : ends c)
    (hb : isBlank c = false) (hs : ofChar? c = some s) (h : Lexes ends t σ) (h' : Lexes ends u τ) :
    Lexes ends (t ++ c :: u) (σ ++ s :: τ) :=
  h.append (h'.char hb hs) (by rintro d ⟨⟩; exact hc) fun _ h => h

theorem lexes_bracketed {σ : List (Symbol α)} (h : Lexes ends t σ) :
    Lexes ends t.bracketed (.opening :: (σ ++ [.closing])) :=
  (lexes_operator rfl rfl rfl h Lexes.nil).char rfl rfl

theorem AtomText.brackets (h : SumText t f l.levels) : AtomText t.bracketed f l.bracketed := by
  obtain ⟨-, d, hl, h⟩ := h
  refine ⟨⟨'(', _, rfl, rfl⟩, .brackets d, ?_, lexes_bracketed h.lexes, h.constant, h.value⟩
  rw [Extent.bracketed, hl, Nat.add_comm]
  rfl

theorem lexes_name (k : Trig) :
    Lexes (α := α) (fun d => !d.isAlpha) k.name [.name k.name] := by
  have h : ∀ w : Text, w ≠ [] → w.all Char.isAlpha → ofWord w = (.name w : Symbol α) →
      Lexes (α := α) (fun d => !d.isAlpha) w [.name w] := by
    intro w h0 hw he
    obtain ⟨c, w, rfl⟩ := List.exists_cons_of_ne_nil h0
    rw [← he]
    exact Lexes.word (List.all_eq_true.1 hw)
  cases k <;> exact h _ (List.cons_ne_nil _ _) rfl rfl

theorem opens_name (k : Trig) : Opens k.name := by
  cases k <;> exact ⟨_, _, rfl, rfl⟩

theorem lexes_call (k : Trig) {σ : List (Symbol α)} (h : Lexes ends t σ) :
    Lexes ends (k.name ++ t.bracketed) (.name k.name :: .opening :: (σ ++ [.closing])) :=
  (lexes_name k).append (lexes_bracketed h) (by rintro c ⟨⟩; rfl) fun _ => not_isAlpha_of_ends

theorem AtomText.call (k : Trig) (h : SumText t f l.levels) :
    AtomText (k.name ++ t.bracketed) (fun x => apply k (f x)) l.bracketed := by
  obtain ⟨-, d, hl, h⟩ := h
  refine ⟨(opens_name k).append _, .call (.trig k) d, ?_, lexes_call k h.lexes, h.constant,
    fun E x => ?_⟩
  · rw [Extent.bracketed, hl, Nat.add_comm]
    rfl
  · exact congrArg (apply k) (h.value E x)

/-! ## products -/

/-- the operators `hs` are one more than `gs`, with an operand of `n` levels behind the first -/
theorem times_eq_append (p : Power α) (fs : Factors α) {n : Nat} {gs hs : Factors α}
    (hl : hs.length = gs.length + 1) (hd : ∀ k, hs.depth k = max (k + n) (gs.depth (k + 1))) :
    Extent.times ⟨fs.length, max p.depth (fs.depth 1)⟩ ⟨gs.length, max n (gs.depth 1)⟩
      = ⟨(fs.append hs).length, max p.depth ((fs.append hs).depth 1)⟩ := by
  rw [fs.length_append, fs.depth_append, hd, gs.max_add_depth, hl, ← Nat.max_assoc,
    Nat.add_comm 1 fs.length, Nat.add_comm gs.length 1, ← Nat.add_assoc]
  rfl

theorem Factors.value_eq_mul (E : IsExact α) (fs : Factors α) (x c a : α) :
    fs.value x (c * a) = c * fs.value x a := by
  obtain ⟨E, rfl⟩ := E
  exact fs.value_mul x c a

theorem UnsignedText.times (h : UnsignedText t f l) (h' : UnsignedText u g m) :
    UnsignedText (t ++ '*' :: u) (fun x => f x * g x) (l.times m) := by
  obtain ⟨ho, p, fs, rfl, h⟩ := h
  obtain ⟨-, q, gs, rfl, h'⟩ := h'
  refine ⟨ho.append _, p, fs.append (.times (.plus q) gs), ?_, ?_, ?_, fun E x => ?_⟩
  · exact times_eq_append p fs rfl fun _ => rfl
  · rw [Factors.symbols_append, ← List.append_assoc]
    exact lexes_operator rfl rfl rfl h.lexes h'.lexes
  · exact ⟨h.constant.1, h.constant.2.append h'.constant⟩
  · show (fs.append (.times (.plus q) gs)).value x (p.value x) = f x * g x
    rw [Factors.value_append, ← h.value E x, ← h'.value E x]
    exact gs.value_eq_mul E x _ _

theorem UnsignedText.slash (h : UnsignedText t f l) (h' : PowerText u g m) :
    UnsignedText (t ++ '/' :: u) (fun x => f x / g x) (l.times m) := by
  obtain ⟨ho, p, fs, rfl, h⟩ := h
  obtain ⟨-, q, rfl, h'⟩ := h'
  refine ⟨ho.append _, p, fs.append (.slash (.plus q) .nil), ?_, ?_, ?_, fun E x => ?_⟩
  · have hq : Extent.mk 0 q.depth
        = ⟨(Factors.nil : Factors α).length, max q.depth ((Factors.nil : Factors α).depth 1)⟩ :=
      congrArg (Extent.mk 0) (Nat.max_zero q.depth).symm
    rw [hq]
    exact times_eq_append p fs rfl fun _ => rfl
  · rw [Factors.symbols_append, ← List.append_assoc]
    refine lexes_operator rfl rfl rfl h.lexes ?_
    rw [show (Signed.plus q).symbols ++ (Factors.nil : Factors α).symbols = q.symbols
      from List.append_nil _]
    exact h'.lexes
  · exact ⟨h.constant.1, h.constant.2.append ⟨h'.constant, trivial⟩⟩
  · show (fs.append (.slash (.plus q) .nil)).value x (p.value x) = f x / g x
    rw [Factors.value_append, ← h.value E x, ← h'.value E x]
    rfl

theorem SignedText.slash (h : SignedText t f l) (h' : PowerText u g m) :
    SignedText (t ++ '/' :: u) (fun x => f x / g x) (l.times m) := by
  rcases h with h | ⟨t, rfl, h⟩
  · exact .inl (h.slash h')
  · refine .inr ⟨t ++ '/' :: u, rfl, (h.slash h').congr ?_⟩
    rintro ⟨E, rfl⟩ x
    exact Exact.neg_div (f x) (g x)

/-! ## signs and brackets -/

theorem SignedText.unsigned (h : SignedText t f l) (hs : t.isSigned = false) :
    UnsignedText t f l := by
  rcases h with h | ⟨u, rfl, -⟩
  · exact h
  · cases hs

/-- a minus in front of a product is the opposite of all of it -/
theorem SignedText.exists_product (h : SignedText t f l) :
    (∃ c u, t = c :: u ∧ isBlank c = false)
      ∧ ∃ p : Product α, l.levels = p.depth
        ∧ Spells t f p.symbols p.Constant fun x => p.value x := by
  rcases h with ⟨⟨c, u, ht, hc⟩, p, fs, rfl, h⟩ | ⟨u, rfl, -, p, fs, rfl, h⟩
  · exact ⟨⟨c, u, ht, not_isBlank_of_opens hc⟩, .mk (.plus p) fs, rfl, h.lexes, h.constant,
      h.value⟩
  · refine ⟨⟨'-', u, rfl, rfl⟩, .mk (.minus p) fs, rfl, h.lexes.char rfl rfl, h.constant,
      fun E x => ?_⟩
    have hv := h.value E x
    obtain ⟨E, rfl⟩ := E
    show fs.value x (-p.value x) = f x
    rw [← neg_one_mul, fs.value_mul, hv, neg_one_mul, neg_neg]

/-! ## sums -/

theorem head_joinTerms (ts : List Text) : ∀ c ∈ (joinTerms ts).head?, ends c := by
  unfold joinTerms
  split
  · exact nofun
  · rintro c ⟨⟩
    rfl
  · rintro c ⟨⟩
    rfl

theorem joinTerms_cons_of_opens {t : Text} (h : Opens t) (ts : List Text) :
    joinTerms (t :: ts) = " + ".toList ++ t ++ joinTerms ts := by
  rw [joinTerms]
  obtain ⟨c, t, rfl, hc⟩ := h
  rintro u ⟨⟩
  cases hc

/-- an operator between two terms, with a space on both sides -/
theorem lexes_term {c : Char} {s : Symbol α} {σ τ : List (Symbol α)} {ts : List Text}
    (hb : isBlank c = false) (hs : ofChar? c = some s) (h : Lexes ends t σ)
    (h' : Lexes ends (joinTerms ts) τ) :
    Lexes ends ([' ', c, ' '] ++ t ++ joinTerms ts) (s :: (σ ++ τ)) :=
  (((h.append h' (head_joinTerms ts) fun _ h => h).blank rfl).char hb hs).blank rfl

/-- the terms of a sum after the first -/
theorem exists_terms {es : List (Expr α)}
    (h : ∀ e ∈ es, SignedText e.render (fun x => e.eval x) e.extent) :
    ∃ d : Terms α, Lexes ends (joinTerms (renderEach es)) d.symbols ∧ d.Constant
      ∧ (Extent.sum (extentEach es)).levels = d.depth
      ∧ (IsExact α → ∀ x a, d.value x a = (evalEach x es).foldl (· + ·) a) := by
  induction es with
  | nil => exact ⟨.nil, Lexes.nil, trivial, rfl, fun _ _ _ => rfl⟩
  | cons e es ih =>
    obtain ⟨he, hes⟩ := List.forall_mem_cons.1 h
    obtain ⟨ts, hl, hk, hd, hv⟩ := ih hes
    have levels : (Extent.sum (extentEach (e :: es))).levels = max e.extent.levels ts.depth :=
      congrArg (max e.extent.levels) hd
    rw [renderEach]
    rcases he with ⟨ho, p, fs, hx, h⟩ | ⟨u, ht, -, p, fs, hx, h⟩
    · rw [joinTerms_cons_of_opens ho]
      refine ⟨.plus (.mk (.plus p) fs) ts, lexes_term rfl rfl h.lexes hl, ⟨h.constant, hk⟩,
        by rw [levels, hx]; rfl, fun E x a => ?_⟩
      show ts.value x (a + fs.value x (p.value x)) = _
      rw [h.value E x, hv E]
      rfl
    · rw [ht]
      refine ⟨.minus (.mk (.plus p) fs) ts, lexes_term rfl rfl h.lexes hl, ⟨h.constant, hk⟩,
        by rw [levels, hx]; rfl, fun E x a => ?_⟩
      show ts.value x (a - fs.value x (p.value x)) = (evalEach x es).foldl (· + ·) (a + e.eval x)
      rw [h.value E x, hv E]
      obtain ⟨E, rfl⟩ := E
      exact congrArg ((evalEach x es).foldl (· + ·)) (sub_neg_eq_add a (e.eval x))

theorem SignedText.sumText (h : SignedText t f l) {es : List (Expr α)}
    (hes : ∀ e ∈ es, SignedText e.render (fun x => e.eval x) e.extent) :
    SumText (t ++ joinTerms (renderEach es)) (fun x => (evalEach x es).foldl (· + ·) (f x))
      (Extent.sum (l :: extentEach es)).levels := by
  obtain ⟨⟨c, u, ht, hc⟩, p, hp, h⟩ := h.exists_product
  obtain ⟨ts, hl, hk, hd, hv⟩ := exists_terms hes
  refine ⟨⟨c, u ++ joinTerms (renderEach es), by rw [ht, List.cons_append], hc⟩, .mk p ts,
    (congrArg (max l.levels) hd).trans (congrArg (max · ts.depth) hp),
    h.lexes.append hl (head_joinTerms _) fun _ h => h, ⟨h.constant, hk⟩, fun E x => ?_⟩
  show ts.value x (p.value x) = _
  rw [h.value E x, hv E]

theorem SignedText.sum (h : SignedText t f l) : SumText t f l.levels := by
  have h' := h.sumText (List.forall_mem_nil fun e : Expr α => SignedText e.render _ e.extent)
  rwa [show t ++ joinTerms (renderEach ([] : List (Expr α))) = t from List.append_nil t,
    show (Extent.sum (l :: extentEach ([] : List (Expr α)))).levels = l.levels
      from Nat.max_zero l.levels] at h'

/-! ## numbers -/

variable [FiniteNumbers α] [PlainText α]

/-- the text of a number, as a numeral behind a minus or not -/
theorem numeral_or_minus {c : α} (hc : Scalar.isFinite c) :
    ∃ (n : Text) (v : α), Plain n ∧ Numeral.value n = v ∧ Scalar.isFinite v
      ∧ (Literal.text c = n ∧ v = c ∨ Literal.text c = '-' :: n ∧ v = -c) := by
  cases hs : (Literal.text c).isSigned with
  | false =>
    obtain ⟨hn, hv⟩ := PlainText.unsigned hc hs
    exact ⟨_, c, hn, hv, hc, .inl ⟨rfl, rfl⟩⟩
  | true =>
    obtain ⟨n, ht⟩ : ∃ n, Literal.text c = '-' :: n := by
      obtain ⟨d, n, hd⟩ := List.exists_cons_of_ne_nil fun e : Literal.text c = [] => by
        rw [e] at hs
        cases hs
      rw [hd] at hs
      have hs : some d = some '-' := eq_of_beq hs
      exact ⟨n, by rw [hd, Option.some.inj hs]⟩
    obtain ⟨hn, hv⟩ := PlainText.signed hc ht
    exact ⟨n, -c, hn, hv, FiniteNumbers.neg hc, .inr ⟨ht, rfl⟩⟩

theorem neg_neg_of_isExact (E : IsExact α) (c : α) : - -c = c := by
  obtain ⟨E, rfl⟩ := E
  exact neg_neg c

theorem SignedText.num {c : α} (hc : Scalar.isFinite c) :
    SignedText (Literal.text c) (fun _ => c) .atom := by
  obtain ⟨n, v, hn, hv, hf, ⟨ht, rfl⟩ | ⟨ht, rfl⟩⟩ := numeral_or_minus hc
  · rw [ht]
    exact .inl (AtomText.num hn hv hf).power.unsigned
  · exact .inr ⟨n, ht, (AtomText.num hn hv hf).power.unsigned⟩

/-- the text of a number is read as an exponent -/
theorem exists_exponent {n : α} (hn : Scalar.isFinite n) :
    ∃ s : Signed α, Lexes ends (Literal.text n) s.symbols ∧ s.Constant ∧ s.depth = 0
      ∧ s.power.tree.hasVar = false ∧ Scalar.isFinite s.number
      ∧ (IsExact α → s.value 0 = n) := by
  obtain ⟨w, v, hw, hv, hf, h⟩ := numeral_or_minus hn
  have hl := (Lexes.numeral hw hv hf).mono fun _ => endsNumeral_of_ends
  rcases h with ⟨ht, rfl⟩ | ⟨ht, rfl⟩
  · rw [ht]
    exact ⟨.plus (.atom (.num v)), hl, trivial, rfl, rfl, hf, fun _ => rfl⟩
  · rw [ht]
    exact ⟨.minus (.atom (.num (-n))), hl.char rfl rfl, trivial, rfl, rfl, FiniteNumbers.neg hf,
      fun E => neg_neg_of_isExact E n⟩

theorem AtomText.raised (h : AtomText t f l) {n : α} (hn : Scalar.isFinite n) :
    PowerText (t ++ '^' :: Literal.text n) (fun x => pow (f x) n) l.raised := by
  obtain ⟨ho, a, rfl, h⟩ := h
  obtain ⟨s, hl, hk, hd, hx, hf, hv⟩ := exists_exponent hn
  refine ⟨ho.append _, .raised a s, ?_, ?_, ⟨h.constant, hk, hx, hf⟩, fun E x => ?_⟩
  · show Extent.mk 0 (max a.depth 1) = ⟨0, max a.depth (1 + s.depth)⟩
    rw [hd]
  · exact lexes_operator rfl rfl rfl h.lexes hl
  · show pow (a.value x) (s.value 0) = pow (f x) n
    rw [h.value E x, hv E]

/-! ## coefficients -/

/-- a numeral in front of a product, with `*` where the two would run together -/
theorem UnsignedText.numeral {n : Text} {v : α} (hn : Plain n) (hv : Numeral.value n = v)
    (hf : Scalar.isFinite v) (h : UnsignedText t f l) :
    UnsignedText (if t.head?.any fun d => d.isDigit || d == '.' then n ++ '*' :: t else n ++ t)
      (fun x => v * f x) (Extent.atom.times l) := by
  split
  · exact (AtomText.num hn hv hf).power.unsigned.times h
  · rename_i hd
    obtain ⟨ho, p, fs, rfl, h⟩ := h
    refine ⟨(opens_of_plain hn).append _, .atom (.num v), .next p fs, ?_, ?_,
      ⟨trivial, h.constant⟩, fun E x => ?_⟩
    · exact times_eq_append (.atom (.num v)) .nil rfl fun _ => rfl
    · exact (Lexes.numeral hn hv hf).append h.lexes (ho.endsNumeral (Bool.eq_false_iff.2 hd))
        fun _ => endsNumeral_of_ends
    · show fs.value x (v * p.value x) = v * f x
      rw [fs.value_eq_mul E, ← h.value E x]

theorem SignedText.withCoeff {c : α} (hc : Scalar.isFinite c) (h : UnsignedText t f l) :
    SignedText (Expr.withCoeff c t) (fun x => c * f x) (.withCoeff c l) := by
  unfold Expr.withCoeff Extent.withCoeff
  by_cases h1 : c == 1
  · rw [if_pos h1, h1, if_pos (Bool.true_or _)]
    refine .inl (h.congr ?_)
    rintro ⟨E, rfl⟩ x
    rw [eq_of_beq h1, one_mul]
  · rw [if_neg h1, Bool.eq_false_iff.2 h1, Bool.false_or]
    by_cases h2 : c == -1
    · rw [if_pos h2, if_pos h2]
      refine .inr ⟨t, rfl, h.congr ?_⟩
      rintro ⟨E, rfl⟩ x
      show f x = -(c * f x)
      rw [eq_of_beq h2, neg_one_mul, neg_neg]
    · rw [if_neg h2, if_neg h2]
      obtain ⟨n, v, hn, hv, hf, ⟨ht, rfl⟩ | ⟨ht, rfl⟩⟩ := numeral_or_minus hc
      · rw [ht]
        exact .inl (h.numeral hn hv hf)
      · refine .inr ⟨_, ?_, (h.numeral hn hv hf).congr ?_⟩
        · rw [ht]
          split <;> rfl
        · rintro ⟨E, rfl⟩ x
          exact neg_mul c (f x)

end

end Grammar

end CurveStudy
