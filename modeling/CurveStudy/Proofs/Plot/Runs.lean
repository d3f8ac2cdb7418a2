import Mathlib.Data.List.Flatten
import Mathlib.Data.Nat.Find
import CurveStudy.Proofs.Plot.Cutting

/-!
# Where a curve is cut

A maximal run of the members of a list that satisfy a test goes from one place to another; a member
in front of it or behind it, if there is one, does not satisfy the test.  A run is given by these
two places, and is cut out of the list there.

* `holds`          the member at a place satisfies the test;
* `IsRun`          a maximal run; `exists_isRun`, `IsRun.eq` say that there is one around each place
                   that holds, and only one;
* `isRun_append`   the runs of two lists, where none goes from one into the other;
* `Spans`          a list of the places of all maximal runs, in order;
* `exists_spans`   the runs of a list are cut out at such places;
* `pieces_zip`     the pieces of a curve.
-/

namespace CurveStudy.Plot

section
variable {β : Type} {p : β → Bool} {bs u v : List β} {i j k : Nat}

/-- the member at the place `k`, if there is one, satisfies the test -/
def holds (p : β → Bool) (bs : List β) (k : Nat) : Bool := bs[k]?.any p

/-- from `i` to `j`, the end not included, there is a maximal run -/
structure IsRun (p : β → Bool) (bs : List β) (i j : Nat) : Prop where
  lt : i < j
  inside : ∀ k, i ≤ k → k < j → holds p bs k
  before : ∀ k, k + 1 = i → holds p bs k = false
  after : holds p bs j = false

/-- the members from one place to another, the end not included -/
def part (bs : List β) (s : Nat × Nat) : List β := (bs.take s.2).drop s.1

theorem holds_of_length_le (h : bs.length ≤ k) : holds p bs k = false := by
  rw [holds, List.getElem?_eq_none h]
  rfl

theorem lt_length_of_holds (h : holds p bs k) : k < bs.length := by
  by_contra hk
  rw [holds_of_length_le (Nat.not_lt.1 hk)] at h
  cases h

theorem holds_append_left (h : k < u.length) : holds p (u ++ v) k = holds p u k := by
  rw [holds, List.getElem?_append_left h, holds]

theorem holds_append_right (h : u.length ≤ k) : holds p (u ++ v) k = holds p v (k - u.length) := by
  rw [holds, List.getElem?_append_right h, holds]

theorem holds_of_forall_mem (h : ∀ b ∈ bs, p b) (hk : k < bs.length) : holds p bs k := by
  rw [holds, List.getElem?_eq_getElem hk]
  exact h _ (List.getElem_mem hk)

/-! ## one run -/

namespace IsRun

theorem le_length (h : IsRun p bs i j) : j ≤ bs.length := by
  have hlt := h.lt
  have := lt_length_of_holds (h.inside (j - 1) (by omega) (by omega))
  omega

/-- no run starts inside another one -/
theorem start_le {i' j' : Nat} (h : IsRun p bs i j) (h' : IsRun p bs i' j') (hj : k < j)
    (hi : i' ≤ k) : i' ≤ i := by
  by_contra hlt
  have hb := h'.before (i' - 1) (by omega)
  rw [h.inside (i' - 1) (by omega) (by omega)] at hb
  cases hb

/-- no run ends inside another one -/
theorem stop_le {i' j' : Nat} (h : IsRun p bs i j) (h' : IsRun p bs i' j') (hi : i ≤ k)
    (hj : k < j') : j ≤ j' := by
  by_contra hlt
  have ha := h'.after
  rw [h.inside j' (by omega) (by omega)] at ha
  cases ha

/-- around a place there is one run only -/
theorem eq {i' j' : Nat} (h : IsRun p bs i j) (h' : IsRun p bs i' j') (hk : i ≤ k ∧ k < j)
    (hk' : i' ≤ k ∧ k < j') : i = i' ∧ j = j' :=
  ⟨Nat.le_antisymm (h'.start_le h hk'.2 hk.1) (h.start_le h' hk.2 hk'.1),
    Nat.le_antisymm (h.stop_le h' hk.1 hk'.2) (h'.stop_le h hk'.1 hk.2)⟩

theorem length_part (h : IsRun p bs i j) : (part bs (i, j)).length = j - i := by
  rw [part, List.length_drop, List.length_take, Nat.min_eq_left h.le_length]

end IsRun

/-- where the run around a place starts -/
theorem exists_start (h : holds p bs k) :
    ∃ i ≤ k, (∀ m, i ≤ m → m ≤ k → holds p bs m) ∧ ∀ m, m + 1 = i → holds p bs m = false := by
  induction k with
  | zero => exact ⟨0, Nat.le_refl 0, fun m _ hm => Nat.le_zero.1 hm ▸ h, nofun⟩
  | succ k ih =>
    by_cases hk : holds p bs k
    · obtain ⟨i, hi, hm, hb⟩ := ih hk
      refine ⟨i, by omega, fun m him hmk => ?_, hb⟩
      rcases Nat.lt_or_eq_of_le hmk with hlt | rfl
      · exact hm m him (by omega)
      · exact h
    · refine ⟨k + 1, Nat.le_refl _, fun m him hmk => ?_, fun m hm => ?_⟩
      · obtain rfl : m = k + 1 := by omega
        exact h
      · obtain rfl : m = k := by omega
        exact Bool.eq_false_iff.2 hk

theorem exists_isRun (h : holds p bs k) : ∃ i j, IsRun p bs i j ∧ i ≤ k ∧ k < j := by
  obtain ⟨i, hi, hstart, hbefore⟩ := exists_start h
  have hstop : ∃ j, k ≤ j ∧ holds p bs j = false :=
    ⟨bs.length, (lt_length_of_holds h).le, holds_of_length_le (Nat.le_refl _)⟩
  classical
  obtain ⟨hkj, hafter⟩ := Nat.find_spec hstop
  have hlt : k < Nat.find hstop := by
    rcases Nat.lt_or_eq_of_le hkj with hlt | heq
    · exact hlt
    · rw [← heq, h] at hafter
      cases hafter
  refine ⟨i, Nat.find hstop, ⟨by omega, fun m him hmj => ?_, hbefore, hafter⟩, hi, hlt⟩
  rcases Nat.le_total m k with hmk | hkm
  · exact hstart m him hmk
  · have hm := Nat.find_min hstop hmj
    exact Bool.of_not_eq_false fun hf => hm ⟨hkm, hf⟩

/-! ## the runs of a list -/

/-- the lists do not both hold where they meet -/
def Parted (p : β → Bool) (u v : List β) : Prop :=
  ∀ k, k + 1 = u.length → holds p u k → holds p v 0 = false

theorem isRun_append (hcut : Parted p u v) : IsRun p (u ++ v) i j
    ↔ IsRun p u i j ∨ u.length ≤ i ∧ IsRun p v (i - u.length) (j - u.length) := by
  constructor
  · intro h
    have hlt := h.lt
    rcases Nat.lt_or_ge i u.length with hi | hi
    · -- a run that starts in the first list ends there
      have hj : j ≤ u.length := by
        by_contra hj
        have h1 := h.inside (u.length - 1) (by omega) (by omega)
        have h2 := h.inside u.length (by omega) (by omega)
        rw [holds_append_left (by omega)] at h1
        rw [holds_append_right (Nat.le_refl _), Nat.sub_self, hcut _ (by omega) h1] at h2
        cases h2
      refine .inl ⟨hlt, fun k hik hkj => ?_, fun k hk => ?_, ?_⟩
      · have := h.inside k hik hkj
        rwa [holds_append_left (by omega)] at this
      · have := h.before k hk
        rwa [holds_append_left (by omega)] at this
      · rcases Nat.lt_or_eq_of_le hj with hj | rfl
        · have := h.after
          rwa [holds_append_left hj] at this
        · exact holds_of_length_le (Nat.le_refl _)
    · refine .inr ⟨hi, by omega, fun k hik hkj => ?_, fun k hk => ?_, ?_⟩
      · have := h.inside (k + u.length) (by omega) (by omega)
        rwa [holds_append_right (by omega), Nat.add_sub_cancel] at this
      · have := h.before (k + u.length) (by omega)
        rwa [holds_append_right (by omega), Nat.add_sub_cancel] at this
      · have := h.after
        rwa [holds_append_right (by omega)] at this
  · rintro (h | ⟨hi, h⟩)
    · have hlt := h.lt
      have hj := h.le_length
      refine ⟨hlt, fun k hik hkj => ?_, fun k hk => ?_, ?_⟩
      · rw [holds_append_left (by omega)]
        exact h.inside k hik hkj
      · rw [holds_append_left (by omega)]
        exact h.before k hk
      · rcases Nat.lt_or_eq_of_le hj with hj | rfl
        · rw [holds_append_left hj]
          exact h.after
        · rw [holds_append_right (Nat.le_refl _), Nat.sub_self]
          exact hcut (u.length - 1) (by omega) (h.inside _ (by omega) (by omega))
    · have hlt := h.lt
      refine ⟨by omega, fun k hik hkj => ?_, fun k hk => ?_, ?_⟩
      · rw [holds_append_right (by omega)]
        exact h.inside _ (by omega) (by omega)
      · rcases Nat.lt_or_ge k u.length with hku | hku
        · rw [holds_append_left hku]
          refine Bool.eq_false_iff.2 fun hl => ?_
          have h0 := h.inside 0 (by omega) (by omega)
          rw [hcut k (by omega) hl] at h0
          cases h0
        · rw [holds_append_right hku]
          exact h.before _ (by omega)
      · rw [holds_append_right (by omega)]
        exact h.after

/-- the places of all maximal runs, in order -/
structure Spans (p : β → Bool) (bs : List β) (spans : List (Nat × Nat)) : Prop where
  mem_iff : ∀ i j, (i, j) ∈ spans ↔ IsRun p bs i j
  sorted : spans.Pairwise fun s t => s.2 < t.1

/-- places counted from `n` further in front -/
def shiftBy (n : Nat) (s : Nat × Nat) : Nat × Nat := (s.1 + n, s.2 + n)

theorem mem_map_shiftBy {n : Nat} {ss : List (Nat × Nat)} (hn : n ≤ i ∧ n ≤ j) :
    (i, j) ∈ ss.map (shiftBy n) ↔ (i - n, j - n) ∈ ss := by
  rw [List.mem_map]
  constructor
  · rintro ⟨⟨a, b⟩, hs, he⟩
    obtain ⟨rfl, rfl⟩ := Prod.mk.inj he
    rwa [Nat.add_sub_cancel, Nat.add_sub_cancel]
  · intro hs
    exact ⟨_, hs, Prod.ext (Nat.sub_add_cancel hn.1) (Nat.sub_add_cancel hn.2)⟩

theorem Spans.append {ss ts : List (Nat × Nat)} (hu : Spans p u ss) (hv : Spans p v ts)
    (hcut : Parted p u v) : Spans p (u ++ v) (ss ++ ts.map (shiftBy u.length)) := by
  constructor
  · intro i j
    rw [isRun_append hcut, List.mem_append, hu.mem_iff]
    refine or_congr_right ⟨fun h => ?_, fun ⟨hi, h⟩ => ?_⟩
    · obtain ⟨⟨a, b⟩, hs, he⟩ := List.mem_map.1 h
      obtain ⟨rfl, rfl⟩ := Prod.mk.inj he
      rw [Nat.add_sub_cancel, Nat.add_sub_cancel]
      exact ⟨Nat.le_add_left _ _, (hv.mem_iff a b).1 hs⟩
    · have hlt := h.lt
      exact (mem_map_shiftBy ⟨hi, by omega⟩).2 ((hv.mem_iff _ _).2 h)
  · refine List.pairwise_append.2 ⟨hu.sorted, ?_, ?_⟩
    · exact List.pairwise_map.2 (hv.sorted.imp fun h => Nat.add_lt_add_right h _)
    · rintro ⟨i, j⟩ hs _ ht
      obtain ⟨⟨a, b⟩, hb, rfl⟩ := List.mem_map.1 ht
      have hr := (hu.mem_iff i j).1 hs
      have hr' := (hv.mem_iff a b).1 hb
      have hj := hr.le_length
      have hlt := hr.lt
      show j < a + u.length
      by_contra hle
      -- else the first run ends where the lists meet, and the second one starts there
      have h0 := hr'.inside 0 (by omega) (Nat.zero_lt_of_lt hr'.lt)
      rw [hcut (j - 1) (by omega) (hr.inside _ (by omega) (by omega))] at h0
      cases h0

theorem part_append_left {s : Nat × Nat} (h : s.2 ≤ u.length) : part (u ++ v) s = part u s := by
  rw [part, List.take_append_of_le_length h, part]

theorem part_append_right (s : Nat × Nat) : part (u ++ v) (shiftBy u.length s) = part v s := by
  rw [part, shiftBy, Nat.add_comm s.2, List.take_length_add_append, Nat.add_comm s.1,
    List.drop_length_add_append, part]

theorem Spans.map_part_append {ss ts : List (Nat × Nat)} (hu : Spans p u ss) :
    (ss ++ ts.map (shiftBy u.length)).map (part (u ++ v)) = ss.map (part u) ++ ts.map (part v) := by
  rw [List.map_append, List.map_map]
  congr 1
  · refine List.map_congr_left fun s hs => part_append_left ?_
    exact ((hu.mem_iff s.1 s.2).1 hs).le_length
  · exact List.map_congr_left fun s _ => part_append_right s

theorem spans_singleton {b : β} (hb : ¬p b) : Spans p [b] [] := by
  refine ⟨fun i j => iff_of_false List.not_mem_nil fun h => ?_, .nil⟩
  have hlt := h.lt
  have hj := h.le_length
  rw [List.length_singleton] at hj
  obtain rfl : i = 0 := by omega
  exact hb (h.inside 0 (Nat.le_refl 0) hlt)

theorem spans_of_forall_mem (h : ∀ b ∈ bs, p b) (hne : 0 < bs.length) :
    Spans p bs [(0, bs.length)] := by
  have hrun : IsRun p bs 0 bs.length :=
    ⟨hne, fun k _ hk => holds_of_forall_mem h hk, nofun, holds_of_length_le (Nat.le_refl _)⟩
  refine ⟨fun i j => ?_, List.pairwise_singleton _ _⟩
  rw [List.mem_singleton, Prod.mk.injEq]
  refine ⟨fun ⟨hi, hj⟩ => hi ▸ hj ▸ hrun, fun hr => ?_⟩
  have hlt := hr.lt
  have hj := hr.le_length
  exact hr.eq hrun ⟨Nat.le_refl i, hlt⟩ ⟨Nat.zero_le i, by omega⟩

/-- behind a run the list does not hold -/
theorem parted_dropWhile (b : β) : Parted p (b :: bs.takeWhile p) (bs.dropWhile p) := by
  intro k _ _
  cases hd : bs.dropWhile p with
  | nil => rfl
  | cons c cs =>
    have hne : 0 < (bs.dropWhile p).length := hd ▸ Nat.succ_pos _
    have hc := List.dropWhile_get_zero_not p bs hne
    rw [List.get_eq_getElem] at hc
    simp only [hd, List.getElem_cons_zero] at hc
    exact Bool.eq_false_iff.2 hc

/-- the runs of a list are what is between the places of its maximal runs -/
theorem exists_spans (p : β → Bool) (bs : List β) :
    ∃ spans, Spans p bs spans ∧ runs p bs = spans.map (part bs) := by
  fun_induction runs p bs with
  | case1 => exact ⟨[], ⟨fun i j => iff_of_false List.not_mem_nil fun h => absurd h.lt
      (Nat.not_lt.2 (Nat.le_trans h.le_length (Nat.zero_le i))), .nil⟩, rfl⟩
  | case2 b bs hb ih =>
    obtain ⟨ts, ht, hr⟩ := ih
    have hall : ∀ c ∈ b :: bs.takeWhile p, p c :=
      List.forall_mem_cons.2 ⟨hb, fun c hc => List.mem_takeWhile_imp hc⟩
    have hu := spans_of_forall_mem hall (Nat.succ_pos _)
    have hcut : b :: bs = (b :: bs.takeWhile p) ++ bs.dropWhile p := by
      rw [List.cons_append, List.takeWhile_append_dropWhile]
    refine ⟨_, hcut ▸ hu.append ht (parted_dropWhile b), ?_⟩
    rw [hcut, hu.map_part_append, hr, List.map_singleton, List.singleton_append, part,
      List.take_length, List.drop_zero]
  | case3 b bs hb ih =>
    obtain ⟨ts, ht, hr⟩ := ih
    have hu := spans_singleton hb
    have hcut : Parted p [b] bs := by
      intro k hk hh
      obtain rfl : k = 0 := Nat.succ.inj hk
      exact absurd hh hb
    refine ⟨_, hu.append ht hcut, ?_⟩
    rw [show b :: bs = [b] ++ bs from rfl, hu.map_part_append, hr]
    rfl

/-- the runs together are the members that satisfy the test -/
theorem flatten_runs (p : β → Bool) (bs : List β) : (runs p bs).flatten = bs.filter p := by
  fun_induction runs p bs with
  | case1 => rfl
  | case2 b bs hb ih =>
    have htake : (bs.takeWhile p).filter p = bs.takeWhile p :=
      List.filter_eq_self.2 fun c hc => List.mem_takeWhile_imp hc
    have hbs : bs.filter p = bs.takeWhile p ++ (bs.dropWhile p).filter p := by
      rw [← htake, ← List.filter_append, List.takeWhile_append_dropWhile]
    rw [List.flatten_cons, ih, List.filter_cons_of_pos hb, List.cons_append, hbs]
  | case3 b bs hb ih => rw [ih, List.filter_cons_of_neg hb]

/-! ## runs of at least two members -/

theorem Spans.filter_length {spans : List (Nat × Nat)} (h : Spans p bs spans) (n : Nat) :
    (spans.map (part bs)).filter (fun run => decide (n ≤ run.length))
      = (spans.filter fun s => decide (s.1 + n ≤ s.2)).map (part bs) := by
  rw [List.filter_map]
  congr 1
  refine List.filter_congr fun s hs => ?_
  have hrun := (h.mem_iff s.1 s.2).1 hs
  have hlt := hrun.lt
  rw [Function.comp_apply, hrun.length_part]
  exact decide_eq_decide.2 (by omega)

/-- a run of at least two members is around a place that holds beside another one that does -/
theorem exists_long_iff : (∃ i j, (IsRun p bs i j ∧ i + 2 ≤ j) ∧ i ≤ k ∧ k < j)
    ↔ holds p bs k ∧ (holds p bs (k + 1) ∨ ∃ m, m + 1 = k ∧ holds p bs m) := by
  constructor
  · rintro ⟨i, j, ⟨hr, hlong⟩, hi, hj⟩
    refine ⟨hr.inside k hi hj, ?_⟩
    rcases Nat.lt_or_ge (k + 1) j with hlt | hge
    · exact .inl (hr.inside (k + 1) (by omega) hlt)
    · exact .inr ⟨k - 1, by omega, hr.inside (k - 1) (by omega) (by omega)⟩
  · rintro ⟨hk, hbeside⟩
    obtain ⟨i, j, hr, hi, hj⟩ := exists_isRun hk
    refine ⟨i, j, ⟨hr, ?_⟩, hi, hj⟩
    by_contra hshort
    rcases hbeside with h | ⟨m, hm, h⟩
    · have ha := hr.after
      rw [show j = k + 1 by omega, h] at ha
      cases ha
    · rw [hr.before m (by omega)] at h
      cases h

end

variable {α : Type} [Number α]

/-- the height of the sample can be drawn -/
def shown (s : α × α) : Bool := drawable s.2

/-- The pieces of a curve are its maximal runs of at least two samples that can be drawn, in their
order and with a sample that cannot be drawn between two of them.  A sample is in a piece exactly if
it can be drawn and so can one beside it, and then it is in one piece only; the pieces together are
some of the samples that can be drawn, once each and in their order. -/
theorem pieces_zip (xs ys : List α) :
    ∃ spans : List (Nat × Nat),
      pieces (xs.zip ys) = spans.map (part (xs.zip ys))
      ∧ spans.Pairwise (fun s t => s.2 < t.1)
      ∧ (∀ i j, (i, j) ∈ spans ↔ IsRun shown (xs.zip ys) i j ∧ i + 2 ≤ j)
      ∧ (∀ k, (holds shown (xs.zip ys) k
          ∧ (holds shown (xs.zip ys) (k + 1) ∨ ∃ m, m + 1 = k ∧ holds shown (xs.zip ys) m))
        ↔ ∃! s, s ∈ spans ∧ s.1 ≤ k ∧ k < s.2)
      ∧ (pieces (xs.zip ys)).flatten.Sublist ((xs.zip ys).filter shown) := by
  have hp : pieces (xs.zip ys)
      = (runs shown (xs.zip ys)).filter fun piece => decide (2 ≤ piece.length) :=
    congrArg (List.filter _) (cut_eq_runs shown (xs.zip ys))
  obtain ⟨spans, hs, hr⟩ := exists_spans shown (xs.zip ys)
  have hmem : ∀ i j, (i, j) ∈ spans.filter (fun s => decide (s.1 + 2 ≤ s.2))
      ↔ IsRun shown (xs.zip ys) i j ∧ i + 2 ≤ j := by
    intro i j
    rw [List.mem_filter, hs.mem_iff, decide_eq_true_iff]
  refine ⟨spans.filter fun s => decide (s.1 + 2 ≤ s.2), ?_, hs.sorted.filter _, hmem, ?_, ?_⟩
  · rw [hp, hr, hs.filter_length]
  · intro k
    rw [← exists_long_iff]
    constructor
    · rintro ⟨i, j, h, hk⟩
      refine ⟨(i, j), ⟨(hmem i j).2 h, hk⟩, ?_⟩
      rintro ⟨i', j'⟩ ⟨h', hk'⟩
      obtain ⟨rfl, rfl⟩ := ((hmem i' j').1 h').1.eq h.1 hk' hk
      rfl
    · rintro ⟨⟨i, j⟩, ⟨h, hk⟩, -⟩
      exact ⟨i, j, (hmem i j).1 h, hk⟩
  · rw [← flatten_runs, hp]
    exact List.Sublist.flatten List.filter_sublist

end CurveStudy.Plot
