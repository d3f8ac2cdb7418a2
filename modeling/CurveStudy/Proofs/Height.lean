import Mathlib.Tactic.Ring
import CurveStudy.Proofs.Shape

/-!
# The height of a tree

`Expr.height` is the number of nodes on the longest way down, so the number of calls that are open
at a time when the tree is gone through by recursion.  A constructor makes a tree at most one higher
than what it is made from.

* `height_scale_le`, `height_scale_le_max`   a multiple of a tree;
* `height_sumOf_le`, `height_productOf_le`, `height_powerOf_le`   sums, products and powers.
-/

set_option linter.unusedSectionVars false

namespace CurveStudy.Expr

variable {α : Type}

mutual
def height : Expr α → Nat
  | .const _ | .var => 1
  | .sum ts => 1 + heightEach ts
  | .product fs _ => 1 + heightEach fs
  | .power b _ _ => 1 + height b
  | .quotient a b _ => 1 + max (height a) (height b)
  | .trig _ a _ => 1 + height a

/-- the height of the highest tree -/
def heightEach : List (Expr α) → Nat
  | [] => 0
  | e :: es => max (height e) (heightEach es)
end

theorem heightEach_le_iff {es : List (Expr α)} {m : Nat} :
    heightEach es ≤ m ↔ ∀ e ∈ es, e.height ≤ m := by
  induction es with
  | nil => exact ⟨fun _ => nofun, fun _ => Nat.zero_le m⟩
  | cons e es ih => rw [heightEach, Nat.max_le, ih, List.forall_mem_cons]

theorem height_le_heightEach {es : List (Expr α)} {e : Expr α} (h : e ∈ es) :
    e.height ≤ heightEach es :=
  heightEach_le_iff.1 (Nat.le_refl _) e h

theorem height_pos (e : Expr α) : 1 ≤ e.height := by
  cases e with
  | const c => exact Nat.le_refl 1
  | var => exact Nat.le_refl 1
  | _ => exact Nat.le_add_right ..

variable [Scalar α]

/-! ## multiples -/

theorem height_scaleRoot_le (k : α) (e : Expr α) : (e.scaleRoot k).height ≤ max e.height 2 := by
  cases e with
  | var => exact Nat.le_refl 2
  | _ => exact Nat.le_max_left ..

@[simp] theorem height_product_singleton (k : α) (e : Expr α) :
    (product [e] k).height = e.height + 1 := by
  show 1 + max e.height 0 = _
  omega

theorem height_scale_of_isSum_eq_false {e : Expr α} (h : e.isSum = false) (k : α) :
    (e.scale k).height ≤ e.height + 1 := by
  have h1 := e.height_pos
  rw [scale_of_isSum_eq_false k h]
  split
  · exact Nat.le_succ _
  · split
    · have := height_scaleRoot_le k e
      omega
    · exact Nat.le_of_eq (height_product_singleton k e)

theorem height_scale_le {p : α → Prop} {e : Expr α} (h : Formed p e) (k : α) :
    (e.scale k).height ≤ e.height + 1 := by
  by_cases he : e.isSum = false
  · exact height_scale_of_isSum_eq_false he k
  · cases h with
    | @sum ts hl hs h =>
      rw [scale_sum]
      split
      · exact Nat.le_succ _
      · show 1 + heightEach (ts.map (scale k)) ≤ 1 + heightEach ts + 1
        have : heightEach (ts.map (scale k)) ≤ heightEach ts + 1 := by
          refine heightEach_le_iff.2 (List.forall_mem_map.2 fun t ht => ?_)
          have := height_scale_of_isSum_eq_false (hs t ht) k
          have := height_le_heightEach ht
          omega
        omega
    | _ => exact absurd rfl he

section
variable [FiniteLiterals α] {p : α → Prop} {k : α}
  (hk : ∀ c : α, Scalar.isFinite c → Scalar.isFinite (k * c))
include hk

/-- a factor that keeps finite numbers finite is taken into the coefficient, which only the
variable and a constant that is not finite do not have -/
theorem height_scale_le_max_two {e : Expr α} (h : Formed p e) (he : e.isSum = false) :
    (e.scale k).height ≤ max e.height 2 := by
  rw [scale_of_isSum_eq_false k he]
  split
  · exact Nat.le_max_left ..
  · split
    · exact height_scaleRoot_le k e
    · rename_i hf
      rw [height_product_singleton]
      cases h with
      | const _ => exact Nat.le_refl 2
      | var => exact absurd (hk _ FiniteLiterals.one) hf
      | sum _ _ _ => cases he
      | product hc _ _ => exact absurd (hk _ hc) hf
      | power hc _ _ _ _ => exact absurd (hk _ hc) hf
      | quotient hc _ _ => exact absurd (hk _ hc) hf
      | trig hc _ => exact absurd (hk _ hc) hf

theorem height_scale_le_max {e : Expr α} (h : Formed p e) :
    (e.scale k).height ≤ max e.height 3 := by
  by_cases he : e.isSum = false
  · have := height_scale_le_max_two hk h he
    omega
  · cases h with
    | @sum ts hl hs h =>
      rw [scale_sum]
      split
      · exact Nat.le_max_left ..
      · show 1 + heightEach (ts.map (scale k)) ≤ max (1 + heightEach ts) 3
        have : heightEach (ts.map (scale k)) ≤ max (heightEach ts) 2 := by
          refine heightEach_le_iff.2 (List.forall_mem_map.2 fun t ht => ?_)
          have := height_scale_le_max_two hk (h t ht) (hs t ht)
          have := height_le_heightEach ht
          omega
        omega
    | _ => exact absurd rfl he

end

/-! ## sums -/

theorem height_le_of_mem_terms {e t : Expr α} (h : t ∈ e.terms) : t.height ≤ e.height := by
  cases e with
  | sum ts =>
    have : t.height ≤ heightEach ts := height_le_heightEach h
    show t.height ≤ 1 + heightEach ts
    omega
  | const c =>
    rw [terms] at h
    split at h
    · cases h
    · exact Nat.le_of_eq (congrArg height (List.mem_singleton.1 h))
  | _ => exact Nat.le_of_eq (congrArg height (List.mem_singleton.1 h))

theorem height_sumOf_le {es : List (Expr α)} {m : Nat} (h : ∀ e ∈ es, e.height ≤ m) :
    (sumOf es).height ≤ m + 1 := by
  have hts : ∀ t ∈ es.flatMap terms, t.height ≤ m := by
    intro t ht
    obtain ⟨e, he, hte⟩ := List.mem_flatMap.1 ht
    exact Nat.le_trans (height_le_of_mem_terms hte) (h e he)
  rw [sumOf]
  split
  · exact Nat.le_add_left 1 m
  · rename_i e he
    exact Nat.le_succ_of_le (hts e (he ▸ List.mem_singleton_self e))
  · show 1 + heightEach _ ≤ m + 1
    have := heightEach_le_iff.2 hts
    omega

/-! ## products -/

theorem height_le_of_mem_factors {e f : Expr α} (h : f ∈ factors e.split.2) :
    f.height ≤ e.height := by
  cases e with
  | const c => cases h
  | product fs c =>
    have : f.height ≤ heightEach fs := height_le_heightEach h
    show f.height ≤ 1 + heightEach fs
    omega
  | var => exact Nat.le_of_eq (congrArg height (List.mem_singleton.1 h))
  | sum ts => exact Nat.le_of_eq (congrArg height (List.mem_singleton.1 h))
  | power b n c =>
    obtain rfl : f = .power b n 1 := List.mem_singleton.1 h
    exact Nat.le_refl _
  | quotient a b c =>
    obtain rfl : f = .quotient a b 1 := List.mem_singleton.1 h
    exact Nat.le_refl _
  | trig k a c =>
    obtain rfl : f = .trig k a 1 := List.mem_singleton.1 h
    exact Nat.le_refl _

section
variable (h1 : ∀ c : α, Scalar.isFinite c → Scalar.isFinite (c * 1))
include h1

theorem height_scale_of_coeff_eq_one {e : Expr α} (he : e.isSum = false) (hv : e ≠ .var)
    (hc : e.coeff = 1) {k : α} (hk : Scalar.isFinite k) : (e.scale k).height ≤ e.height := by
  rw [scale_of_isSum_eq_false k he]
  split
  · exact Nat.le_refl _
  · rw [hc, if_pos (h1 k hk)]
    cases e with
    | var => exact absurd rfl hv
    | _ => exact Nat.le_refl _

/-- a factor with its coefficient, put together again -/
theorem height_rejoin_le {p : α → Prop} {e : Expr α} (h : Formed p e) {c : α}
    (hc : Scalar.isFinite c) (he : ¬ Scalar.isFinite (c * e.split.1)) :
    (rejoin e.split.1 e.split.2).height ≤ e.height := by
  cases h with
  | const _ => exact Nat.le_refl 1
  | var => exact absurd (h1 c hc) he
  | sum _ _ _ => exact absurd (h1 c hc) he
  | @product fs _ hk _ _ =>
    exact height_scale_of_coeff_eq_one h1 (e := .product fs 1) rfl nofun rfl hk
  | @power b n _ hk _ _ _ _ =>
    exact height_scale_of_coeff_eq_one h1 (e := .power b n 1) rfl nofun rfl hk
  | @quotient a b _ hk _ _ =>
    exact height_scale_of_coeff_eq_one h1 (e := .quotient a b 1) rfl nofun rfl hk
  | @trig k a _ hk _ =>
    exact height_scale_of_coeff_eq_one h1 (e := .trig k a 1) rfl nofun rfl hk

theorem height_le_of_mem_gather {p : α → Prop} {es : List (Expr α)} {c : α} (hc : Scalar.isFinite c)
    (h : ∀ e ∈ es, Formed p e) {m : Nat} (hm : ∀ e ∈ es, e.height ≤ m) :
    ∀ f ∈ (gather c es).2, f.height ≤ m := by
  induction es generalizing c with
  | nil => exact nofun
  | cons e es ih =>
    obtain ⟨he, hes⟩ := List.forall_mem_cons.1 h
    obtain ⟨hme, hmes⟩ := List.forall_mem_cons.1 hm
    by_cases hk : Scalar.isFinite (c * e.split.1)
    · rw [gather_cons_of_isFinite hk]
      intro f hf
      rcases List.mem_append.1 hf with hf | hf
      · exact Nat.le_trans (height_le_of_mem_factors hf) hme
      · exact ih hk hes hmes f hf
    · rw [gather_cons_of_not_isFinite hk]
      exact List.forall_mem_cons.2
        ⟨Nat.le_trans (height_rejoin_le h1 he hc hk) hme, ih hc hes hmes⟩

variable [FiniteLiterals α] {p : α → Prop} (hp : ∀ v : α, Scalar.isFinite v → p v)
include hp

theorem height_productOf_le {es : List (Expr α)} {c : α} (hc : Scalar.isFinite c)
    (h : ∀ e ∈ es, Formed p e) {m : Nat} (hm : ∀ e ∈ es, e.height ≤ m) :
    (productOf es c).height ≤ m + 1 := by
  have hf := height_le_of_mem_gather h1 hc h hm
  have hs := (formed_gather hp hc h).2
  unfold productOf
  dsimp only
  split
  · exact Nat.le_add_left 1 m
  · split
    · exact Nat.le_add_left 1 m
    · rename_i e he
      have he' := he ▸ List.mem_singleton_self e
      have := hf e he'
      have := height_scale_le (hs e he') (gather c es).1
      omega
    · show 1 + heightEach _ ≤ m + 1
      have := heightEach_le_iff.2 hf
      omega

end

/-! ## powers -/

theorem height_powerOf_le {p : α → Prop} {b : Expr α} (h : Formed p b) (n c : α) :
    (powerOf b n c).height ≤ b.height + 1 := by
  unfold powerOf
  split
  · exact Nat.le_add_left 1 _
  · split
    · exact height_scale_le h c
    · split
      · unfold constPower
        split
        · exact Nat.le_succ 1
        · exact Nat.le_refl 2
      · show 1 + b.height ≤ _
        omega

end CurveStudy.Expr
