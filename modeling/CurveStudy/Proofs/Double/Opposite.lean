import CurveStudy.Number
import CurveStudy.Proofs.Decimal.Rounding
import CurveStudy.Proofs.Double.Unsigned

/-!
# Opposite numbers

Two numbers are opposite if they differ in nothing but the sign; the sign of a zero does not count.
Rounding, products and quotients with a number, and differences of opposites are opposite again.
So are the exact values, and the distances from zero are the same.

* `Opposite`   this relation, `Mirrored` for two of the type `Float`;
* `Opposite.pack`, `Opposite.mul`, `Opposite.div`, `Opposite.sub`   arithmetic;
* `Mirrored.toRat`, `Mirrored.nearest`   exact values and the integers nearest to them;
* `Mirrored.abs_lt_iff`, `Mirrored.lt_abs_iff`   distances from zero.
-/

namespace CurveStudy.Double
open Float.Model Float.Model.UnpackedFloat

/-- the two numbers differ in the sign, or are both zero -/
inductive Opposite : UnpackedFloat → UnpackedFloat → Prop where
  | zero (s s' : Sign) : Opposite (.zero s) (.zero s')
  | finite (s : Sign) {m : Nat} {e : Int} (hm : 0 < m) :
      Opposite (.finite s m e hm) (.finite (-s) m e hm)
  | infinity (s : Sign) : Opposite (.infinity s) (.infinity (-s))

/-- the proofs that the mantissas are positive do not count -/
theorem opposite_finite (s : Sign) {m m' : Nat} {e e' : Int} {hm : 0 < m} {hm' : 0 < m'}
    (h : m = m') (he : e = e') : Opposite (.finite s m e hm) (.finite (-s) m' e' hm') := by
  subst h he
  exact .finite s hm

theorem Opposite.dite {p : Prop} [Decidable p] {f f' : p → UnpackedFloat}
    {g g' : ¬p → UnpackedFloat} (hf : ∀ h, Opposite (f h) (f' h))
    (hg : ∀ h, Opposite (g h) (g' h)) :
    Opposite (if h : p then f h else g h) (if h : p then f' h else g' h) := by
  split
  · exact hf _
  · exact hg _

/-! ## arithmetic -/

theorem opposite_roundWithAccuracy (s : Sign) (m : Nat) (e : Int) (acc : Accuracy) :
    Opposite (roundWithAccuracy Format.binary64 s m e acc)
      (roundWithAccuracy Format.binary64 (-s) m e acc) := by
  unfold roundWithAccuracy
  exact .dite (fun _ => .zero s (-s)) fun _ => .finite s _

theorem opposite_normalize (a e : Int) (s : Sign) :
    Opposite (UnpackedFloat.normalize Format.binary64 a e s)
      (UnpackedFloat.normalize Format.binary64 (-a) e s) := by
  unfold UnpackedFloat.normalize
  rcases Int.lt_trichotomy a 0 with ha | rfl | ha
  · rw [Int.compare_eq_lt.2 ha, Int.compare_eq_gt.2 (by omega : 0 < -a)]
    exact opposite_roundWithAccuracy ..
  · exact .zero s s
  · rw [Int.compare_eq_gt.2 ha, Int.compare_eq_lt.2 (by omega : -a < 0), Int.neg_neg]
    exact opposite_roundWithAccuracy ..

section
variable {x : BitVec Format.binary64.exponentBits}
  {m : BitVec Format.binary64.mantissaBitsWithoutImplicit}

/-- bits that differ in the sign and are not those of what is no number -/
theorem opposite_packComponents (s : Sign) (h : x = -1#_ → m = 0#_) :
    Opposite (unpack Format.binary64 (packComponents Format.binary64 s x m))
      (unpack Format.binary64 (packComponents Format.binary64 (-s) x m)) := by
  have hx : ∀ s, unpackExponent (packComponents Format.binary64 s x m) = x :=
    fun _ => unpackExponent_packComponents
  have hf : ∀ s, unpackMantissa (packComponents Format.binary64 s x m) = m :=
    fun _ => unpackMantissa_packComponents
  unfold UnpackedFloat.unpack
  dsimp only
  rw [unpackSign_packComponents, unpackSign_packComponents, ofBitVec_toBitVec, ofBitVec_toBitVec]
  by_cases h1 : x = -1#_
  · rw [if_pos ((hx _).trans h1), if_pos ((hx _).trans h1), if_pos ((hf _).trans (h h1)),
      if_pos ((hf _).trans (h h1))]
    exact .infinity s
  · rw [if_neg ((hx _).trans_ne h1), if_neg ((hx _).trans_ne h1)]
    by_cases h0 : x = 0#_
    · rw [if_pos ((hx _).trans h0), if_pos ((hx _).trans h0)]
      by_cases hm : m = 0#_
      · rw [dif_pos ((hf _).trans hm), dif_pos ((hf _).trans hm)]
        exact .zero s (-s)
      · rw [dif_neg ((hf _).trans_ne hm), dif_neg ((hf _).trans_ne hm)]
        exact opposite_finite s (by rw [hf, hf]) (by rw [hx, hx])
    · rw [if_neg ((hx _).trans_ne h0), if_neg ((hx _).trans_ne h0)]
      exact opposite_finite s (by rw [hf, hf]) (by rw [hx, hx])

end

namespace Opposite
variable {u v u' v' : UnpackedFloat} {m : Nat} {e : Int}

theorem pack (h : Opposite u v) :
    Opposite (Float.Model.pack u).unpack (Float.Model.pack v).unpack := by
  show Opposite (unpack Format.binary64 (UnpackedFloat.pack Format.binary64 u))
    (unpack Format.binary64 (UnpackedFloat.pack Format.binary64 v))
  cases h with
  | zero s s' => cases s <;> cases s' <;> exact .zero _ _
  | infinity s => exact opposite_packComponents s fun _ => rfl
  | finite s hm =>
    obtain ⟨x, f, hxf, hp⟩ := exists_pack_finite hm
    rw [hp, hp]
    exact opposite_packComponents s hxf

/-- products with the same number -/
theorem mul (h : Opposite u v) (s : Sign) (hm : 0 < m) :
    Opposite (UnpackedFloat.mul Format.binary64 u (.finite s m e hm))
      (UnpackedFloat.mul Format.binary64 v (.finite s m e hm)) := by
  cases h with
  | zero t t' => exact .zero _ _
  | infinity t => cases t <;> cases s <;> exact .infinity _
  | finite t hm' => cases t <;> cases s <;> exact opposite_roundWithAccuracy ..

/-- quotients by the same number -/
theorem div (h : Opposite u v) (s : Sign) (hm : 0 < m) :
    Opposite (UnpackedFloat.div Format.binary64 u (.finite s m e hm))
      (UnpackedFloat.div Format.binary64 v (.finite s m e hm)) := by
  cases h with
  | zero t t' => exact .zero _ _
  | infinity t => cases t <;> cases s <;> exact .infinity _
  | finite t hm' => cases t <;> cases s <;> exact opposite_roundWithAccuracy ..

/-- differences, of which the one side is finite -/
theorem sub (h : Opposite u v) (h' : Opposite u' v') (hf : u'.isFinite) :
    Opposite (UnpackedFloat.sub Format.binary64 u u')
      (UnpackedFloat.sub Format.binary64 v v') := by
  cases h' with
  | infinity => cases hf
  | zero t t' =>
    cases h with
    | zero s s' => cases s <;> cases t <;> cases s' <;> cases t' <;> exact .zero _ _
    | finite s hm => exact .finite s hm
    | infinity s => exact .infinity s
  | finite t hm' =>
    cases h with
    | zero s s' => exact .finite (-t) hm'
    | infinity s => exact .infinity s
    | @finite s m e hm =>
      have hneg : ∀ a b : Nat, (-s).apply a - (-t).apply b = -(s.apply a - t.apply b) := by
        intro a b
        rw [apply_neg, apply_neg]
        omega
      unfold UnpackedFloat.sub
      dsimp only
      rw [hneg]
      exact opposite_normalize ..

end Opposite

/-! ## the type `Float` -/

@[simp] theorem unpack_neg (v : Float) : (-v).toModel.unpack = v.toModel.unpack.neg := by
  show (Float.Model.pack v.toModel.unpack.neg).unpack = _
  cases hv : v.toModel.unpack with
  | infinity s => cases s <;> rfl
  | notANumber => rfl
  | zero s => cases s <;> rfl
  | finite s m e hm => exact unpack_pack_finite (-s) hm (canonical_unpack hv)

section
variable {v : Float} {s : Sign} {m : Nat} {e : Int} {hm : 0 < m}

theorem ofFloat_of_infinity (hv : v.toModel.unpack = .infinity s) :
    (Binary.ofFloat v).mantissa = 2 ^ 52 ∧ (Binary.ofFloat v).exponent = 972
    ∧ ((Binary.ofFloat v).negative ↔ s = .negative) := by
  have hb : Binary.ofFloat v = Binary.ofBits v.toModel.toBits.toBitVec.toNat := rfl
  obtain ⟨rfl, hx, hm0⟩ := unpack_eq_infinity hv
  rw [hb, ofBits_toNat, ofBitVec_eq_negative, hx, hm0]
  dsimp only
  rw [decide_eq_true_iff]
  exact ⟨rfl, rfl, Iff.rfl⟩

/-- a number without a sign is not below zero -/
theorem toRat_nonneg_of_unsigned (h : Unsigned v.toModel.unpack) : 0 ≤ Number.toRat v := by
  have hn : ¬ (Binary.ofFloat v).negative := by
    generalize hu : v.toModel.unpack = u at h
    cases h with
    | zero => exact fun h => Sign.noConfusion ((ofFloat_of_zero hu).2.1 h)
    | finite hm => exact fun h => Sign.noConfusion ((ofFloat_of_finite hu).2.2.1 h)
    | infinity => exact fun h => Sign.noConfusion ((ofFloat_of_infinity hu).2.2.1 h)
  show 0 ≤ (Binary.ofFloat v).toRat
  rw [Binary.toRat, if_neg hn, Binary.magnitude]
  positivity

/-! what the distance from zero is, taken apart -/

theorem unpack_abs_of_lt
    (h : UnpackedFloat.compare v.toModel.unpack (0 : Float).toModel.unpack = some .lt) :
    (Number.abs v).toModel.unpack = v.toModel.unpack.neg := by
  have habs : Number.abs v = -v := if_pos (lt_iff_compare.2 h)
  rw [habs, unpack_neg]

theorem unpack_abs_of_ne
    (h : UnpackedFloat.compare v.toModel.unpack (0 : Float).toModel.unpack ≠ some .lt) :
    (Number.abs v).toModel.unpack = v.toModel.unpack := by
  have habs : Number.abs v = v := if_neg (mt lt_iff_compare.1 h)
  rw [habs]

theorem unpack_abs_of_zero (hv : v.toModel.unpack = .zero s) :
    (Number.abs v).toModel.unpack = .zero s := by
  rw [unpack_abs_of_ne (by rw [hv]; exact nofun), hv]

theorem unpack_abs_of_finite (hv : v.toModel.unpack = .finite s m e hm) :
    (Number.abs v).toModel.unpack = .finite .positive m e hm := by
  cases s with
  | negative =>
    rw [unpack_abs_of_lt (by rw [hv]; rfl), hv]
    rfl
  | positive => rw [unpack_abs_of_ne (by rw [hv]; exact nofun), hv]

theorem unpack_abs_of_infinity (hv : v.toModel.unpack = .infinity s) :
    (Number.abs v).toModel.unpack = .infinity .positive := by
  cases s with
  | negative =>
    rw [unpack_abs_of_lt (by rw [hv]; rfl), hv]
    rfl
  | positive => rw [unpack_abs_of_ne (by rw [hv]; exact nofun), hv]

end

/-- exact values that differ in the sign -/
theorem toRat_eq_neg {b c : Binary} {s : Sign} (hm : c.mantissa = b.mantissa)
    (he : c.exponent = b.exponent) (hb : b.negative ↔ s = .negative)
    (hc : c.negative ↔ -s = .negative) : c.toRat = -b.toRat := by
  rw [Binary.toRat, Binary.toRat, Binary.magnitude, Binary.magnitude, hm, he]
  cases s with
  | negative => rw [if_pos (hb.2 rfl), if_neg fun h => Sign.noConfusion (hc.1 h), neg_neg]
  | positive => rw [if_neg fun h => Sign.noConfusion (hb.1 h), if_pos (hc.2 rfl)]

/-- the two numbers are opposite -/
def Mirrored (v w : Float) : Prop := Opposite v.toModel.unpack w.toModel.unpack

namespace Mirrored
variable {v w v' w' x : Float} {s : Sign} {m : Nat} {e : Int} {hm : 0 < m}

theorem neg_of_ne (h : v.toModel.unpack ≠ .notANumber) : Mirrored v (-v) := by
  rw [Mirrored, unpack_neg]
  cases hv : v.toModel.unpack with
  | infinity s => exact .infinity s
  | notANumber => exact absurd hv h
  | zero s => exact .zero s (-s)
  | finite s m e hm => exact .finite s hm

theorem neg_self (h : Scalar.isFinite v) : Mirrored v (-v) := by
  refine neg_of_ne fun hv => ?_
  have h' : v.toModel.unpack.isFinite := h
  rw [hv] at h'
  cases h'

theorem symm (h : Mirrored v w) : Mirrored w v := by
  unfold Mirrored at h ⊢
  generalize v.toModel.unpack = u, w.toModel.unpack = u' at h
  cases h with
  | zero s s' => exact .zero s' s
  | finite s hm => cases s <;> exact .finite _ hm
  | infinity s => cases s <;> exact .infinity _

theorem mul (h : Mirrored v w) (hx : x.toModel.unpack = .finite s m e hm) :
    Mirrored (v * x) (w * x) := by
  show Opposite
    (Float.Model.pack (UnpackedFloat.mul Format.binary64 v.toModel.unpack x.toModel.unpack)).unpack
    (Float.Model.pack (UnpackedFloat.mul Format.binary64 w.toModel.unpack x.toModel.unpack)).unpack
  rw [hx]
  exact (Opposite.mul h s hm).pack

theorem div (h : Mirrored v w) (hx : x.toModel.unpack = .finite s m e hm) :
    Mirrored (v / x) (w / x) := by
  show Opposite
    (Float.Model.pack (UnpackedFloat.div Format.binary64 v.toModel.unpack x.toModel.unpack)).unpack
    (Float.Model.pack (UnpackedFloat.div Format.binary64 w.toModel.unpack x.toModel.unpack)).unpack
  rw [hx]
  exact (Opposite.div h s hm).pack

theorem sub (h : Mirrored v w) (h' : Mirrored v' w') (hf : Scalar.isFinite v') :
    Mirrored (v - v') (w - w') :=
  (Opposite.sub h h' hf).pack

theorem toRat (h : Mirrored v w) : Number.toRat w = -Number.toRat v := by
  show (Binary.ofFloat w).toRat = -(Binary.ofFloat v).toRat
  unfold Mirrored at h
  generalize hv : v.toModel.unpack = u, hw : w.toModel.unpack = u' at h
  cases h with
  | zero s s' =>
    obtain ⟨hm, -⟩ := ofFloat_of_zero hv
    obtain ⟨hm', -⟩ := ofFloat_of_zero hw
    simp [Binary.toRat, Binary.magnitude, hm, hm']
  | finite s hm =>
    obtain ⟨hm, he, hn⟩ := ofFloat_of_finite hv
    obtain ⟨hm', he', hn'⟩ := ofFloat_of_finite hw
    exact toRat_eq_neg (hm'.trans hm.symm) (he'.trans he.symm) hn hn'
  | infinity s =>
    obtain ⟨hm, he, hn⟩ := ofFloat_of_infinity hv
    obtain ⟨hm', he', hn'⟩ := ofFloat_of_infinity hw
    exact toRat_eq_neg (hm'.trans hm.symm) (he'.trans he.symm) hn hn'

theorem nearest (h : Mirrored v w) : Number.nearest w = -Number.nearest v := by
  rw [Number.nearest, Number.nearest, h.toRat, Decimal.roundAway_neg]

/-- the distances from zero compare alike with every number -/
theorem compare_abs (h : Mirrored v w) (u : UnpackedFloat) :
    UnpackedFloat.compare (Number.abs w).toModel.unpack u
      = UnpackedFloat.compare (Number.abs v).toModel.unpack u
    ∧ UnpackedFloat.compare u (Number.abs w).toModel.unpack
      = UnpackedFloat.compare u (Number.abs v).toModel.unpack := by
  unfold Mirrored at h
  generalize hv : v.toModel.unpack = u, hw : w.toModel.unpack = u' at h
  cases h with
  | zero s s' =>
    rw [unpack_abs_of_zero hv, unpack_abs_of_zero hw]
    cases u with
    | infinity t => cases t <;> exact ⟨rfl, rfl⟩
    | notANumber => exact ⟨rfl, rfl⟩
    | zero t => exact ⟨rfl, rfl⟩
    | finite t m e hm => cases t <;> exact ⟨rfl, rfl⟩
  | finite s hm =>
    rw [unpack_abs_of_finite hv, unpack_abs_of_finite hw]
    exact ⟨rfl, rfl⟩
  | infinity s =>
    rw [unpack_abs_of_infinity hv, unpack_abs_of_infinity hw]
    exact ⟨rfl, rfl⟩

theorem abs_lt_iff (h : Mirrored v w) : Number.abs w < x ↔ Number.abs v < x := by
  rw [lt_iff_compare, lt_iff_compare, (h.compare_abs _).1]

theorem lt_abs_iff (h : Mirrored v w) : x < Number.abs w ↔ x < Number.abs v := by
  rw [lt_iff_compare, lt_iff_compare, (h.compare_abs _).2]

end Mirrored

theorem unpack_ofNat_ne (n : Nat) : (Number.ofNat n : Float).toModel.unpack ≠ .notANumber := by
  have h : Unsigned (Number.ofNat n : Float).toModel.unpack := unsigned_ofDecimal n 0
  intro hn
  rw [hn] at h
  cases h

/-- opposite integers -/
theorem mirrored_ofInt (n : Int) : Mirrored (Number.ofInt n) (Number.ofInt (-n)) := by
  have h := Mirrored.neg_of_ne (unpack_ofNat_ne n.natAbs)
  unfold Number.ofInt
  rw [Int.natAbs_neg]
  rcases Int.lt_trichotomy n 0 with hn | rfl | hn
  · rw [if_pos hn, if_neg (by omega)]
    exact h.symm
  · exact .zero .positive .positive
  · rw [if_neg (by omega), if_pos (by omega)]
    exact h

end CurveStudy.Double
