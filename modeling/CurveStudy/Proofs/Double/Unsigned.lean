import CurveStudy.Proofs.Cut
import CurveStudy.Proofs.Double.Text

/-!
# Decimals have no sign

The number nearest to a decimal is zero, a finite number or infinity, and its sign is positive.
So a numeral that is not finite is infinite, and the number of one that is has no sign in its text.

* `Unsigned`   zero, a finite number or infinity, with a positive sign;
* `Unsigned.pack`   rounding into the format keeps this;
* `unsigned_ofDecimal`   decimals;
* `eq_infinity_of_unsigned`   what is unsigned and not finite;
* `scan_cut`   how a text is cut into tokens, over double precision.
-/

namespace CurveStudy.Double
open Float.Model Float.Model.UnpackedFloat

/-- zero, a finite number or infinity, with a positive sign -/
inductive Unsigned : UnpackedFloat → Prop where
  | zero : Unsigned (.zero .positive)
  | finite {m : Nat} {e : Int} (hm : 0 < m) : Unsigned (.finite .positive m e hm)
  | infinity : Unsigned (.infinity .positive)

section
variable {p : Prop} [Decidable p]

theorem Unsigned.dite {f : p → UnpackedFloat} {g : ¬p → UnpackedFloat} (hf : ∀ h, Unsigned (f h))
    (hg : ∀ h, Unsigned (g h)) : Unsigned (if h : p then f h else g h) := by
  split
  · exact hf _
  · exact hg _

theorem Unsigned.ite {u v : UnpackedFloat} (hu : Unsigned u) (hv : Unsigned v) :
    Unsigned (if p then u else v) := by
  split
  · exact hu
  · exact hv

end

section
variable {x : BitVec Format.binary64.exponentBits}
  {m : BitVec Format.binary64.mantissaBitsWithoutImplicit}

/-- bits with a positive sign that are not those of what is no number -/
theorem unsigned_packComponents (h : x = -1#_ → m = 0#_) :
    Unsigned (unpack Format.binary64 (packComponents Format.binary64 .positive x m)) := by
  have hx : unpackExponent (packComponents Format.binary64 .positive x m) = x :=
    unpackExponent_packComponents
  have hf : unpackMantissa (packComponents Format.binary64 .positive x m) = m :=
    unpackMantissa_packComponents
  have hs := unpackSign_packComponents .positive (x := x) (m := m)
  generalize packComponents Format.binary64 .positive x m = b at hx hf hs
  subst hx hf
  unfold UnpackedFloat.unpack
  dsimp only
  rw [hs, ofBitVec_toBitVec]
  by_cases h1 : unpackExponent b = -1#_
  · rw [if_pos h1, if_pos (h h1)]
    exact .infinity
  · rw [if_neg h1]
    exact .ite (.dite (fun _ => .zero) fun _ => .finite _) (.finite _)

end

/-- the bits of a number that is rounded into the format: but for the sign they do not depend on the
sign, and they are not those of what is no number -/
theorem exists_pack_finite {m : Nat} {e : Int} (hm : 0 < m) :
    ∃ (x : BitVec Format.binary64.exponentBits)
      (f : BitVec Format.binary64.mantissaBitsWithoutImplicit), (x = -1#_ → f = 0#_)
      ∧ ∀ s, UnpackedFloat.pack Format.binary64 (.finite s m e hm)
        = packComponents Format.binary64 s x f := by
  unfold UnpackedFloat.pack
  dsimp only
  split
  · exact ⟨-1#_, 0#_, fun _ => rfl, fun _ => rfl⟩
  · rename_i hlt
    split
    · refine ⟨_, _, fun h => ?_, fun _ => rfl⟩
      -- the exponent is below the one of infinity
      have h := congrArg BitVec.toNat h
      rw [BitVec.toNat_ofNat] at h
      have hmod : (e + Format.binary64.exponentBias
        + Format.binary64.mantissaBitsWithoutImplicit).toNat % 2 ^ 11 = 2047 := h
      have hlt : ¬ 2 ^ 11 ≤ (e + Format.binary64.exponentBias
        + Format.binary64.mantissaBitsWithoutImplicit).toNat + 1 := hlt
      omega
    · exact ⟨0#_, _, fun h => absurd h (by decide), fun _ => rfl⟩

/-- rounding into the format -/
theorem Unsigned.pack {u : UnpackedFloat} (h : Unsigned u) :
    Unsigned (Float.Model.pack u).unpack := by
  show Unsigned (unpack Format.binary64 (UnpackedFloat.pack Format.binary64 u))
  cases h with
  | zero => exact unsigned_packComponents fun h => absurd h (by decide)
  | infinity => exact unsigned_packComponents fun _ => rfl
  | @finite m e hm =>
    obtain ⟨x, f, hxf, hp⟩ := exists_pack_finite hm
    rw [hp]
    exact unsigned_packComponents hxf

theorem unsigned_roundWithAccuracy (m : Nat) (e : Int) (acc : Accuracy) :
    Unsigned (roundWithAccuracy Format.binary64 .positive m e acc) := by
  unfold roundWithAccuracy
  exact .dite (fun _ => .zero) fun _ => .finite _

section
variable {m m' : Nat} {e e' : Int} (hm : 0 < m) (hm' : 0 < m')

theorem unsigned_mul : Unsigned (UnpackedFloat.mul Format.binary64 (.finite .positive m e hm)
    (.finite .positive m' e' hm')) :=
  unsigned_roundWithAccuracy ..

theorem unsigned_div : Unsigned (UnpackedFloat.div Format.binary64 (.finite .positive m e hm)
    (.finite .positive m' e' hm')) :=
  unsigned_roundWithAccuracy ..

end

theorem unsigned_ofScientific (m : Nat) (e : Int) :
    Unsigned (UnpackedFloat.ofScientific Format.binary64 m e) := by
  unfold UnpackedFloat.ofScientific
  refine .dite (fun _ => .zero) fun _ => .ite .infinity (.ite .zero ?_)
  exact .ite (unsigned_mul ..) (unsigned_div ..)

/-! a whole number that is not rounded, over or times a power of ten that is not either -/

section
variable {c k : Nat} (hc : 0 < c) (h53 : c < 2 ^ 53)
  (hk : k < Float.exactlyRepresentablePowersOfTen.size)
include hc h53

theorem unsigned_toFloat_div :
    Unsigned (c.toUInt64.toFloat / Float.exactlyRepresentablePowersOfTen[k]).toModel.unpack := by
  obtain ⟨m, e, hm, hp, -⟩ := exists_unpack_power hk
  show Unsigned (Float.Model.pack (UnpackedFloat.div Format.binary64
    c.toUInt64.toFloat.toModel.unpack
    Float.exactlyRepresentablePowersOfTen[k].toModel.unpack)).unpack
  rw [unpack_toFloat hc h53 rfl (Nat.mul_pos hc (Nat.two_pow_pos _)), hp]
  exact (unsigned_div ..).pack

theorem unsigned_toFloat_mul :
    Unsigned (c.toUInt64.toFloat * Float.exactlyRepresentablePowersOfTen[k]).toModel.unpack := by
  obtain ⟨m, e, hm, hp, -⟩ := exists_unpack_power hk
  show Unsigned (Float.Model.pack (UnpackedFloat.mul Format.binary64
    c.toUInt64.toFloat.toModel.unpack
    Float.exactlyRepresentablePowersOfTen[k].toModel.unpack)).unpack
  rw [unpack_toFloat hc h53 rfl (Nat.mul_pos hc (Nat.two_pow_pos _)), hp]
  exact (unsigned_mul ..).pack

end

/-- the number nearest to a decimal -/
theorem unsigned_ofDecimal (m : Nat) (e : Int) : Unsigned (ofDecimal m e).toModel.unpack := by
  unfold ofDecimal
  dsimp only
  split
  · exact .zero
  · rename_i h0
    split
    · exact .infinity
    · unfold Float.ofScientific
      split
      · rename_i h
        have hm : 0 < m := Nat.pos_of_ne_zero fun hm => h0 (.inl hm)
        dsimp only
        split
        · exact unsigned_toFloat_div hm h.1 (Nat.lt_succ_of_le h.2)
        · exact unsigned_toFloat_mul hm h.1 (Nat.lt_succ_of_le h.2)
      · exact (unsigned_ofScientific _ _).pack

theorem unpack_eq_infinity {b : BitVec Format.binary64.numBits} {s : Sign}
    (h : unpack Format.binary64 b = .infinity s) :
    s = .ofBitVec (unpackSign b) ∧ unpackExponent b = -1#_ ∧ unpackMantissa b = 0#_ := by
  unfold UnpackedFloat.unpack at h
  dsimp only at h
  by_cases h1 : unpackExponent b = -1#_
  · rw [if_pos h1] at h
    by_cases hm : unpackMantissa b = 0#_
    · rw [if_pos hm] at h
      exact ⟨(UnpackedFloat.infinity.inj h).symm, h1, hm⟩
    · rw [if_neg hm] at h
      cases h
  · rw [if_neg h1] at h
    by_cases h0 : unpackExponent b = 0#_
    · rw [if_pos h0] at h
      by_cases hm : unpackMantissa b = 0#_
      · rw [dif_pos hm] at h
        cases h
      · rw [dif_neg hm] at h
        cases h
    · rw [if_neg h0] at h
      cases h

theorem pack_unpack_infinity {b : BitVec Format.binary64.numBits} {s : Sign}
    (hb : unpack Format.binary64 b = .infinity s) :
    UnpackedFloat.pack Format.binary64 (.infinity s) = b := by
  obtain ⟨rfl, hx, hm⟩ := unpack_eq_infinity hb
  have hp := packComponents_unpack b
  rw [hx, hm] at hp
  exact hp

section
variable {v : Float} (h : Unsigned v.toModel.unpack)
include h

/-- what has no sign and is not finite -/
theorem eq_infinity_of_unsigned (hf : Scalar.isFinite v = false) : v = 1.0 / 0.0 := by
  have hf : v.toModel.unpack.isFinite = false := hf
  generalize hu : v.toModel.unpack = u at h hf
  cases h with
  | zero => cases hf
  | finite hm => cases hf
  | infinity => exact (ofModel_eq (pack_unpack_infinity hu)).symm

/-- a number that has no sign has none in its text -/
theorem isSigned_text_of_unsigned (hf : Scalar.isFinite v) : (text v).isSigned = false := by
  have ht := text_of_isFinite rfl (show v.toModel.unpack.isFinite from hf)
  generalize hu : v.toModel.unpack = u at h
  cases h with
  | zero =>
    obtain ⟨hm, hs⟩ := ofFloat_of_zero hu
    rw [if_neg fun hn => Sign.noConfusion (hs.1 hn), if_pos hm] at ht
    rw [ht]
    rfl
  | finite hm =>
    obtain ⟨hmant, -, hs⟩ := ofFloat_of_finite hu
    rw [if_neg fun hn => Sign.noConfusion (hs.1 hn),
      if_neg (hmant.symm ▸ Nat.ne_of_gt hm)] at ht
    obtain ⟨c, w, hw, hc⟩ := (value_interval_text hu hu).1.exists_digit
    rw [ht, hw]
    refine beq_eq_false_iff_ne.2 fun h => ?_
    rw [Option.some.inj h] at hc
    cases hc
  | infinity =>
    have hf : v.toModel.unpack.isFinite := hf
    rw [hu] at hf
    cases hf

end

end CurveStudy.Double

namespace CurveStudy

instance : UnsignedLiterals Float where
  isSigned_text _ _ := Double.isSigned_text_of_unsigned (Double.unsigned_ofDecimal _ _)

/-- The tokens of a text are its slices: each starts where its token stands, nothing but blanks is
between two of them, and each is the token alone and is as long as it can be.  A text without tokens
has some up to the place of the fault, where a character starts nothing or the longest numeral is
infinite. -/
theorem Token.scan_cut (t : Text) : match (Token.scan t : Except Fault (List (Token Float))) with
    | .ok ts => Token.Cut 0 t ts
    | .error f => ∃ (u v : Text) (ts : List (Token Float)), t = u ++ v ∧ Token.scan u = .ok ts
        ∧ Token.Stops (fun x : Float => x = 1.0 / 0.0) u.byteSize v f := by
  cases h : (Token.scan t : Except Fault (List (Token Float))) with
  | ok ts => exact Token.scanFrom_eq_ok_iff.1 h
  | error f =>
    obtain ⟨u, v, ts, rfl, hu, hs⟩ := Token.scan_eq_error_cut h
    exact ⟨u, v, ts, rfl, hu, hs.mono fun n hn =>
      Double.eq_infinity_of_unsigned (Double.unsigned_ofDecimal _ _) hn⟩

end CurveStudy
