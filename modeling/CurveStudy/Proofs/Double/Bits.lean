import Mathlib.Tactic.Ring
import CurveStudy.Proofs.Double.Steps

/-!
# The sixty-four bits of a number

The bits of a finite number are taken apart as the format says, and put together again.

* `packComponents_unpack`   the parts of the bits, put together again;
* `pack_unpack`, `ofModel_pack`   a finite number is its sign, its mantissa and its exponent;
* `ofFloat_of_finite`   the mantissa and the exponent of a finite number, read off its bits.
-/

namespace CurveStudy.Double
open Float.Model Float.Model.UnpackedFloat

section
variable (b : BitVec Format.binary64.numBits)

theorem toNat_unpackMantissa : (unpackMantissa b).toNat = b.toNat % 2 ^ 52 := by
  show (b.extractLsb 51 0).toNat = _
  rw [BitVec.extractLsb_toNat]
  rfl

theorem toNat_unpackExponent : (unpackExponent b).toNat = b.toNat / 2 ^ 52 % 2 ^ 11 := by
  show (b.extractLsb 62 52).toNat = _
  rw [BitVec.extractLsb_toNat, Nat.shiftRight_eq_div_pow]

theorem toNat_unpackSign : (unpackSign b).toNat = b.toNat / 2 ^ 63 % 2 := by
  show (b.extractLsb 63 63).toNat = _
  rw [BitVec.extractLsb_toNat, Nat.shiftRight_eq_div_pow]

theorem bit_cases (v : BitVec 1) : v = 0#1 ∨ v = 1#1 := by
  have := v.isLt
  rcases (by omega : v.toNat = 0 ∨ v.toNat = 1) with h | h
  · exact .inl (BitVec.eq_of_toNat_eq h)
  · exact .inr (BitVec.eq_of_toNat_eq h)

@[simp] theorem toBitVec_ofBitVec (v : BitVec 1) : (Sign.ofBitVec v).toBitVec = v := by
  rcases bit_cases v with rfl | rfl <;> rfl

theorem ofBitVec_eq_negative (v : BitVec 1) : Sign.ofBitVec v = .negative ↔ v.toNat = 1 := by
  rcases bit_cases v with rfl | rfl
  · exact iff_of_false (fun h => Sign.noConfusion h) (by decide)
  · exact iff_of_true rfl rfl

@[simp] theorem packComponents_unpack : packComponents Format.binary64 (.ofBitVec (unpackSign b))
    (unpackExponent b) (unpackMantissa b) = b := by
  apply BitVec.eq_of_toNat_eq
  have hs := toNat_unpackSign b
  have hx := toNat_unpackExponent b
  have hf := toNat_unpackMantissa b
  have hlt : b.toNat < 2 ^ 64 := b.isLt
  rw [packComponents, toBitVec_ofBitVec, BitVec.toNat_append, BitVec.toNat_append,
    ← Nat.shiftLeft_add_eq_or_of_lt (BitVec.isLt _),
    ← Nat.shiftLeft_add_eq_or_of_lt (BitVec.isLt _), hs, hx, hf, Nat.shiftLeft_eq, Nat.shiftLeft_eq]
  show (b.toNat / 2 ^ 63 % 2 * 2 ^ 11 + b.toNat / 2 ^ 52 % 2 ^ 11) * 2 ^ 52 + b.toNat % 2 ^ 52 = _
  omega

end

section
variable {b : BitVec Format.binary64.numBits} {s : Sign} {m : Nat} {e : Int} {hm : 0 < m}

/-- a finite number put back into bits -/
theorem pack_unpack (hb : unpack Format.binary64 b = .finite s m e hm) :
    UnpackedFloat.pack Format.binary64 (.finite s m e hm) = b := by
  have hle := (canonical_unpack hb).le
  have hf : (unpackMantissa b).toNat < 2 ^ 52 := (unpackMantissa b).isLt
  obtain ⟨rfl, ⟨h0, rfl, rfl⟩ | ⟨h0, h1, rfl, rfl⟩⟩ := unpack_eq_finite hb
  · have hl : (unpackMantissa b).toNat.log2 < 52 := (Nat.log2_lt (Nat.ne_of_gt hm)).2 hf
    have h0 : unpackExponent b = 0#_ := BitVec.eq_of_toNat_eq h0
    rw [pack_subnormal _ hm hl hle, BitVec.ofNat_toNat, BitVec.setWidth_eq, ← h0]
    exact packComponents_unpack b
  · have hl : (2 ^ 52 + (unpackMantissa b).toNat).log2 = 52 :=
      (Nat.log2_eq_iff (by omega)).2 ⟨by omega, by omega⟩
    have hx : BitVec.ofNat Format.binary64.exponentBits
        (((unpackExponent b).toNat : Int) - 1075 + (1023 : Nat) + (52 : Nat)).toNat
        = unpackExponent b := by
      rw [show (((unpackExponent b).toNat : Int) - 1075 + (1023 : Nat) + (52 : Nat)).toNat
        = (unpackExponent b).toNat by omega, BitVec.ofNat_toNat, BitVec.setWidth_eq]
    have hd : BitVec.ofNat Format.binary64.mantissaBitsWithoutImplicit
        (2 ^ 52 + (unpackMantissa b).toNat) = unpackMantissa b := by
      apply BitVec.eq_of_toNat_eq
      rw [BitVec.toNat_ofNat]
      show (2 ^ 52 + (unpackMantissa b).toNat) % 2 ^ 52 = _
      omega
    rw [pack_normal _ hm hl hle, hx, hd]
    exact packComponents_unpack b

theorem pack_unpack_zero (hb : unpack Format.binary64 b = .zero s) :
    UnpackedFloat.pack Format.binary64 (.zero s) = b := by
  obtain ⟨rfl, h0, hm0⟩ := unpack_eq_zero hb
  have h0 : unpackExponent b = 0#_ := BitVec.eq_of_toNat_eq h0
  have hm0 : unpackMantissa b = 0#_ := BitVec.eq_of_toNat_eq hm0
  have hp := packComponents_unpack b
  rw [h0, hm0] at hp
  exact hp

end

section
variable {v : Float} {s : Sign} {m : Nat} {e : Int} {hm : 0 < m}

theorem ofModel_eq {u : UnpackedFloat}
    (h : UnpackedFloat.pack Format.binary64 u = v.toModel.toBits.toBitVec) :
    Float.ofModel (Float.Model.pack u) = v := by
  have h : (Float.Model.pack u).toBits = v.toModel.toBits := congrArg UInt64.ofBitVec h
  obtain ⟨⟨b, hb⟩⟩ := v
  obtain rfl : (Float.Model.pack u).toBits = b := h
  rfl

/-- a finite number is its sign, its mantissa and its exponent -/
theorem ofModel_pack (hv : v.toModel.unpack = .finite s m e hm) :
    Float.ofModel (Float.Model.pack (.finite s m e hm)) = v :=
  ofModel_eq (pack_unpack hv)

theorem ofModel_pack_zero (hv : v.toModel.unpack = .zero s) :
    Float.ofModel (Float.Model.pack (.zero s)) = v :=
  ofModel_eq (pack_unpack_zero hv)

theorem ofBits_toNat (b : BitVec Format.binary64.numBits) : Binary.ofBits b.toNat
    = { negative := (unpackSign b).toNat = 1
        mantissa := if (unpackExponent b).toNat = 0 then (unpackMantissa b).toNat
          else 2 ^ 52 + (unpackMantissa b).toNat
        exponent := -1074 + ((unpackExponent b).toNat - 1 : Nat) } := by
  rw [toNat_unpackExponent, toNat_unpackMantissa, toNat_unpackSign]
  rfl

theorem ofFloat_of_finite (hv : v.toModel.unpack = .finite s m e hm) :
    (Binary.ofFloat v).mantissa = m ∧ (Binary.ofFloat v).exponent = e
    ∧ ((Binary.ofFloat v).negative ↔ s = .negative) := by
  have hb : Binary.ofFloat v = Binary.ofBits v.toModel.toBits.toBitVec.toNat := rfl
  obtain ⟨rfl, h⟩ := unpack_eq_finite hv
  rw [hb, ofBits_toNat, ofBitVec_eq_negative]
  dsimp only
  rw [decide_eq_true_iff]
  rcases h with ⟨h0, rfl, rfl⟩ | ⟨h0, -, rfl, rfl⟩
  · rw [if_pos h0, h0]
    exact ⟨rfl, rfl, Iff.rfl⟩
  · rw [if_neg h0]
    exact ⟨rfl, by omega, Iff.rfl⟩

theorem ofFloat_of_zero (hv : v.toModel.unpack = .zero s) :
    (Binary.ofFloat v).mantissa = 0 ∧ ((Binary.ofFloat v).negative ↔ s = .negative) := by
  have hb : Binary.ofFloat v = Binary.ofBits v.toModel.toBits.toBitVec.toNat := rfl
  obtain ⟨rfl, h0, hm0⟩ := unpack_eq_zero hv
  rw [hb, ofBits_toNat, ofBitVec_eq_negative]
  dsimp only
  rw [decide_eq_true_iff, if_pos h0]
  exact ⟨hm0, Iff.rfl⟩

end

end CurveStudy.Double
