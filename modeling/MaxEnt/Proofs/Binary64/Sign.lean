import Mathlib
import MaxEnt.Scalar

namespace MaxEnt

open Float.Model Float.Model.UnpackedFloat

def sign? : UnpackedFloat → Option Sign
  | .notANumber => none
  | .infinity s => some s
  | .zero _ => none
  | .finite s .. => some s

theorem lt_zero_iff {u : UnpackedFloat} {z : Sign} :
    u.lt (.zero z) = true ↔ sign? u = some .negative := by
  cases u with
  | notANumber => simp [UnpackedFloat.lt, UnpackedFloat.compare, sign?]
  | infinity s => cases s <;> simp [UnpackedFloat.lt, UnpackedFloat.compare, sign?]
  | zero s => simp [UnpackedFloat.lt, UnpackedFloat.compare, sign?]
  | finite s m e h => cases s <;> simp [UnpackedFloat.lt, UnpackedFloat.compare, sign?]

theorem lt_eq_false_of_signs {u v : UnpackedFloat} (hu : sign? u ≠ some .negative)
    (hv : sign? v ≠ some .positive) : u.lt v = false := by
  cases u with
  | notANumber => cases v <;> rfl
  | infinity s =>
    cases s with
    | negative => exact absurd rfl hu
    | positive => cases v with
      | infinity t => cases t <;> rfl
      | _ => rfl
  | zero s => cases v with
    | notANumber => rfl
    | infinity t => cases t with
      | negative => rfl
      | positive => exact absurd rfl hv
    | zero t => rfl
    | finite t m e h => cases t with
      | negative => rfl
      | positive => exact absurd rfl hv
  | finite s m e h => cases s with
    | negative => exact absurd rfl hu
    | positive => cases v with
      | notANumber => rfl
      | infinity t => cases t with
        | negative => rfl
        | positive => exact absurd rfl hv
      | zero t => rfl
      | finite t m' e' h' => cases t with
        | negative => rfl
        | positive => exact absurd rfl hv

theorem unpackSign_packComponents (spec : Format) (s : Sign) (e : BitVec spec.exponentBits)
    (m : BitVec spec.mantissaBitsWithoutImplicit) :
    unpackSign (packComponents spec s e m) = s.toBitVec := by
  ext i hi
  have hi0 : i = 0 := by omega
  subst hi0
  simp [unpackSign, packComponents, BitVec.getLsbD_append, BitVec.getElem_append]

theorem ofBitVec_toBitVec (s : Sign) : Sign.ofBitVec s.toBitVec = s := by
  cases s <;> rfl

theorem sign?_unpack {spec : Format} {b : BitVec spec.numBits} {s : Sign}
    (h : sign? (UnpackedFloat.unpack spec b) = some s) : Sign.ofBitVec (unpackSign b) = s := by
  rw [UnpackedFloat.unpack] at h
  split at h
  · split at h
    · exact Option.some.inj h
    · cases h
  · split at h
    · split at h
      · cases h
      · exact Option.some.inj h
    · exact Option.some.inj h

theorem sign?_unpack_packComponents {spec : Format} {s t : Sign} {e : BitVec spec.exponentBits}
    {m : BitVec spec.mantissaBitsWithoutImplicit}
    (h : sign? (UnpackedFloat.unpack spec (packComponents spec s e m)) = some t) : t = s := by
  rw [← sign?_unpack h, unpackSign_packComponents, ofBitVec_toBitVec]

/-- Packing rounds no number across zero. -/
theorem sign?_unpack_pack {u : UnpackedFloat} {s : Sign}
    (h : sign? (UnpackedFloat.unpack .binary64 (UnpackedFloat.pack .binary64 u)) = some s) : sign? u = some s := by
  cases u with
  | notANumber => cases h
  | infinity t => rw [sign?, sign?_unpack_packComponents h]
  | zero t => cases t <;> cases h
  | finite t m e hm =>
    rw [UnpackedFloat.pack] at h
    split at h
    · rw [sign?, sign?_unpack_packComponents h]
    · split at h <;> rw [sign?, sign?_unpack_packComponents h]

theorem sign?_zero_sub {u : UnpackedFloat} (h : sign? u = some .negative) (z : Sign) :
    sign? (UnpackedFloat.sub .binary64 (.zero z) u) = some .positive := by
  cases u with
  | notANumber => cases h
  | infinity s =>
    cases h
    rfl
  | zero s => cases h
  | finite s m e hm =>
    cases h
    rfl

namespace Scalar

theorem lt_float (x y : Float) : lt x y = x.toModel.unpack.lt y.toModel.unpack := by
  rw [Bool.eq_iff_iff]
  exact Iff.trans decide_eq_true_iff decide_eq_true_iff

theorem lt_zero_float (x : Float) :
    lt x (Zero.zero : Float) = true ↔ sign? x.toModel.unpack = some .negative := by
  rw [lt_float]
  exact lt_zero_iff

theorem sign?_zero_sub_float {x : Float} (h : sign? x.toModel.unpack = some .negative) :
    sign? ((Zero.zero : Float) - x).toModel.unpack ≠ some .negative := by
  intro hnegative
  have hpositive := sign?_zero_sub h .positive
  have hsub := sign?_unpack_pack (u := UnpackedFloat.sub .binary64 (.zero .positive) x.toModel.unpack)
    hnegative
  rw [hpositive] at hsub
  cases hsub

end Scalar

namespace Binary64

theorem toNat_unpackExponent (b : BitVec Format.binary64.numBits) :
    (unpackExponent b).toNat = b.toNat / 2 ^ 52 % 2 ^ 11 := by
  simp [unpackExponent, Nat.shiftRight_eq_div_pow]

theorem toNat_unpackMantissa (b : BitVec Format.binary64.numBits) :
    (unpackMantissa b).toNat = b.toNat % 2 ^ 52 := by
  simp [unpackMantissa]

theorem toNat_unpackSign (b : BitVec Format.binary64.numBits) :
    (unpackSign b).toNat = b.toNat / 2 ^ 63 % 2 := by
  simp [unpackSign, Nat.shiftRight_eq_div_pow]

theorem magnitude_of_sign? {b : BitVec Format.binary64.numBits} {s : Sign}
    (h : sign? (UnpackedFloat.unpack .binary64 b) = some s) :
    0 < b.toNat % 2 ^ 63 ∧ b.toNat % 2 ^ 63 ≤ infinityBits := by
  have hexponent := toNat_unpackExponent b
  have hmantissa := toNat_unpackMantissa b
  have hlt := (unpackExponent b).isLt
  rw [infinityBits]
  rw [UnpackedFloat.unpack] at h
  simp only [← BitVec.toNat_inj, hexponent, hmantissa] at h
  have hones : (-1#11).toNat = 2047 := by decide
  have hzero : (0#11).toNat = 0 := by decide
  have hzero' : (0#52).toNat = 0 := by decide
  simp only [hones, hzero, hzero'] at h
  split at h
  · split at h
    · omega
    · cases h
  · split at h
    · split at h
      · cases h
      · omega
    · omega

theorem toNat_lt_of_positive {b : BitVec Format.binary64.numBits}
    (h : Sign.ofBitVec (unpackSign b) = .positive) : b.toNat < 2 ^ 63 := by
  have hbit : unpackSign b = 0#1 := by
    by_contra hone
    rw [Sign.ofBitVec, if_neg hone] at h
    cases h
  have hlow := toNat_unpackSign b
  rw [hbit, BitVec.toNat_ofNat] at hlow
  have hlt : b.toNat < 2 ^ 64 := b.isLt
  omega

theorem sign?_toFloat {x : Binary64} (h : zero.lessThan x = false) :
    sign? x.toFloat.toModel.unpack ≠ some .positive := by
  intro hpositive
  have hsign : sign? (UnpackedFloat.unpack .binary64 x.bits.toBitVec) = some .positive :=
    sign?_unpack_pack hpositive
  obtain ⟨hpos, hle⟩ := magnitude_of_sign? hsign
  have hlt := toNat_lt_of_positive (sign?_unpack hsign)
  simp only [UInt64.toNat_toBitVec] at hpos hle hlt
  have hnegative : x.isNegative = false := by
    rw [isNegative, decide_eq_false_iff_not]
    omega
  have hnumber : x.isNaN = false := by
    rw [isNaN, decide_eq_false_iff_not, magnitude]
    omega
  have hzero : zero.rank = 0 ∧ zero.isNaN = false := by decide
  have habove : zero.rank < x.rank := by
    rw [hzero.1, rank, hnegative, magnitude]
    simp only [Bool.false_eq_true, if_false]
    omega
  rw [lessThan, hzero.2, hnumber, decide_eq_true habove] at h
  cases h

end Binary64

end MaxEnt
