import Mathlib
import ScriptFold.Numeral.Binary64
/-!
# Laws of binary64 arithmetic

In the logic, Lean's `Float` is its model `Float.Model`: a 64-bit pattern in which every NaN is
the one canonical NaN. Each operation unpacks its operands into sign, mantissa and exponent,
computes exactly and rounds, and packs the result again. The operators on script values keep
doubles as bit patterns (`Numeral.Double`) and compute through `Float`, so what they promise
about swapping operands rests on three laws of that model, proved here from its definitions:

* `+` and `*` commute (`float_add_comm`, `float_mul_comm`): the unpacked sum aligns both operands
  at the smaller exponent and adds the signed mantissas, and the product multiplies signs and
  mantissas and adds exponents;
* `<` is asymmetric (`float_lt_asymm`): comparing the other way round swaps the ordering
  (`unpacked_compare_swap`);
* a double read back from its bits is itself (`Double.toFloat_ofFloat`): packing the fields of a
  valid pattern restores it (`pack_unpack`).
-/
namespace ScriptFold.Numeral

set_option autoImplicit false

open Float.Model Float.Model.UnpackedFloat

/-! ## Unpacked floats -/

theorem sign_mul_comm (s t : UnpackedFloat.Sign) : s * t = t * s := by
  cases s <;> cases t <;> rfl

theorem unpacked_add_comm (spec : Format) (a b : UnpackedFloat) :
    UnpackedFloat.add spec a b = UnpackedFloat.add spec b a := by
  cases a with
  | infinity s =>
    cases b with
    | infinity t => cases s <;> cases t <;> rfl
    | _ => rfl
  | notANumber => cases b <;> rfl
  | zero s =>
    cases b with
    | zero t => cases s <;> cases t <;> rfl
    | _ => rfl
  | finite s m e hm =>
    cases b with
    | finite t n f hn =>
      simp only [UnpackedFloat.add, decreaseExponent, Int.min_comm f e, Int.add_comm]
    | _ => rfl

theorem unpacked_mul_comm (spec : Format) (a b : UnpackedFloat) :
    UnpackedFloat.mul spec a b = UnpackedFloat.mul spec b a := by
  cases a <;> cases b <;>
    simp only [UnpackedFloat.mul, sign_mul_comm, Nat.mul_comm, Int.add_comm]

theorem unpacked_compare_swap (a b : UnpackedFloat) :
    UnpackedFloat.compare b a = (UnpackedFloat.compare a b).map Ordering.swap := by
  cases a with
  | notANumber => cases b <;> rfl
  | infinity s =>
    cases b with
    | notANumber => rfl
    | infinity t => cases s <;> cases t <;> rfl
    | zero t => cases s <;> rfl
    | finite t => cases s <;> rfl
  | zero s =>
    cases b with
    | notANumber => rfl
    | infinity t => cases t <;> rfl
    | zero t => rfl
    | finite t => cases t <;> rfl
  | finite s m e hm =>
    cases b with
    | notANumber => rfl
    | infinity t => cases t <;> rfl
    | zero t => cases s <;> rfl
    | finite t n f hn =>
      cases s <;> cases t <;>
        simp [UnpackedFloat.compare, Ordering.swap_then, ← Int.compare_swap e f,
          ← Nat.compare_swap m n]

/-! ## Bit patterns -/

theorem sign_toBitVec_ofBitVec : ∀ v : BitVec 1, (UnpackedFloat.Sign.ofBitVec v).toBitVec = v := by
  decide

theorem fields_reassemble (b : BitVec Format.binary64.numBits) :
    packComponents .binary64 (UnpackedFloat.Sign.ofBitVec (unpackSign b)) (unpackExponent b)
      (unpackMantissa b) = b := by
  simp only [packComponents, sign_toBitVec_ofBitVec, unpackSign, unpackExponent, unpackMantissa]
  ext i hi
  simp only [BitVec.getElem_append, BitVec.getElem_cast]
  grind

theorem pack_unpack {b : BitVec Format.binary64.numBits} (hv : Format.binary64.Valid b) :
    UnpackedFloat.pack .binary64 (UnpackedFloat.unpack .binary64 b) = b := by
  have hM : (unpackMantissa b).toNat < 2 ^ 52 := (unpackMantissa b).isLt
  have hE : (unpackExponent b).toNat < 2 ^ 11 := (unpackExponent b).isLt
  have hbias : Format.binary64.exponentBias = 1023 := rfl
  have hbits : Format.binary64.mantissaBits = 53 := rfl
  unfold UnpackedFloat.unpack
  dsimp only
  split_ifs with hE1 hM0 hE0 hM0'
  · conv => rhs; rw [← fields_reassemble b, hE1, hM0]
    rfl
  · exact (hv.eq_packedNaN hE1 hM0).symm
  · conv => rhs; rw [← fields_reassemble b, hE0, hM0']
    rfl
  · have hE0n : (unpackExponent b).toNat = 0 := by rw [hE0]; rfl
    have hpos : (unpackMantissa b).toNat ≠ 0 := fun h => hM0' (BitVec.eq_of_toNat_eq h)
    have hlog : (unpackMantissa b).toNat.log2 < 52 := (Nat.log2_lt hpos).mpr hM
    simp only [UnpackedFloat.pack, hbias, hbits, hE0n]
    rw [if_neg (by decide), if_neg (by omega)]
    conv => rhs; rw [← fields_reassemble b, hE0]
    rw [BitVec.ofNat_toNat, BitVec.setWidth_eq]
  · have hE1n : (unpackExponent b).toNat ≠ 2 ^ 11 - 1 := fun h => hE1 (BitVec.eq_of_toNat_eq h)
    have hE0n : (unpackExponent b).toNat ≠ 0 := fun h => hE0 (BitVec.eq_of_toNat_eq h)
    have hhidden : (1#1 ++ unpackMantissa b).toNat = 2 ^ 52 + (unpackMantissa b).toNat := by
      rw [BitVec.toNat_append, ← Nat.shiftLeft_add_eq_or_of_lt hM]
      simp [Nat.shiftLeft_eq]
    have hlog : (1#1 ++ unpackMantissa b).toNat.log2 = 52 := by
      rw [hhidden]
      apply Nat.le_antisymm
      · exact Nat.lt_succ_iff.mp ((Nat.log2_lt (by omega)).mpr (by omega))
      · exact (Nat.le_log2 (by omega)).mpr (by omega)
    simp only [UnpackedFloat.pack, hbias, hbits, hlog]
    rw [if_neg (by omega), if_pos trivial]
    conv => rhs; rw [← fields_reassemble b]
    have hbiased : ((unpackExponent b).toNat - ((1023 : Nat) + (52 : Nat)) + (1023 : Nat) +
        (52 : Nat) : Int).toNat = (unpackExponent b).toNat := by omega
    congr 1
    · rw [hbiased, BitVec.ofNat_toNat, BitVec.setWidth_eq]
    · apply BitVec.eq_of_toNat_eq
      rw [BitVec.toNat_ofNat, hhidden]
      omega

/-! ## Doubles -/

theorem float_add_comm (x y : Float) : x + y = y + x := by
  show Float.ofModel (Float.Model.pack (UnpackedFloat.add _ x.toModel.unpack y.toModel.unpack)) =
    Float.ofModel (Float.Model.pack (UnpackedFloat.add _ y.toModel.unpack x.toModel.unpack))
  rw [unpacked_add_comm]

theorem float_mul_comm (x y : Float) : x * y = y * x := by
  show Float.ofModel (Float.Model.pack (UnpackedFloat.mul _ x.toModel.unpack y.toModel.unpack)) =
    Float.ofModel (Float.Model.pack (UnpackedFloat.mul _ y.toModel.unpack x.toModel.unpack))
  rw [unpacked_mul_comm]

theorem model_lt_asymm {x y : Float.Model} (h : x < y) : ¬ y < x := by
  change x.unpack.lt y.unpack = true at h
  change ¬ y.unpack.lt x.unpack = true
  simp only [UnpackedFloat.lt, beq_iff_eq] at h ⊢
  rw [unpacked_compare_swap, h]
  decide

theorem float_lt_asymm {x y : Float} (h : x < y) : ¬ y < x := by
  have hm : x.toModel < y.toModel := by simpa [LT.lt, Float.lt] using h
  simpa [LT.lt, Float.lt] using model_lt_asymm hm

theorem float_ofBits_toBits (x : Float) : Float.ofBits x.toBits = x := by
  obtain ⟨⟨bits, hv⟩⟩ := x
  show Float.ofModel (Float.Model.pack (UnpackedFloat.unpack .binary64 bits.toBitVec)) = _
  simp only [Float.Model.pack, pack_unpack hv, UInt64.ofBitVec_toBitVec]

@[simp] theorem Double.toFloat_ofFloat (x : Float) : (Double.ofFloat x).toFloat = x :=
  float_ofBits_toBits x

end ScriptFold.Numeral
