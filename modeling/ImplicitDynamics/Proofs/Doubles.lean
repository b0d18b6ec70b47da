import ImplicitDynamics.FiniteDifference
import Mathlib

/-!
# Doubles that keep their value

A double whose sign is not negative is below neither zero nor what is not a
number, and the difference of a double and itself is one of the two, for
infinities as well.  So a residual that keeps its value never passes the
threshold at which it counts as changed.
-/

namespace ImplicitDynamics.Double

open Float.Model (Format UnpackedFloat)

open Float.Model.UnpackedFloat (Sign)

/-- The sign is not negative; what is not a number has none. -/
def Unsigned : UnpackedFloat → Prop
  | .notANumber => True
  | .infinity sign => sign = .positive
  | .zero sign => sign = .positive
  | .finite sign _ _ _ => sign = .positive

section

variable {format : Format}

theorem unpackSign_packComponents (sign : Sign) (exponent : BitVec format.exponentBits)
    (mantissa : BitVec format.mantissaBitsWithoutImplicit) :
    UnpackedFloat.unpackSign (UnpackedFloat.packComponents format sign exponent mantissa) =
      sign.toBitVec := by
  ext i hi
  have hzero : i = 0 := by omega
  subst hzero
  simp [UnpackedFloat.unpackSign, UnpackedFloat.packComponents, BitVec.getLsbD_append,
    BitVec.getElem_append]

theorem unpackSign_pack {x : UnpackedFloat} (hx : Unsigned x) :
    UnpackedFloat.unpackSign (UnpackedFloat.pack format x) = 0#1 := by
  cases x with
  | notANumber => exact unpackSign_packComponents _ _ _
  | infinity sign =>
      cases hx
      exact unpackSign_packComponents _ _ _
  | zero sign =>
      cases hx
      exact unpackSign_packComponents _ _ _
  | finite sign mantissa exponent hmantissa =>
      cases hx
      rw [UnpackedFloat.pack]
      split
      · exact unpackSign_packComponents _ _ _
      · split <;> exact unpackSign_packComponents _ _ _

theorem unsigned_unpack {bits : BitVec format.numBits}
    (hbits : UnpackedFloat.unpackSign bits = 0#1) :
    Unsigned (UnpackedFloat.unpack format bits) := by
  have hsign : Sign.ofBitVec (UnpackedFloat.unpackSign bits) = .positive := by
    rw [hbits]
    rfl
  unfold UnpackedFloat.unpack
  simp only
  split
  · split
    · exact hsign
    · trivial
  · split
    · split
      · exact hsign
      · exact hsign
    · exact hsign

theorem unsigned_roundWithAccuracy (mantissa : Nat) (exponent : Int)
    (accuracy : UnpackedFloat.Accuracy) :
    Unsigned (UnpackedFloat.roundWithAccuracy format .positive mantissa exponent accuracy) := by
  unfold UnpackedFloat.roundWithAccuracy
  simp only
  split <;> rfl

theorem unsigned_mul {x y : UnpackedFloat} (hx : Unsigned x) (hy : Unsigned y) :
    Unsigned (x.mul format y) := by
  cases x <;> cases y <;> cases hx <;> cases hy <;>
    first | rfl | trivial | exact unsigned_roundWithAccuracy _ _ _

end

theorem not_lt_of_unsigned {x y : UnpackedFloat} (hx : Unsigned x)
    (hy : y = .notANumber ∨ ∃ sign, y = .zero sign) : x.lt y = false := by
  rcases hy with rfl | ⟨sign, rfl⟩
  · cases x <;> rfl
  · cases x <;> cases hx <;> rfl

theorem unsigned_of_zero_lt {x : UnpackedFloat} {sign : Sign}
    (hx : (UnpackedFloat.zero sign).lt x = true) : Unsigned x := by
  cases x with
  | notANumber => trivial
  | infinity sign => cases sign <;> first | rfl | cases hx
  | zero sign => cases hx
  | finite sign mantissa exponent hmantissa => cases sign <;> first | rfl | cases hx

theorem sub_self_cases (format : Format) (x : UnpackedFloat) :
    x.sub format x = .notANumber ∨ x.sub format x = .zero .positive := by
  cases x with
  | notANumber => exact .inl rfl
  | infinity sign => cases sign <;> exact .inl rfl
  | zero sign => cases sign <;> exact .inr rfl
  | finite sign mantissa exponent hmantissa =>
      right
      simp only [UnpackedFloat.sub, Int.sub_self, UnpackedFloat.normalize]
      rfl

theorem lt_iff {x y : Float} : x < y ↔ x.toModel.unpack.lt y.toModel.unpack = true :=
  decide_eq_true_iff

theorem unsigned_threshold :
    Unsigned (FiniteDifference.detectionThreshold : Float).toModel.unpack := by
  apply unsigned_unpack
  decide +kernel

theorem unsigned_of_pos {h : Float} (hpos : 0 < h) : Unsigned h.toModel.unpack := by
  have hzero : (0 : Float).toModel.unpack = .zero .positive := by rfl
  rw [lt_iff, hzero] at hpos
  exact unsigned_of_zero_lt hpos

theorem unsigned_toModel_mul {x y : Float} (hx : Unsigned x.toModel.unpack)
    (hy : Unsigned y.toModel.unpack) : Unsigned (x * y).toModel.unpack :=
  unsigned_unpack (unpackSign_pack (unsigned_mul hx hy))

theorem abs_sub_self_cases (x : Float) :
    (x - x).abs.toModel.unpack = .notANumber ∨
      ∃ sign, (x - x).abs.toModel.unpack = .zero sign := by
  have hsub : (x - x).toModel = .pack (x.toModel.unpack.sub .binary64 x.toModel.unpack) := rfl
  rcases sub_self_cases .binary64 x.toModel.unpack with hself | hself
  · left
    rw [hself] at hsub
    change (Float.Model.abs (x - x).toModel).unpack = _
    rw [hsub]
    rfl
  · right
    rw [hself] at hsub
    refine ⟨.positive, ?_⟩
    change (Float.Model.abs (x - x).toModel).unpack = _
    rw [hsub]
    rfl

/-- A residual that keeps its value has not changed, even if it is infinite or
not a number. -/
theorem not_threshold_lt_residualChange {h : Float} (hpos : 0 < h) (value : Float) :
    ¬ FiniteDifference.detectionThreshold * h < FiniteDifference.residualChange value value := by
  have hthreshold := unsigned_toModel_mul unsigned_threshold (unsigned_of_pos hpos)
  rw [lt_iff, Bool.not_eq_true]
  apply not_lt_of_unsigned hthreshold
  unfold FiniteDifference.residualChange
  simp only
  split
  · exact .inr ⟨.positive, by rfl⟩
  · exact abs_sub_self_cases value

end ImplicitDynamics.Double
