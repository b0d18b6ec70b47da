import ImplicitDynamics.Scalar
import Mathlib.Analysis.SpecialFunctions.Pow.Real
import Mathlib.Analysis.SpecialFunctions.Trigonometric.Basic

/-!
# Exact arithmetic

The real numbers are an arithmetic without rounding: every operation has its
mathematical meaning and every value is finite.  The simplification lemmas turn
the operations of a generic definition into those of the real numbers.
-/

namespace ImplicitDynamics

noncomputable section

def Numeral.toReal : Numeral → ℝ
  | decimal negative digits exponent =>
    (if negative then -1 else 1) * digits * (10 : ℝ) ^ exponent
  | infinite _ => 0
  | notANumber => 0

namespace Exact

instance scalar : Scalar ℝ where
  ofNumeral := Numeral.toReal
  add x y := x + y
  sub x y := x - y
  mul x y := x * y
  div x y := x / y
  neg x := -x
  lt x y := x < y
  le x y := x ≤ y
  decLt := fun x y => Classical.propDecidable (x < y)
  decLe := fun x y => Classical.propDecidable (x ≤ y)
  same x y := @decide (x = y) (Classical.propDecidable _)
  isFinite _ := true
  floor x := ⌊x⌋₊
  abs x := |x|
  sqrt := Real.sqrt
  exp := Real.exp
  sin := Real.sin
  cos := Real.cos
  tan := Real.tan
  pow x y := x ^ y
  max x y := max x y
  min x y := min x y

@[simp] theorem add_eq (x y : ℝ) :
    @HAdd.hAdd ℝ ℝ ℝ (@instHAdd ℝ Scalar.instAdd) x y = x + y := rfl

@[simp] theorem sub_eq (x y : ℝ) :
    @HSub.hSub ℝ ℝ ℝ (@instHSub ℝ Scalar.instSub) x y = x - y := rfl

@[simp] theorem mul_eq (x y : ℝ) :
    @HMul.hMul ℝ ℝ ℝ (@instHMul ℝ Scalar.instMul) x y = x * y := rfl

@[simp] theorem div_eq (x y : ℝ) :
    @HDiv.hDiv ℝ ℝ ℝ (@instHDiv ℝ Scalar.instDiv) x y = x / y := rfl

@[simp] theorem neg_eq (x : ℝ) : @Neg.neg ℝ Scalar.instNeg x = -x := rfl

@[simp] theorem lt_iff (x y : ℝ) : @LT.lt ℝ Scalar.instLT x y ↔ x < y := Iff.rfl

@[simp] theorem le_iff (x y : ℝ) : @LE.le ℝ Scalar.instLE x y ↔ x ≤ y := Iff.rfl

@[simp] theorem abs_eq (x : ℝ) : Scalar.abs x = |x| := rfl

@[simp] theorem max_eq (x y : ℝ) : Scalar.max x y = max x y := rfl

@[simp] theorem min_eq (x y : ℝ) : Scalar.min x y = min x y := rfl

@[simp] theorem floor_eq (x : ℝ) : Scalar.floor x = ⌊x⌋₊ := rfl

@[simp] theorem isFinite_eq (x : ℝ) : Scalar.isFinite x = true := rfl

@[simp] theorem same_eq_true_iff (x y : ℝ) : Scalar.same x y = true ↔ x = y := by
  simp [Scalar.same]

@[simp] theorem ofNumeral_decimal (digits : Nat) (exponent : Int) :
    (Scalar.ofNumeral (.decimal false digits exponent) : ℝ) = digits * 10 ^ exponent := by
  simp [Scalar.ofNumeral, Numeral.toReal]

@[simp] theorem ofNat_eq (n : Nat) : (Scalar.ofNat n : ℝ) = n := by
  simp [Scalar.ofNat]

theorem ofNat_pos {n : Nat} (hn : 0 < n) : (0 : ℝ) < Scalar.ofNat n := by
  rw [ofNat_eq]
  exact Nat.cast_pos.mpr hn

theorem literal_eq (n : Nat) : @OfNat.ofNat ℝ n (Scalar.instOfNat n) = n :=
  ofNat_eq n

theorem zero_eq : @OfNat.ofNat ℝ 0 (Scalar.instOfNat 0) = 0 := by
  rw [literal_eq, Nat.cast_zero]

theorem one_eq : @OfNat.ofNat ℝ 1 (Scalar.instOfNat 1) = 1 := by
  rw [literal_eq, Nat.cast_one]

theorem scientific_eq (digits exponent : Nat) :
    @OfScientific.ofScientific ℝ Scalar.instOfScientific digits true exponent =
      digits / 10 ^ exponent := by
  simp [OfScientific.ofScientific, div_eq_mul_inv]

theorem half_eq : @OfScientific.ofScientific ℝ Scalar.instOfScientific 5 true 1 = 1 / 2 := by
  rw [scientific_eq]
  norm_num

theorem epsilon_eq : (Scalar.epsilon : ℝ) = 1 / 2 ^ 52 := by
  simp only [Scalar.epsilon, literal_eq, ofNat_eq, div_eq]
  norm_num

theorem foldl_add_eq (values : List ℝ) (start : ℝ) :
    values.foldl (fun total value => Scalar.add total value) start = start + values.sum := by
  induction values generalizing start with
  | nil => simp
  | cons value values ih =>
      rw [List.foldl_cons, ih, List.sum_cons]
      exact add_assoc start value values.sum

theorem sum_eq (values : List ℝ) : Scalar.sum values = values.sum := by
  have hsum := foldl_add_eq values (-0)
  rw [neg_zero, zero_add] at hsum
  rw [← hsum]
  simp only [Scalar.sum, zero_eq, neg_zero]
  rfl

end Exact

end

end ImplicitDynamics
