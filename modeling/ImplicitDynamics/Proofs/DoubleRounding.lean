import ImplicitDynamics.Proofs.Doubles
import Mathlib

/-!
# Doubles in the middle of their range

A positive double that is neither very small nor very large is a mantissa of 53 bits
times a power of two.  A sum, product or quotient of such doubles is the exact result
rounded to such a value, and of two equally near ones to the one whose mantissa is
even.  Rounding keeps the order of what it rounds.
-/

namespace ImplicitDynamics.Double

open Float.Model (Format UnpackedFloat)

open Float.Model.UnpackedFloat (Accuracy ExtendedMantissa)

/-- No integer is nearer to `x` than `n`, which is the even one of two that are equally
near. -/
structure Nearest (x : ℚ) (n : ℕ) : Prop where
  distance : |x - n| ≤ 1 / 2
  even : |x - n| = 1 / 2 → Even n

variable {x y : ℚ} {m n : ℕ}

theorem Nearest.of_lt (hlow : (n : ℚ) < x + 1 / 2) (hhigh : x < n + 1 / 2) : Nearest x n :=
  have hdistance : |x - n| < 1 / 2 := abs_lt.mpr ⟨by linarith, by linarith⟩
  ⟨hdistance.le, fun heq => absurd heq hdistance.ne⟩

theorem Nearest.self (n : ℕ) : Nearest n n where
  distance := by norm_num
  even heq := by norm_num at heq

theorem Nearest.mono (hxy : x ≤ y) (hm : Nearest x m) (hn : Nearest y n) : m ≤ n := by
  by_contra hlt
  have hstep : (n : ℚ) + 1 ≤ m := by exact_mod_cast Nat.lt_of_not_le hlt
  have hx := (abs_le.mp hm.distance).1
  have hy := (abs_le.mp hn.distance).2
  -- Both lie in the middle between `n` and `m`, so that both are even.
  have hnext : (m : ℚ) = n + 1 := by linarith
  have hmeven : Even m := hm.even (by rw [abs_of_neg] <;> linarith)
  have hneven : Even n := hn.even (by rw [abs_of_pos] <;> linarith)
  rw [show m = n + 1 by exact_mod_cast hnext] at hmeven
  exact Nat.not_even_iff_odd.mpr hneven.add_one hmeven

/-- The two bits beside a mantissa tell where between it and the next integer a value
lies. -/
structure Approximates (extended : ExtendedMantissa) (x : ℚ) : Prop where
  low : extended.mantissa ≤ x
  high : x < extended.mantissa + 1
  round : extended.roundBit = true ↔ extended.mantissa + 1 / 2 ≤ x
  sticky : extended.stickyBit = false ↔ x = extended.mantissa ∨ x = extended.mantissa + 1 / 2

theorem Approximates.exact (m : ℕ) :
    Approximates (.ofMantissaAndAccuracy m .exact) m := by
  constructor <;> simp [ExtendedMantissa.ofMantissaAndAccuracy]

theorem Approximates.quotient (m : ℕ) (hn : 0 < n) :
    Approximates (.ofMantissaAndAccuracy (m / n)
      (UnpackedFloat.accuracyOfFraction (m % n) n)) (m / n) := by
  have hpos : (0 : ℚ) < n := by exact_mod_cast hn
  have hlt : ((m % n : ℕ) : ℚ) / n < 1 := by
    rw [div_lt_one hpos]
    exact_mod_cast Nat.mod_lt m hn
  have hquotient : (m : ℚ) / n = (m / n : ℕ) + (m % n : ℕ) / n := by
    have hdivision : (m : ℚ) = n * (m / n : ℕ) + (m % n : ℕ) := by
      exact_mod_cast (Nat.div_add_mod m n).symm
    rw [hdivision, add_div, mul_div_cancel_left₀ _ hpos.ne']
  rw [hquotient]
  generalize m / n = quotient
  generalize m % n = rest at hlt
  unfold UnpackedFloat.accuracyOfFraction
  split
  · next hrest =>
      rw [hrest, Nat.cast_zero, zero_div, add_zero]
      exact .exact quotient
  · next hrest =>
      have hrest : (0 : ℚ) < rest / n := by positivity
      have hhalf : ((1 : ℚ) / 2 ≤ rest / n ↔ n ≤ 2 * rest) ∧
          ((rest : ℚ) / n = 1 / 2 ↔ 2 * rest = n) := by
        rw [div_le_div_iff₀ two_pos hpos, div_eq_div_iff hpos.ne' two_ne_zero, one_mul,
          mul_comm (rest : ℚ)]
        norm_cast
      rcases lt_trichotomy (2 * rest) n with hcompare | hcompare | hcompare
      · rw [Nat.compare_eq_lt.mpr hcompare]
        constructor <;> simp [ExtendedMantissa.ofMantissaAndAccuracy] <;> grind
      · rw [Nat.compare_eq_eq.mpr hcompare]
        constructor <;> simp [ExtendedMantissa.ofMantissaAndAccuracy] <;> grind
      · rw [Nat.compare_eq_gt.mpr hcompare]
        constructor <;> simp [ExtendedMantissa.ofMantissaAndAccuracy] <;> grind

theorem Approximates.shiftRightOne {extended : ExtendedMantissa}
    (hextended : Approximates extended x) : Approximates extended.shiftRightOne (x / 2) := by
  rcases extended with ⟨mantissa, roundBit, stickyBit⟩
  rcases hextended with ⟨hlow, hhigh, hround, hsticky⟩
  simp only at hlow hhigh hround hsticky
  rcases Nat.even_or_odd' mantissa with ⟨half, rfl | rfl⟩
  · have hhalf : 2 * half / 2 = half := by omega
    have hrest : 2 * half % 2 = 0 := by omega
    push_cast at hlow hhigh hround hsticky
    constructor <;> simp only [ExtendedMantissa.shiftRightOne, hhalf, hrest] <;>
      grind
  · have hhalf : (2 * half + 1) / 2 = half := by omega
    have hrest : (2 * half + 1) % 2 = 1 := by omega
    push_cast at hlow hhigh hround hsticky
    constructor <;> simp only [ExtendedMantissa.shiftRightOne, hhalf, hrest] <;>
      grind

theorem Approximates.shiftRight {extended : ExtendedMantissa}
    (hextended : Approximates extended x) (count : ℕ) :
    Approximates (extended >>> count) (x / 2 ^ count) := by
  induction count with
  | zero =>
      rw [pow_zero, div_one]
      exact hextended
  | succ count ih =>
      rw [pow_succ, ← div_div]
      exact ih.shiftRightOne

theorem Approximates.nearest {extended : ExtendedMantissa}
    (hextended : Approximates extended x) : Nearest x extended.roundedMantissa := by
  rcases extended with ⟨mantissa, roundBit, stickyBit⟩
  rcases hextended with ⟨hlow, hhigh, hround, hsticky⟩
  cases roundBit <;> cases stickyBit <;>
    simp only [Bool.false_eq_true, reduceCtorEq, true_iff, false_iff, not_le, not_or]
      at hround hsticky
  · have hexact : x = mantissa := by grind
    rw [hexact]
    exact .self mantissa
  · change Nearest x mantissa
    exact .of_lt (by linarith) (by linarith)
  · -- Halfway up, the bit of an odd mantissa is added to it.
    change Nearest x (mantissa + mantissa % 2)
    have hhalf : x = mantissa + 1 / 2 := by grind
    have heven : Even (mantissa + mantissa % 2) := by grind
    rw [hhalf]
    rcases Nat.mod_two_eq_zero_or_one mantissa with hmod | hmod <;> rw [hmod] at heven ⊢
    · exact ⟨by norm_num, fun _ => heven⟩
    · exact ⟨by norm_num [abs_le], fun _ => heven⟩
  · change Nearest x (mantissa + 1)
    have hmore : (mantissa : ℚ) + 1 / 2 < x := lt_of_le_of_ne hround (Ne.symm hsticky.2)
    exact .of_lt (by push_cast; linarith) (by push_cast; linarith)

/-- Rounded to a mantissa of 53 bits, `z` is `w`. -/
def RoundsTo (z w : ℚ) : Prop :=
  ∃ (m : ℕ) (e : ℤ),
    2 ^ 52 ≤ z / 2 ^ e ∧ z / 2 ^ e < 2 ^ 53 ∧ Nearest (z / 2 ^ e) m ∧ w = m * 2 ^ e

variable {z w u v : ℚ}

theorem two_zpow_pos (e : ℤ) : (0 : ℚ) < 2 ^ e :=
  zpow_pos two_pos e

theorem two_mul_two_zpow_le {e f : ℤ} (hef : e < f) : (2 : ℚ) * 2 ^ e ≤ 2 ^ f := by
  rw [← zpow_one_add₀ two_ne_zero]
  exact zpow_le_zpow_right₀ one_le_two (by omega)

/-- Values with a smaller exponent lie below those with a larger one. -/
theorem mul_two_zpow_le (hm : m ≤ 2 ^ 53) (hn : 2 ^ 52 ≤ n) {e f : ℤ} (hef : e < f) :
    (m : ℚ) * 2 ^ e ≤ n * 2 ^ f := by
  have hpos := two_zpow_pos e
  have hm : (m : ℚ) ≤ 2 ^ 53 := by exact_mod_cast hm
  have hn : (2 : ℚ) ^ 52 ≤ n := by exact_mod_cast hn
  calc (m : ℚ) * 2 ^ e ≤ 2 ^ 53 * 2 ^ e := by gcongr
    _ = 2 ^ 52 * (2 * 2 ^ e) := by ring
    _ ≤ n * 2 ^ f := mul_le_mul hn (two_mul_two_zpow_le hef) (by positivity) (by positivity)

theorem Nearest.mem_range (hlow : 2 ^ 52 ≤ x) (hhigh : x < 2 ^ 53) (hm : Nearest x m) :
    2 ^ 52 ≤ m ∧ m ≤ 2 ^ 53 :=
  have hleast : Nearest ((2 ^ 52 : ℕ) : ℚ) (2 ^ 52) := .self _
  have hgreatest : Nearest ((2 ^ 53 : ℕ) : ℚ) (2 ^ 53) := .self _
  ⟨hleast.mono (by exact_mod_cast hlow) hm, hm.mono (by exact_mod_cast hhigh.le) hgreatest⟩

theorem RoundsTo.mono (hzu : z ≤ u) (hw : RoundsTo z w) (hv : RoundsTo u v) : w ≤ v := by
  rcases hw with ⟨m, e, hzlow, hzhigh, hm, rfl⟩
  rcases hv with ⟨n, f, hulow, huhigh, hn, rfl⟩
  rcases lt_trichotomy e f with hef | rfl | hef
  · exact mul_two_zpow_le (hm.mem_range hzlow hzhigh).2 (hn.mem_range hulow huhigh).1 hef
  · have hmn : m ≤ n := hm.mono (by gcongr) hn
    gcongr
  · rw [le_div_iff₀ (two_zpow_pos e)] at hzlow
    rw [div_lt_iff₀ (two_zpow_pos f)] at huhigh
    linarith [two_mul_two_zpow_le hef]

theorem RoundsTo.pos (hw : RoundsTo z w) : 0 < w := by
  rcases hw with ⟨m, e, hlow, hhigh, hm, rfl⟩
  have hpos : 0 < m := lt_of_lt_of_le (by norm_num) (hm.mem_range hlow hhigh).1
  have := two_zpow_pos e
  positivity

theorem RoundsTo.unique (hw : RoundsTo z w) (hv : RoundsTo z v) : w = v :=
  le_antisymm (hw.mono le_rfl hv) (hv.mono le_rfl hw)

theorem roundsTo_self (hlow : 2 ^ 52 ≤ m) (hhigh : m < 2 ^ 53) (e : ℤ) :
    RoundsTo (m * 2 ^ e) (m * 2 ^ e) := by
  have hvalue : (m : ℚ) * 2 ^ e / 2 ^ e = m := mul_div_cancel_right₀ _ (two_zpow_pos e).ne'
  refine ⟨m, e, ?_⟩
  rw [hvalue]
  exact ⟨by exact_mod_cast hlow, by exact_mod_cast hhigh, .self m, rfl⟩

theorem RoundsTo.self (hw : RoundsTo z w) : RoundsTo w w := by
  rcases hw with ⟨m, e, hlow, hhigh, hm, rfl⟩
  rcases (hm.mem_range hlow hhigh).2.lt_or_eq with hlt | rfl
  · exact roundsTo_self (hm.mem_range hlow hhigh).1 hlt e
  · have hcarry : ((2 ^ 53 : ℕ) : ℚ) * 2 ^ e = (2 ^ 52 : ℕ) * 2 ^ (e + 1) := by
      rw [zpow_add_one₀ two_ne_zero]
      push_cast
      ring
    rw [hcarry]
    exact roundsTo_self le_rfl (by norm_num) (e + 1)

theorem roundsTo_natCast (hpos : 0 < n) (hn : n < 2 ^ 53) : RoundsTo n n := by
  have hlog : n.log2 ≤ 52 := Nat.le_of_lt_succ ((Nat.log2_lt hpos.ne').mpr hn)
  have hvalue : (n : ℚ) = (n * 2 ^ (52 - n.log2) : ℕ) * 2 ^ (-(52 - n.log2 : ℕ) : ℤ) := by
    rw [zpow_neg, zpow_natCast]
    push_cast
    field_simp
  rw [hvalue]
  have hsplit : 2 ^ 52 = 2 ^ n.log2 * 2 ^ (52 - n.log2) := by
    rw [← pow_add, Nat.add_sub_cancel' hlog]
  refine roundsTo_self ?_ ?_ _
  · rw [hsplit]
    exact Nat.mul_le_mul_right _ (Nat.log2_self_le hpos.ne')
  · rw [pow_succ, hsplit, mul_right_comm, ← pow_succ]
    exact Nat.mul_lt_mul_of_pos_right Nat.lt_log2_self (Nat.two_pow_pos _)

theorem RoundsTo.le_natCast (hw : RoundsTo z w) (hpos : 0 < n) (hn : n < 2 ^ 53) (hz : z ≤ n) :
    w ≤ n :=
  hw.mono hz (roundsTo_natCast hpos hn)

theorem RoundsTo.natCast_le (hw : RoundsTo z w) (hpos : 0 < n) (hn : n < 2 ^ 53) (hz : n ≤ z) :
    n ≤ w :=
  (roundsTo_natCast hpos hn).mono hz hw

theorem roundsTo_two_zpow (e : ℤ) : RoundsTo (2 ^ e) (2 ^ e) := by
  have hvalue : (2 : ℚ) ^ e = (2 ^ 52 : ℕ) * 2 ^ (e - 52) := by
    rw [zpow_sub₀ two_ne_zero]
    push_cast
    field_simp
  rw [hvalue]
  exact roundsTo_self le_rfl (by norm_num) _

theorem RoundsTo.abs_sub_le (hw : RoundsTo z w) : |z - w| ≤ z / 2 ^ 53 := by
  rcases hw with ⟨m, e, hlow, hhigh, hm, rfl⟩
  have hpos := two_zpow_pos e
  have hz : z = z / 2 ^ e * 2 ^ e := (div_mul_cancel₀ z hpos.ne').symm
  calc |z - m * 2 ^ e| = |z / 2 ^ e - m| * 2 ^ e := by
        rw [← abs_of_pos hpos, ← abs_mul, abs_of_pos hpos, sub_mul, ← hz]
    _ ≤ 1 / 2 * 2 ^ e := by
        gcongr
        exact hm.distance
    _ ≤ z / 2 ^ e / 2 ^ 53 * 2 ^ e := by
        have hulp : (1 : ℚ) / 2 ≤ z / 2 ^ e / 2 ^ 53 := by linarith
        gcongr
    _ = z / 2 ^ 53 := by
        rw [div_right_comm, div_mul_cancel₀ _ hpos.ne']

/-! ## Rounding of unpacked doubles -/

/-- An unpacked double with a mantissa of 53 bits has this value. -/
def Holds (value : UnpackedFloat) (q : ℚ) : Prop :=
  ∃ (m : ℕ) (e : ℤ) (hpos : 0 < m),
    value = .finite .positive m e hpos ∧ 2 ^ 52 ≤ m ∧ m < 2 ^ 53 ∧ q = m * 2 ^ e

/-- In the middle of the range of doubles. -/
def Moderate (q : ℚ) : Prop :=
  2 ^ (-200 : ℤ) ≤ q ∧ q ≤ 2 ^ (200 : ℤ)

theorem targetExponent_of_le {total : ℤ} (htotal : -1021 ≤ total) :
    Format.binary64.targetExponent total = total - 53 := by
  change max (total - 53) (-1074) = total - 53
  omega

/-- Unless the exponent stays too small, what is shifted out are the bits beyond 53. -/
theorem shiftToTargetExponent_eq {mantissa : ℕ} {e : ℤ}
    (hleast : -1074 ≤ e + (mantissa.log2 - 52 : ℕ)) (accuracy : Accuracy) :
    UnpackedFloat.shiftToTargetExponent .binary64 mantissa e accuracy =
      (ExtendedMantissa.ofMantissaAndAccuracy mantissa accuracy >>> (mantissa.log2 - 52),
        e + (mantissa.log2 - 52 : ℕ)) := by
  have htarget : Format.binary64.targetExponent (Float.Model.totalExponent mantissa e) =
      max (mantissa.log2 + 1 + e - 53) (-1074) := rfl
  have hshift : (Format.binary64.targetExponent (Float.Model.totalExponent mantissa e) - e).toNat =
      mantissa.log2 - 52 := by
    rw [htarget]
    omega
  simp only [UnpackedFloat.shiftToTargetExponent, UnpackedFloat.shiftToExponent, hshift]

theorem mantissa_ofMantissaAndAccuracy (mantissa : ℕ) (accuracy : Accuracy) :
    (ExtendedMantissa.ofMantissaAndAccuracy mantissa accuracy).mantissa = mantissa := by
  rcases accuracy with _ | (_ | _ | _) <;> rfl

theorem two_zpow_lt_iff {e f : ℤ} : (2 : ℚ) ^ e < 2 ^ f ↔ e < f :=
  zpow_lt_zpow_iff_right₀ one_lt_two

theorem log2_sub_eq_zero (hn : n < 2 ^ 53) : n.log2 - 52 = 0 := by
  rcases n.eq_zero_or_pos with rfl | hpos
  · rfl
  · have hlog : n.log2 < 53 := (Nat.log2_lt hpos.ne').mpr hn
    omega

/-- The carry of a mantissa that has been rounded up to the next power of two. -/
theorem shiftToTargetExponent_carry (hn : n ≤ 2 ^ 53) {e : ℤ} (he : -1074 ≤ e) :
    UnpackedFloat.shiftToTargetExponent .binary64 n e .exact =
      if n < 2 ^ 53 then (⟨n, false, false⟩, e) else (⟨2 ^ 52, false, false⟩, e + 1) := by
  rw [shiftToTargetExponent_eq (by omega)]
  rcases hn.lt_or_eq with hlt | rfl
  · rw [if_pos hlt, log2_sub_eq_zero hlt, Nat.cast_zero, add_zero]
    rfl
  · rw [if_neg (lt_irrefl _), Nat.log2_two_pow]
    rfl

theorem shiftToTargetExponent_rounded (hlow : 2 ^ 52 ≤ n) (hhigh : n ≤ 2 ^ 53) {e : ℤ}
    (he : -1074 ≤ e) :
    ∃ m f, UnpackedFloat.shiftToTargetExponent .binary64 n e .exact = (⟨m, false, false⟩, f) ∧
      2 ^ 52 ≤ m ∧ m < 2 ^ 53 ∧ (n : ℚ) * 2 ^ e = m * 2 ^ f := by
  rw [shiftToTargetExponent_carry hhigh he]
  rcases hhigh.lt_or_eq with hlt | rfl
  · exact ⟨n, e, if_pos hlt, hlow, hlt, rfl⟩
  · refine ⟨2 ^ 52, e + 1, if_neg (lt_irrefl _), le_rfl, by norm_num, ?_⟩
    rw [zpow_add_one₀ two_ne_zero]
    push_cast
    ring

theorem holds_roundWithAccuracy {mantissa : ℕ} {e : ℤ} {accuracy : Accuracy}
    (hmantissa : 2 ^ 52 ≤ mantissa)
    (happroximates : Approximates (.ofMantissaAndAccuracy mantissa accuracy) (z / 2 ^ e))
    (hz : Moderate z) :
    ∃ w, Holds (UnpackedFloat.roundWithAccuracy .binary64 .positive mantissa e accuracy) w ∧
      RoundsTo z w := by
  have hne : mantissa ≠ 0 := by omega
  have hlog : 52 ≤ mantissa.log2 := (Nat.le_log2 hne).mpr hmantissa
  obtain ⟨k, hk⟩ := Nat.exists_eq_add_of_le hlog
  have hshifted := happroximates.shiftRight k
  have hvalue : z / 2 ^ e / 2 ^ k = z / 2 ^ (e + k) := by
    rw [div_div, zpow_add₀ two_ne_zero, zpow_natCast]
  -- The value has exactly 53 bits before the point, since the mantissa has them.
  have hbounds : 2 ^ 52 ≤ z / 2 ^ (e + k) ∧ z / 2 ^ (e + k) < 2 ^ 53 := by
    rw [← hvalue, le_div_iff₀ (by positivity), div_lt_iff₀ (by positivity), ← pow_add, ← pow_add]
    have hleast := Nat.log2_self_le hne
    have hmost := Nat.lt_log2_self (n := mantissa)
    have hlow := happroximates.low
    have hhigh := happroximates.high
    rw [mantissa_ofMantissaAndAccuracy] at hlow hhigh
    rw [hk] at hleast hmost
    constructor
    · exact le_trans (by exact_mod_cast hleast) hlow
    · refine hhigh.trans_le ?_
      rw [show 53 + k = 52 + k + 1 by omega]
      exact_mod_cast hmost
  rw [hvalue] at hshifted
  have hexponent : -1022 ≤ mantissa.log2 + e := by
    have hlt : (2 : ℚ) ^ (-200 : ℤ) < 2 ^ (53 + (e + k)) := by
      rw [zpow_add₀ two_ne_zero]
      exact hz.1.trans_lt ((div_lt_iff₀ (two_zpow_pos _)).mp hbounds.2)
    have := two_zpow_lt_iff.mp hlt
    omega
  have hrounded := hshifted.nearest
  have hrange := hrounded.mem_range hbounds.1 hbounds.2
  rcases shiftToTargetExponent_rounded hrange.1 hrange.2 (e := e + k) (by omega) with
    ⟨m, f, hcarry, hlow, hhigh, heq⟩
  have hm : m ≠ 0 := by omega
  refine ⟨m * 2 ^ f, ⟨m, f, Nat.pos_of_ne_zero hm, ?_, hlow, hhigh, rfl⟩, ?_⟩
  · unfold UnpackedFloat.roundWithAccuracy
    rw [shiftToTargetExponent_eq (by omega), hk, Nat.add_sub_cancel_left]
    simp only [hcarry, hm, dite_false]
  · exact ⟨_, e + k, hbounds.1, hbounds.2, hrounded, heq.symm⟩

theorem holds_round {mantissa : ℕ} (hpos : 0 < mantissa) {e : ℤ}
    (hz : Moderate (mantissa * 2 ^ e)) :
    ∃ w, Holds (UnpackedFloat.round .binary64 .positive mantissa e) w ∧
      RoundsTo (mantissa * 2 ^ e) w := by
  have hleast := Nat.log2_self_le hpos.ne'
  have hmost := Nat.lt_log2_self (n := mantissa)
  have hexponent : -1022 ≤ mantissa.log2 + e := by
    have hlt : (2 : ℚ) ^ (-200 : ℤ) < 2 ^ ((mantissa.log2 + 1 : ℕ) + e) := by
      rw [zpow_add₀ two_ne_zero, zpow_natCast]
      refine hz.1.trans_lt ?_
      have hmost : (mantissa : ℚ) < 2 ^ (mantissa.log2 + 1) := by exact_mod_cast hmost
      gcongr
    have := two_zpow_lt_iff.mp hlt
    omega
  have hshift : (e - Format.binary64.targetExponent (Float.Model.totalExponent mantissa e)).toNat =
      52 - mantissa.log2 := by
    rw [targetExponent_of_le (by unfold Float.Model.totalExponent; omega)]
    unfold Float.Model.totalExponent
    omega
  simp only [UnpackedFloat.round, UnpackedFloat.decreaseExponent, hshift, Nat.shiftLeft_eq]
  refine holds_roundWithAccuracy ?_ ?_ hz
  · calc 2 ^ 52 ≤ 2 ^ (mantissa.log2 + (52 - mantissa.log2)) :=
          Nat.pow_le_pow_right two_pos (by omega)
      _ = 2 ^ mantissa.log2 * 2 ^ (52 - mantissa.log2) := pow_add ..
      _ ≤ mantissa * 2 ^ (52 - mantissa.log2) := Nat.mul_le_mul_right _ hleast
  · have hvalue : (mantissa : ℚ) * 2 ^ e / 2 ^ (e - (52 - mantissa.log2 : ℕ)) =
        (mantissa * 2 ^ (52 - mantissa.log2) : ℕ) := by
      rw [zpow_sub₀ two_ne_zero, zpow_natCast]
      push_cast
      field_simp
    rw [hvalue]
    exact .exact _

/-! ## Packed doubles -/

theorem toNat_append_ofNat (hlow : 2 ^ 52 ≤ m) (hhigh : m < 2 ^ 53) :
    (1#1 ++ BitVec.ofNat 52 m).toNat = m := by
  have hrest : m % 2 ^ 52 = m - 2 ^ 52 := by
    rw [Nat.mod_eq_sub_mod hlow, Nat.mod_eq_of_lt (by omega)]
  rw [BitVec.toNat_append, BitVec.toNat_ofNat, BitVec.toNat_ofNat, hrest,
    ← Nat.shiftLeft_add_eq_or_of_lt (by omega)]
  omega

/-- A mantissa and an exponent of a double: 53 bits, unless the exponent is the least one. -/
structure Canonical (m : ℕ) (e : ℤ) : Prop where
  bits : m < 2 ^ 53
  least : -1074 ≤ e
  full : 2 ^ 52 ≤ m ∨ e = -1074

theorem unpack_normal {exponent : BitVec 11} (hlast : exponent ≠ -1#11) (hfirst : exponent ≠ 0#11)
    (hlow : 2 ^ 52 ≤ m) (hhigh : m < 2 ^ 53) (hm : 0 < m) :
    UnpackedFloat.unpack .binary64
        (UnpackedFloat.packComponents .binary64 .positive exponent (BitVec.ofNat 52 m)) =
      .finite .positive m (exponent.toNat - 1075) hm := by
  simp only [UnpackedFloat.unpack, UnpackedFloat.unpackExponent_packComponents,
    UnpackedFloat.unpackMantissa_packComponents, unpackSign_packComponents, if_neg hlast,
    if_neg hfirst, toNat_append_ofNat hlow hhigh]
  rfl

theorem unpack_subnormal (hhigh : m < 2 ^ 52) (hm : 0 < m) :
    UnpackedFloat.unpack .binary64
        (UnpackedFloat.packComponents .binary64 .positive 0#11 (BitVec.ofNat 52 m)) =
      .finite .positive m (-1074) hm := by
  have htoNat : (BitVec.ofNat 52 m).toNat = m := by
    rw [BitVec.toNat_ofNat, Nat.mod_eq_of_lt hhigh]
  have hzero : BitVec.ofNat 52 m ≠ 0#52 := by
    rw [Ne, ← BitVec.toNat_inj, htoNat]
    exact hm.ne'
  have hlast : 0#11 ≠ -1#11 := by decide
  simp only [UnpackedFloat.unpack, UnpackedFloat.unpackExponent_packComponents,
    UnpackedFloat.unpackMantissa_packComponents, unpackSign_packComponents, if_neg hlast,
    dif_neg hzero, htoNat]
  rfl

/-- A double that is too large for its exponent is packed as infinity. -/
theorem Canonical.unpack_pack {e : ℤ} (hcanonical : Canonical m e) (hm : 0 < m) :
    UnpackedFloat.unpack .binary64 (UnpackedFloat.pack .binary64 (.finite .positive m e hm)) =
      if e < 972 then .finite .positive m e hm else .infinity .positive := by
  rcases hcanonical with ⟨hbits, hleast, hfull⟩
  obtain ⟨biased, hbiased⟩ := Int.eq_ofNat_of_zero_le (show 0 ≤ e + 1075 by omega)
  have hbias : (e + Format.binary64.exponentBias + (52 : ℕ)).toNat = biased := by
    change (e + (1023 : ℕ) + (52 : ℕ)).toNat = biased
    omega
  have hlog : m.log2 + 1 = Format.binary64.mantissaBits ↔ 2 ^ 52 ≤ m := by
    change m.log2 + 1 = 53 ↔ 2 ^ 52 ≤ m
    rw [← Nat.le_log2 hm.ne']
    have hlt := (Nat.log2_lt hm.ne').mpr hbits
    omega
  simp only [UnpackedFloat.pack, hbias, hlog]
  by_cases hlarge : 972 ≤ e
  · rw [if_pos (show 2 ^ 11 ≤ biased + 1 by omega), if_neg hlarge.not_gt]
    rfl
  · rw [if_neg (show ¬2 ^ 11 ≤ biased + 1 by omega), if_pos (not_le.mp hlarge)]
    by_cases hnormal : 2 ^ 52 ≤ m
    · have hlast : BitVec.ofNat 11 biased ≠ -1#11 := by
        rw [Ne, ← BitVec.toNat_inj, BitVec.toNat_ofNat]
        change ¬biased % 2 ^ 11 = 2047
        omega
      have hfirst : BitVec.ofNat 11 biased ≠ 0#11 := by
        rw [Ne, ← BitVec.toNat_inj, BitVec.toNat_ofNat]
        change ¬biased % 2 ^ 11 = 0
        omega
      have hexponent : ((BitVec.ofNat 11 biased).toNat : ℤ) - 1075 = e := by
        rw [BitVec.toNat_ofNat, Nat.mod_eq_of_lt (by omega)]
        omega
      rw [if_pos hnormal, unpack_normal hlast hfirst hnormal hbits hm, hexponent]
    · obtain rfl : e = -1074 := hfull.resolve_left hnormal
      rw [if_neg hnormal, unpack_subnormal (by omega) hm]

theorem Moderate.exponent_range {e : ℤ} (hvalue : Moderate (m * 2 ^ e)) (hlow : 2 ^ 52 ≤ m)
    (hhigh : m < 2 ^ 53) : -253 < e ∧ e < 149 := by
  have hpos := two_zpow_pos e
  have hlow : (2 : ℚ) ^ (52 : ℤ) ≤ m := by exact_mod_cast hlow
  have hhigh : (m : ℚ) < 2 ^ (53 : ℤ) := by exact_mod_cast hhigh
  have hleast : (2 : ℚ) ^ (-200 : ℤ) < 2 ^ (53 + e) := by
    rw [zpow_add₀ two_ne_zero]
    exact hvalue.1.trans_lt (by gcongr)
  have hmost : (2 : ℚ) ^ (52 + e) < 2 ^ (201 : ℤ) :=
    calc (2 : ℚ) ^ (52 + e) = 2 ^ (52 : ℤ) * 2 ^ e := zpow_add₀ two_ne_zero _ _
      _ ≤ m * 2 ^ e := by gcongr
      _ ≤ 2 ^ (200 : ℤ) := hvalue.2
      _ < 2 ^ (201 : ℤ) := two_zpow_lt_iff.mpr (by norm_num)
  rw [two_zpow_lt_iff] at hleast hmost
  omega

theorem Holds.unpack_pack {value : UnpackedFloat} {q : ℚ} (hvalue : Holds value q)
    (hq : Moderate q) :
    UnpackedFloat.unpack .binary64 (UnpackedFloat.pack .binary64 value) = value := by
  rcases hvalue with ⟨m, e, hpos, rfl, hlow, hhigh, rfl⟩
  have hexponent := hq.exponent_range hlow hhigh
  have hcanonical : Canonical m e := ⟨hhigh, by omega, .inl hlow⟩
  rw [hcanonical.unpack_pack hpos, if_pos (by omega)]

/-- A double has this value. -/
def Represents (x : Float) (q : ℚ) : Prop :=
  Holds x.toModel.unpack q

theorem RoundsTo.moderate (hw : RoundsTo z w) (hz : Moderate z) : Moderate w :=
  ⟨(roundsTo_two_zpow _).mono hz.1 hw, hw.mono hz.2 (roundsTo_two_zpow _)⟩

theorem represents_of_holds {value : UnpackedFloat} (hvalue : Holds value w) (hw : RoundsTo z w)
    (hz : Moderate z) : Represents (.ofModel (.pack value)) w := by
  have hunpack : (Float.ofModel (.pack value)).toModel.unpack =
    UnpackedFloat.unpack .binary64 (UnpackedFloat.pack .binary64 value) := rfl
  rw [Represents, hunpack, hvalue.unpack_pack (hw.moderate hz)]
  exact hvalue

variable {a b : Float} {q r : ℚ}

theorem Represents.mul (ha : Represents a q) (hb : Represents b r) (hz : Moderate (q * r)) :
    ∃ w, Represents (a * b) w ∧ RoundsTo (q * r) w := by
  rcases ha with ⟨m, e, hm, hx, hmlow, hmhigh, rfl⟩
  rcases hb with ⟨n, f, hn, hy, hnlow, hnhigh, rfl⟩
  have hproduct : (m : ℚ) * 2 ^ e * (n * 2 ^ f) = (m * n : ℕ) * 2 ^ (e + f) := by
    rw [zpow_add₀ two_ne_zero]
    push_cast
    ring
  have happroximates : Approximates (.ofMantissaAndAccuracy (m * n) .exact)
      ((m : ℚ) * 2 ^ e * (n * 2 ^ f) / 2 ^ (e + f)) := by
    rw [hproduct, mul_div_cancel_right₀ _ (two_zpow_pos _).ne']
    exact .exact _
  have hmul : a * b = .ofModel (.pack
      (UnpackedFloat.mul .binary64 a.toModel.unpack b.toModel.unpack)) := rfl
  rcases holds_roundWithAccuracy (by nlinarith) happroximates hz with ⟨w, hvalue, hw⟩
  refine ⟨w, ?_, hw⟩
  rw [hmul, hx, hy]
  exact represents_of_holds hvalue hw hz

/-- The quotient of two mantissas of 53 bits, the first of which is shifted far enough. -/
theorem divCore_eq (hm : 0 < m) (hmlow : 2 ^ 52 ≤ m) (hmhigh : m < 2 ^ 53) (hn : 0 < n)
    (hnlow : 2 ^ 52 ≤ n) (hnhigh : n < 2 ^ 53) {e f : ℤ} (hexponent : -1021 ≤ e - f) :
    UnpackedFloat.divCore .binary64 m e n f =
      (m * 2 ^ 53 / n, e - f - 53, UnpackedFloat.accuracyOfFraction (m * 2 ^ 53 % n) n) := by
  have hmlog : m.log2 = 52 := (Nat.log2_eq_iff hm.ne').mpr ⟨hmlow, hmhigh⟩
  have hnlog : n.log2 = 52 := (Nat.log2_eq_iff hn.ne').mpr ⟨hnlow, hnhigh⟩
  have htotal : Float.Model.totalExponent m e - Float.Model.totalExponent n f = e - f := by
    unfold Float.Model.totalExponent
    omega
  have htarget : min (e - f) (Format.binary64.targetExponent (e - f)) = e - f - 53 := by
    rw [targetExponent_of_le hexponent]
    omega
  have hshift : (e - f - (e - f - 53)).toNat = 53 := by omega
  simp only [UnpackedFloat.divCore, htotal, htarget, hshift, Nat.shiftLeft_eq]

theorem Represents.div (ha : Represents a q) (hb : Represents b r) (hz : Moderate (q / r)) :
    ∃ w, Represents (a / b) w ∧ RoundsTo (q / r) w := by
  rcases ha with ⟨m, e, hm, hx, hmlow, hmhigh, rfl⟩
  rcases hb with ⟨n, f, hn, hy, hnlow, hnhigh, rfl⟩
  have hexponent : -200 < 1 + (e - f) := by
    rw [← two_zpow_lt_iff]
    have hscale : (2 : ℚ) ^ (1 + (e - f)) * (n * 2 ^ f) = 2 * n * 2 ^ e := by
      rw [zpow_add₀ two_ne_zero, zpow_sub₀ two_ne_zero]
      field_simp
    have hratio : (m : ℚ) < 2 * n := by exact_mod_cast (show m < 2 * n by omega)
    have hbelow : (m : ℚ) * 2 ^ e / (n * 2 ^ f) < 2 ^ (1 + (e - f)) := by
      rw [div_lt_iff₀ (by positivity), hscale]
      gcongr
    exact hz.1.trans_lt hbelow
  have hquotient : (m : ℚ) * 2 ^ e / (n * 2 ^ f) / 2 ^ (e - f - 53) = (m * 2 ^ 53 : ℕ) / n := by
    rw [zpow_sub₀ two_ne_zero, zpow_sub₀ two_ne_zero]
    push_cast
    field_simp
  have happroximates := Approximates.quotient (m * 2 ^ 53) hn
  rw [← hquotient] at happroximates
  have henough : 2 ^ 52 ≤ m * 2 ^ 53 / n := by
    rw [Nat.le_div_iff_mul_le hn]
    nlinarith
  have hdiv : a / b = .ofModel (.pack
      (UnpackedFloat.div .binary64 a.toModel.unpack b.toModel.unpack)) := rfl
  rcases holds_roundWithAccuracy henough happroximates hz with ⟨w, hvalue, hw⟩
  refine ⟨w, ?_, hw⟩
  rw [hdiv, hx, hy, UnpackedFloat.div,
    divCore_eq hm hmlow hmhigh hn hnlow hnhigh (by omega)]
  exact represents_of_holds hvalue hw hz

theorem normalize_natCast (hpos : 0 < n) (e : ℤ) (sign : UnpackedFloat.Sign) :
    UnpackedFloat.normalize .binary64 n e sign = UnpackedFloat.round .binary64 .positive n e := by
  have hcompare : compare (n : ℤ) 0 = .gt := by
    rw [Int.compare_eq_gt]
    omega
  simp only [UnpackedFloat.normalize, hcompare, Int.toNat_natCast]

theorem mul_two_zpow_eq (m : ℕ) {e f : ℤ} (hle : f ≤ e) :
    (m : ℚ) * 2 ^ e = (m * 2 ^ (e - f).toNat : ℕ) * 2 ^ f := by
  have hexponent : e = ((e - f).toNat : ℤ) + f := by omega
  have hscale : (2 : ℚ) ^ e = 2 ^ (e - f).toNat * 2 ^ f := by
    conv_lhs => rw [hexponent, zpow_add₀ two_ne_zero, zpow_natCast]
  rw [hscale]
  push_cast
  ring

theorem add_finite_eq {e f : ℤ} (hm : 0 < m) (hn : 0 < n) :
    UnpackedFloat.add .binary64 (.finite .positive m e hm) (.finite .positive n f hn) =
      UnpackedFloat.round .binary64 .positive
        (m * 2 ^ (e - min e f).toNat + n * 2 ^ (f - min e f).toNat) (min e f) := by
  have hpos : 0 < m * 2 ^ (e - min e f).toNat + n * 2 ^ (f - min e f).toNat := by positivity
  rw [← normalize_natCast hpos (min e f) .positive]
  simp only [UnpackedFloat.add, UnpackedFloat.decreaseExponent, Nat.shiftLeft_eq,
    UnpackedFloat.Sign.apply, Nat.cast_add]

theorem Represents.add (ha : Represents a q) (hb : Represents b r) (hz : Moderate (q + r)) :
    ∃ w, Represents (a + b) w ∧ RoundsTo (q + r) w := by
  rcases ha with ⟨m, e, hm, hx, hmlow, hmhigh, rfl⟩
  rcases hb with ⟨n, f, hn, hy, hnlow, hnhigh, rfl⟩
  have hsum : (m : ℚ) * 2 ^ e + n * 2 ^ f =
      (m * 2 ^ (e - min e f).toNat + n * 2 ^ (f - min e f).toNat : ℕ) * 2 ^ min e f := by
    rw [mul_two_zpow_eq m (min_le_left e f), mul_two_zpow_eq n (min_le_right e f)]
    push_cast
    ring
  have hpos : 0 < m * 2 ^ (e - min e f).toNat + n * 2 ^ (f - min e f).toNat := by positivity
  have hadd : a + b = .ofModel (.pack
      (UnpackedFloat.add .binary64 a.toModel.unpack b.toModel.unpack)) := rfl
  rw [hsum] at hz ⊢
  rcases holds_round hpos hz with ⟨w, hvalue, hw⟩
  refine ⟨w, ?_, hw⟩
  rw [hadd, hx, hy, add_finite_eq hm hn]
  exact represents_of_holds hvalue hw hz

theorem moderate_natCast (hpos : 0 < n) (hn : n ≤ 2 ^ 62) : Moderate n := by
  have hleast : (1 : ℚ) ≤ n := by exact_mod_cast hpos
  have hmost : (n : ℚ) ≤ 2 ^ (62 : ℤ) := by exact_mod_cast hn
  constructor
  · exact (zpow_le_one_of_nonpos₀ one_le_two (by norm_num)).trans hleast
  · exact hmost.trans (zpow_le_zpow_right₀ one_le_two (by norm_num))

theorem represents_toFloat (hpos : 0 < n) (hn : n < 2 ^ 53) :
    ∃ w, Represents n.toUInt64.toFloat w ∧ RoundsTo n w := by
  have hword : n.toUInt64.toNat = n := by
    rw [Nat.toUInt64, UInt64.toNat_ofNat']
    omega
  have hfloat : n.toUInt64.toFloat = .ofModel (.pack
      (UnpackedFloat.normalize .binary64 n.toUInt64.toNat 0 .positive)) := rfl
  have hvalue : (n : ℚ) * 2 ^ (0 : ℤ) = n := by rw [zpow_zero, mul_one]
  have hz : Moderate n := moderate_natCast hpos (by omega)
  rcases holds_round hpos (hvalue.symm ▸ hz) with ⟨w, hholds, hw⟩
  rw [hvalue] at hw
  refine ⟨w, ?_, hw⟩
  rw [hfloat, hword, normalize_natCast hpos]
  exact represents_of_holds hholds hw hz

theorem represents_one :
    Represents Float.exactlyRepresentablePowersOfTen[0] 1 :=
  ⟨2 ^ 52, -52, by norm_num, by rfl, le_rfl, by norm_num, by norm_num⟩

/-- Above the numbers with 53 bits the conversion goes a way of its own. -/
theorem represents_ofScientific (hpos : 0 < n) (hn : n ≤ 2 ^ 62) :
    ∃ w, Represents (.ofModel (Float.Model.ofScientific n 0)) w ∧ RoundsTo n w := by
  have hmul : UnpackedFloat.ofScientific .binary64 n 0 =
      UnpackedFloat.roundWithAccuracy .binary64 .positive (n * 2 ^ 53) (-53) .exact := by
    unfold UnpackedFloat.ofScientific
    have hlarge : ¬(0 : ℤ) < -(2 ^ 11 + n.log2) := by omega
    rw [dif_neg hpos.ne', if_neg (by norm_num), if_neg hlarge, if_pos le_rfl]
    change UnpackedFloat.roundWithAccuracy .binary64 .positive (n <<< 53 * 1) (-53) .exact = _
    rw [Nat.shiftLeft_eq, mul_one]
  have happroximates : Approximates (.ofMantissaAndAccuracy (n * 2 ^ 53) .exact)
      ((n : ℚ) / 2 ^ (-53 : ℤ)) := by
    have hvalue : (n : ℚ) / 2 ^ (-53 : ℤ) = (n * 2 ^ 53 : ℕ) := by
      rw [zpow_neg, div_inv_eq_mul]
      norm_cast
    rw [hvalue]
    exact .exact _
  have hz := moderate_natCast hpos hn
  rcases holds_roundWithAccuracy (by omega) happroximates hz with ⟨w, hholds, hw⟩
  refine ⟨w, ?_, hw⟩
  rw [← hmul] at hholds
  exact represents_of_holds hholds hw hz

theorem ofNat_eq (hpos : 0 < n) (hn : n ≤ 2 ^ 62) :
    (Scalar.ofNat n : Float) = Float.ofScientific n false 0 := by
  have hlength : decimalLength n ≤ 20 := Nat.toDigits_length 10 n 20 (by norm_num) (by omega)
  change Numeral.toFloat (.decimal false n 0) = _
  unfold Numeral.toFloat
  simp only
  rw [if_neg Bool.false_ne_true, if_neg (by simp; omega), if_neg (by omega)]
  rfl

theorem represents_ofNat (hpos : 0 < n) (hn : n ≤ 2 ^ 62) :
    ∃ w, Represents (Scalar.ofNat n) w ∧ RoundsTo n w := by
  rw [ofNat_eq hpos hn]
  unfold Float.ofScientific
  split
  · next hsmall =>
      rcases represents_toFloat hpos hsmall.1 with ⟨w, hholds, hw⟩
      have hz : Moderate (w * 1) := by
        rw [mul_one]
        exact hw.moderate (moderate_natCast hpos hn)
      rcases hholds.mul represents_one hz with ⟨v, hproduct, hv⟩
      rw [mul_one] at hv
      obtain rfl := hw.self.unique hv
      exact ⟨w, hproduct, hw⟩
  · exact represents_ofScientific hpos hn

theorem represents_natCast (hpos : 0 < n) (hn : n < 2 ^ 53) : Represents (Scalar.ofNat n) n := by
  rcases represents_ofNat hpos (by omega) with ⟨w, hholds, hw⟩
  rwa [hw.unique (roundsTo_natCast hpos hn)] at hholds

/-! ## Order -/

/-- The place of an unpacked double among those that are numbers. -/
def place : UnpackedFloat → ℤ ×ₗ ℤ ×ₗ ℤ
  | .infinity .negative => toLex (-2, toLex (0, 0))
  | .finite .negative m e _ => toLex (-1, toLex (-e, -m))
  | .notANumber => toLex (0, toLex (0, 0))
  | .zero _ => toLex (0, toLex (0, 0))
  | .finite .positive m e _ => toLex (1, toLex (e, m))
  | .infinity .positive => toLex (2, toLex (0, 0))

theorem compare_natCast (m n : ℕ) : compare (m : ℤ) n = compare m n := by
  rcases lt_trichotomy m n with hlt | rfl | hlt
  · rw [compare_lt_iff_lt.mpr hlt, compare_lt_iff_lt.mpr (Nat.cast_lt.mpr hlt)]
  · rw [compare_eq_iff_eq.mpr rfl, compare_eq_iff_eq.mpr rfl]
  · rw [compare_gt_iff_gt.mpr hlt, compare_gt_iff_gt.mpr (Nat.cast_lt.mpr hlt)]

theorem compare_neg (e f : ℤ) : compare (-e) (-f) = (compare e f).swap := by
  rcases lt_trichotomy e f with hlt | rfl | hlt
  · rw [compare_lt_iff_lt.mpr hlt, compare_gt_iff_gt.mpr (neg_lt_neg hlt)]
    rfl
  · rw [compare_eq_iff_eq.mpr rfl, compare_eq_iff_eq.mpr rfl]
    rfl
  · rw [compare_gt_iff_gt.mpr hlt, compare_lt_iff_lt.mpr (neg_lt_neg hlt)]
    rfl

theorem compare_eq_place {a b : UnpackedFloat} (ha : a ≠ .notANumber) (hb : b ≠ .notANumber) :
    a.compare b = some (compare (place a) (place b)) := by
  rcases a with (_ | _) | _ | _ | ⟨_ | _, m, e, hm⟩ <;>
    rcases b with (_ | _) | _ | _ | ⟨_ | _, n, f, hn⟩
  any_goals exact absurd rfl ha
  any_goals exact absurd rfl hb
  any_goals rfl
  · have hplaces : compare (place (.finite .negative m e hm)) (place (.finite .negative n f hn)) =
      (compare (-e) (-f)).then (compare (-(m : ℤ)) (-n)) := rfl
    rw [hplaces, compare_neg, compare_neg, compare_natCast, ← Ordering.swap_then]
    rfl
  · have hplaces : compare (place (.finite .positive m e hm)) (place (.finite .positive n f hn)) =
      (compare e f).then (compare (m : ℤ) n) := rfl
    rw [hplaces, compare_natCast]
    rfl

/-- Doubles are compared by their places, unless one of them is not a number. -/
theorem compare_eq_some_iff {a b : UnpackedFloat} {ordering : Ordering} :
    a.compare b = some ordering ↔
      a ≠ .notANumber ∧ b ≠ .notANumber ∧ compare (place a) (place b) = ordering := by
  by_cases ha : a = .notANumber
  · subst ha
    exact iff_of_false nofun fun hplaces => hplaces.1 rfl
  · by_cases hb : b = .notANumber
    · subst hb
      have hnone : a.compare .notANumber = none := by cases a <;> rfl
      rw [hnone]
      exact iff_of_false nofun fun hplaces => hplaces.2.1 rfl
    · rw [compare_eq_place ha hb, Option.some.injEq, and_iff_right ha, and_iff_right hb]

theorem le_iff_place {a b : UnpackedFloat} :
    a.le b = true ↔ a ≠ .notANumber ∧ b ≠ .notANumber ∧ place a ≤ place b := by
  rw [UnpackedFloat.le, Option.any_eq_true]
  simp only [compare_eq_some_iff, Ordering.isLE_iff_ne_gt, ← compare_le_iff_le]
  constructor
  · rintro ⟨ordering, ⟨ha, hb, rfl⟩, hle⟩
    exact ⟨ha, hb, hle⟩
  · rintro ⟨ha, hb, hle⟩
    exact ⟨_, ⟨ha, hb, rfl⟩, hle⟩

theorem lt_iff_place {a b : UnpackedFloat} :
    a.lt b = true ↔ a ≠ .notANumber ∧ b ≠ .notANumber ∧ place a < place b := by
  rw [UnpackedFloat.lt, beq_iff_eq, compare_eq_some_iff, compare_lt_iff_lt]

theorem le_iff {a b : Float} : a ≤ b ↔ a.toModel.unpack.le b.toModel.unpack = true :=
  decide_eq_true_iff

theorem le_trans {a b c : Float} (hab : a ≤ b) (hbc : b ≤ c) : a ≤ c := by
  rw [le_iff, le_iff_place] at hab hbc ⊢
  exact ⟨hab.1, hbc.2.1, hab.2.2.trans hbc.2.2⟩

theorem Represents.le (ha : Represents a q) (hb : Represents b r) (hqr : q ≤ r) : a ≤ b := by
  rcases ha with ⟨m, e, hm, hx, hmlow, hmhigh, rfl⟩
  rcases hb with ⟨n, f, hn, hy, hnlow, hnhigh, rfl⟩
  rw [le_iff, hx, hy, le_iff_place]
  refine ⟨nofun, nofun, ?_⟩
  simp only [place, Prod.Lex.toLex_le_toLex, lt_self_iff_false, false_or, true_and, Nat.cast_le]
  rcases lt_trichotomy e f with hef | rfl | hef
  · exact .inl hef
  · exact .inr ⟨rfl, by exact_mod_cast le_of_mul_le_mul_right hqr (two_zpow_pos e)⟩
  · exfalso
    have hnext : ((n + 1 : ℕ) : ℚ) * 2 ^ f ≤ m * 2 ^ e := mul_two_zpow_le hnhigh hmlow hef
    have hbelow : (n : ℚ) * 2 ^ f < (n + 1 : ℕ) * 2 ^ f :=
      mul_lt_mul_of_pos_right (by exact_mod_cast n.lt_succ_self) (two_zpow_pos f)
    exact (hbelow.trans_le hnext).not_ge hqr

theorem Represents.zero_le (ha : Represents a q) : (Scalar.ofNat 0 : Float) ≤ a := by
  rcases ha with ⟨m, e, hm, hx, -⟩
  have hzero : (Scalar.ofNat 0 : Float).toModel.unpack = .zero .positive := by rfl
  rw [le_iff, hzero, hx]
  rfl

theorem ofNat_mono (hmn : m ≤ n) (hn : n ≤ 2 ^ 62) :
    (Scalar.ofNat m : Float) ≤ Scalar.ofNat n := by
  rcases m.eq_zero_or_pos with rfl | hm
  · rcases n.eq_zero_or_pos with rfl | hpos
    · rw [le_iff]
      rfl
    · rcases represents_ofNat hpos hn with ⟨w, hholds, -⟩
      exact hholds.zero_le
  · rcases represents_ofNat hm (hmn.trans hn) with ⟨w, hm, hw⟩
    rcases represents_ofNat (by omega) hn with ⟨v, hn, hv⟩
    exact hm.le hn (hw.mono (by exact_mod_cast hmn) hv)

end ImplicitDynamics.Double
