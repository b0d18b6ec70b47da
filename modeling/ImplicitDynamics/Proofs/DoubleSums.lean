import ImplicitDynamics.Proofs.DoubleRounding
import Mathlib

/-!
# Sums of doubles

Adding a double that is not below zero does not lower a double: rounding takes nothing
below a double that it was not below before, down to the least exponent and up to
infinity.  So no term of a sum of such doubles is above it, and where a term or the sum is
not a number, the sum is not at most anything.
-/

namespace ImplicitDynamics.Double

open Float.Model (Format UnpackedFloat)

open Float.Model.UnpackedFloat (Accuracy ExtendedMantissa Sign)

variable {m n : ℕ} {e f : ℤ}

theorem mantissa_shiftRight (extended : ExtendedMantissa) (count : ℕ) :
    (extended >>> count).mantissa = extended.mantissa / 2 ^ count := by
  induction count with
  | zero => exact (Nat.div_one _).symm
  | succ count ih =>
      have hone : (extended >>> (count + 1)).mantissa = (extended >>> count).mantissa / 2 := rfl
      rw [hone, ih, Nat.div_div_eq_div_mul, pow_succ]

theorem roundedMantissa_bounds (extended : ExtendedMantissa) :
    extended.mantissa ≤ extended.roundedMantissa ∧
      extended.roundedMantissa ≤ extended.mantissa + 1 := by
  rcases extended with ⟨mantissa, roundBit, stickyBit⟩
  have hparity : mantissa % 2 ≤ 1 := Nat.le_of_lt_succ (Nat.mod_lt _ two_pos)
  cases roundBit <;> cases stickyBit <;>
    simp only [ExtendedMantissa.roundedMantissa, ExtendedMantissa.accuracy,
      Accuracy.roundToNearestEven] <;>
    omega

theorem shifted_lt (m : ℕ) : m / 2 ^ (m.log2 - 52) < 2 ^ 53 := by
  rw [Nat.div_lt_iff_lt_mul (Nat.two_pow_pos _), ← pow_add]
  exact Nat.lt_log2_self.trans_le (Nat.pow_le_pow_right two_pos (by omega))

theorem le_shifted (hm : 2 ^ 52 ≤ m) : 2 ^ 52 ≤ m / 2 ^ (m.log2 - 52) := by
  have hne : m ≠ 0 := by omega
  have hlog : 52 ≤ m.log2 := (Nat.le_log2 hne).mpr hm
  rw [Nat.le_div_iff_mul_le (Nat.two_pow_pos _), ← pow_add, Nat.add_sub_cancel' hlog]
  exact Nat.log2_self_le hne

theorem canonical_carry (hm : 0 < m) (hbits : m ≤ 2 ^ 53) (he : -1074 ≤ e)
    (hfull : 2 ^ 52 ≤ m ∨ e = -1074) :
    ∃ n f, UnpackedFloat.shiftToTargetExponent .binary64 m e .exact = (⟨n, false, false⟩, f) ∧
      0 < n ∧ Canonical n f ∧ (n = m ∧ f = e ∨ e < f) := by
  rw [shiftToTargetExponent_carry hbits he]
  rcases hbits.lt_or_eq with hlt | rfl
  · exact ⟨m, e, if_pos hlt, hm, ⟨hlt, he, hfull⟩, .inl ⟨rfl, rfl⟩⟩
  · exact ⟨2 ^ 52, e + 1, if_neg (lt_irrefl _), by norm_num,
      ⟨by norm_num, by omega, .inl le_rfl⟩, .inr (by omega)⟩

/-- Rounding drops the bits beyond 53 and may add one to the last that is left. -/
theorem canonical_roundWithAccuracy (hm : 0 < m) (he : -1074 ≤ e)
    (hfull : 2 ^ 52 ≤ m ∨ e = -1074) (accuracy : Accuracy) :
    ∃ n f, ∃ hpos : 0 < n,
      UnpackedFloat.roundWithAccuracy .binary64 .positive m e accuracy =
        .finite .positive n f hpos ∧ Canonical n f ∧
      (e + (m.log2 - 52 : ℕ) < f ∨ f = e + (m.log2 - 52 : ℕ) ∧ m / 2 ^ (m.log2 - 52) ≤ n) := by
  let extended := ExtendedMantissa.ofMantissaAndAccuracy m accuracy >>> (m.log2 - 52)
  have hmantissa : extended.mantissa = m / 2 ^ (m.log2 - 52) := by
    rw [mantissa_shiftRight, mantissa_ofMantissaAndAccuracy]
  have hbounds := roundedMantissa_bounds extended
  rw [hmantissa] at hbounds
  have hbits := shifted_lt m
  have hshifted : 0 < m / 2 ^ (m.log2 - 52) ∧
      (2 ^ 52 ≤ m / 2 ^ (m.log2 - 52) ∨ e + (m.log2 - 52 : ℕ) = -1074) := by
    rcases le_or_gt (2 ^ 52) m with hle | hlt
    · have hfull := le_shifted hle
      exact ⟨by omega, .inl hfull⟩
    · rw [log2_sub_eq_zero (by omega), pow_zero, Nat.div_one]
      exact ⟨hm, .inr (by omega)⟩
  obtain ⟨n, f, hcarry, hpos, hcanonical, hplace⟩ := canonical_carry (m := extended.roundedMantissa)
    (e := e + (m.log2 - 52 : ℕ)) (by omega) (by omega) (by omega) (by omega)
  refine ⟨n, f, hpos, ?_, hcanonical, by omega⟩
  unfold UnpackedFloat.roundWithAccuracy
  rw [shiftToTargetExponent_eq (by omega)]
  simp only [extended] at hcarry
  simp only [hcarry, hpos.ne', dite_false]

/-- A mantissa with 53 bits, or at the least exponent, need not be lengthened. -/
theorem round_eq_roundWithAccuracy (hm : 0 < m) (hfull : 2 ^ 52 ≤ m ∨ e = -1074) :
    UnpackedFloat.round .binary64 .positive m e =
      UnpackedFloat.roundWithAccuracy .binary64 .positive m e .exact := by
  have htarget : Format.binary64.targetExponent (Float.Model.totalExponent m e) =
      max (m.log2 + 1 + e - 53) (-1074) := rfl
  have hlog : 2 ^ 52 ≤ m → 52 ≤ m.log2 := (Nat.le_log2 hm.ne').mpr
  have hshift : (e - Format.binary64.targetExponent (Float.Model.totalExponent m e)).toNat = 0 := by
    rw [htarget]
    omega
  simp only [UnpackedFloat.round, UnpackedFloat.decreaseExponent, hshift, Nat.shiftLeft_zero,
    Nat.cast_zero, sub_zero]

theorem canonical_unpack {bits : BitVec Format.binary64.numBits} {sign : Sign} (hm : 0 < m)
    (hbits : UnpackedFloat.unpack .binary64 bits = .finite sign m e hm) : Canonical m e := by
  unfold UnpackedFloat.unpack at hbits
  simp only at hbits
  split at hbits
  · split at hbits <;> cases hbits
  · split at hbits
    · split at hbits
      · cases hbits
      · next hfirst hmantissa =>
        cases hbits
        rw [hfirst]
        exact ⟨lt_trans (BitVec.isLt _) (by decide), by decide, .inr (by decide)⟩
    · next hfirst =>
      cases hbits
      have hexponent : 0 < (UnpackedFloat.unpackExponent bits).toNat :=
        Nat.pos_of_ne_zero fun hzero => hfirst (BitVec.eq_of_toNat_eq hzero)
      have hleast : (-1074 : ℤ) ≤ (UnpackedFloat.unpackExponent bits).toNat -
          (Format.binary64.exponentBias + (52 : ℕ)) := by
        change (-1074 : ℤ) ≤ (UnpackedFloat.unpackExponent bits).toNat - ((1023 : ℕ) + (52 : ℕ))
        omega
      have hfull : 2 ^ 52 ≤ (1#1 ++ UnpackedFloat.unpackMantissa bits).toNat := by
        rw [BitVec.toNat_append]
        exact Nat.left_le_or
      exact ⟨BitVec.isLt _, hleast, .inl hfull⟩

/-- What an unpacked double is that is not below zero. -/
inductive NotBelowZero : UnpackedFloat → Prop where
  | infinity : NotBelowZero (.infinity .positive)
  | zero (sign : Sign) : NotBelowZero (.zero sign)
  | finite {m : ℕ} {e : ℤ} (hm : 0 < m) (hcanonical : Canonical m e) :
    NotBelowZero (.finite .positive m e hm)

namespace NotBelowZero

variable {x y : UnpackedFloat}

theorem ne_notANumber (hx : NotBelowZero x) : x ≠ .notANumber := by
  cases hx <;> nofun

theorem place_bounds (hx : NotBelowZero x) (sign : Sign) :
    place (.zero sign) ≤ place x ∧ place x ≤ place (.infinity .positive) := by
  cases hx <;> simp [place, Prod.Lex.toLex_le_toLex]

/-- Packing keeps a value or takes it to infinity. -/
theorem pack (hx : NotBelowZero x) :
    let packed := UnpackedFloat.unpack .binary64 (UnpackedFloat.pack .binary64 x)
    NotBelowZero packed ∧ place x ≤ place packed := by
  intro packed
  cases hx with
  | infinity =>
      have hpacked : packed = .infinity .positive := rfl
      rw [hpacked]
      exact ⟨.infinity, le_rfl⟩
  | zero sign =>
      have hpacked : packed = .zero sign := by cases sign <;> rfl
      rw [hpacked]
      exact ⟨.zero sign, le_rfl⟩
  | finite hm hcanonical =>
      have hpacked : packed = _ := hcanonical.unpack_pack hm
      rw [hpacked]
      split
      · exact ⟨.finite hm hcanonical, le_rfl⟩
      · exact ⟨.infinity, ((finite hm hcanonical).place_bounds .positive).2⟩

/-- Rounding does not come out below a double that is not above what is rounded. -/
theorem round {M : ℕ} {g : ℤ} (hg : -1074 ≤ g) (hfull : 2 ^ 52 ≤ M ∨ g = -1074) (hm : 0 < m)
    (hx : Canonical m e) (hge : g ≤ e) (hle : m * 2 ^ (e - g).toNat ≤ M) :
    let rounded := UnpackedFloat.round .binary64 .positive M g
    NotBelowZero rounded ∧ place (.finite .positive m e hm) ≤ place rounded := by
  intro rounded
  have hM : 0 < M := lt_of_lt_of_le (by positivity) hle
  have hround : rounded = UnpackedFloat.roundWithAccuracy .binary64 .positive M g .exact :=
    round_eq_roundWithAccuracy hM hfull
  obtain ⟨n, f, hn, hvalue, hy, hplace⟩ := canonical_roundWithAccuracy hM hg hfull .exact
  rw [hround, hvalue]
  refine ⟨.finite hn hy, ?_⟩
  -- With 53 bits in `m`, at least as many of those of `M` are shifted out.
  have hshift : (e - g).toNat ≤ M.log2 - 52 := by
    rcases hx.full with hbits | hleast
    · have hlog : 52 + (e - g).toNat ≤ M.log2 := by
        rw [Nat.le_log2 hM.ne', pow_add]
        exact (Nat.mul_le_mul_right _ hbits).trans hle
      omega
    · omega
  simp only [place, Prod.Lex.toLex_le_toLex, lt_self_iff_false, false_or, true_and, Nat.cast_le]
  rcases hshift.lt_or_eq with hlt | heq
  · exact .inl (by omega)
  · have hquotient : m ≤ M / 2 ^ (M.log2 - 52) := by
      rwa [Nat.le_div_iff_mul_le (Nat.two_pow_pos _), ← heq]
    omega

theorem add_finite (hm : 0 < m) (hn : 0 < n) (hx : Canonical m e) (hy : Canonical n f) :
    let sum := UnpackedFloat.add .binary64 (.finite .positive m e hm) (.finite .positive n f hn)
    NotBelowZero sum ∧ place (.finite .positive m e hm) ≤ place sum ∧
      place (.finite .positive n f hn) ≤ place sum := by
  intro sum
  have hleast : -1074 ≤ min e f := le_min hx.least hy.least
  have hfull : 2 ^ 52 ≤ m * 2 ^ (e - min e f).toNat + n * 2 ^ (f - min e f).toNat ∨
      min e f = -1074 := by
    rcases min_choice e f with heq | heq <;> rw [heq, sub_self, Int.toNat_zero, pow_zero]
    · exact hx.full.imp_left fun hbits => by omega
    · exact hy.full.imp_left fun hbits => by omega
  have hfirst := round hleast hfull hm hx (min_le_left e f) (Nat.le_add_right _ _)
  have hsecond := round hleast hfull hn hy (min_le_right e f) (Nat.le_add_left _ _)
  have hsum : sum = _ := add_finite_eq hm hn
  rw [hsum]
  exact ⟨hfirst.1, hfirst.2, hsecond.2⟩

/-- A sum is not below what is added. -/
theorem add (hx : NotBelowZero x) (hy : NotBelowZero y) :
    let sum := UnpackedFloat.add .binary64 x y
    NotBelowZero sum ∧ place x ≤ place sum ∧ place y ≤ place sum := by
  intro sum
  cases hx with
  | infinity =>
      have hsum : sum = .infinity .positive := by cases hy <;> rfl
      rw [hsum]
      exact ⟨.infinity, le_rfl, (hy.place_bounds .positive).2⟩
  | zero sign =>
      cases hy with
      | infinity => exact ⟨.infinity, (infinity.place_bounds sign).1, le_rfl⟩
      | zero other =>
          have hsum : ∃ either, sum = .zero either := by
            cases sign <;> cases other <;> exact ⟨_, rfl⟩
          rcases hsum with ⟨either, hsum⟩
          rw [hsum]
          exact ⟨.zero either, le_rfl, le_rfl⟩
      | finite hn hcanonical =>
          exact ⟨.finite hn hcanonical, ((finite hn hcanonical).place_bounds sign).1, le_rfl⟩
  | finite hm hcanonical =>
      cases hy with
      | infinity => exact ⟨.infinity, ((finite hm hcanonical).place_bounds .positive).2, le_rfl⟩
      | zero sign =>
          exact ⟨.finite hm hcanonical, le_rfl, ((finite hm hcanonical).place_bounds sign).1⟩
      | finite hn hother => exact add_finite hm hn hcanonical hother

end NotBelowZero

theorem not_lt_of_le {a b : Float} (hab : a ≤ b) : ¬ b < a := by
  rw [le_iff, le_iff_place] at hab
  rw [lt_iff, lt_iff_place]
  exact fun hba => hab.2.2.not_gt hba.2.2

theorem not_lt_zero_iff {a : Float} :
    ¬ a < 0 ↔ a.toModel.unpack = .notANumber ∨ NotBelowZero a.toModel.unpack := by
  have hzero : (0 : Float).toModel.unpack = .zero .positive := by rfl
  rw [lt_iff, hzero, lt_iff_place]
  constructor
  · intro hlt
    rcases hunpack : a.toModel.unpack with (_ | _) | _ | _ | ⟨_ | _, m, e, hm⟩ <;>
      rw [hunpack] at hlt
    · exact absurd ⟨nofun, nofun, by decide⟩ hlt
    · exact .inr .infinity
    · exact .inl rfl
    · exact .inr (.zero _)
    · refine absurd ⟨nofun, nofun, ?_⟩ hlt
      simp [place, Prod.Lex.toLex_lt_toLex]
    · exact .inr (.finite hm (canonical_unpack hm hunpack))
  · rintro (hnan | hnot) hlt
    · exact hlt.1 hnan
    · exact (hnot.place_bounds .positive).1.not_gt hlt.2.2

/-! ## Sums -/

theorem unpack_add (a b : Float) : (a + b).toModel.unpack = UnpackedFloat.unpack .binary64
    (UnpackedFloat.pack .binary64
      (UnpackedFloat.add .binary64 a.toModel.unpack b.toModel.unpack)) := rfl

/-- A sum is not a number if one of its terms is none. -/
theorem add_notANumber {x y : UnpackedFloat} (hxy : x = .notANumber ∨ y = .notANumber) :
    UnpackedFloat.unpack .binary64
      (UnpackedFloat.pack .binary64 (UnpackedFloat.add .binary64 x y)) = .notANumber := by
  have hsum : UnpackedFloat.add .binary64 x y = .notANumber := by
    rcases hxy with rfl | rfl
    · rfl
    · cases x <;> rfl
  rw [hsum]
  rfl

/-- The sum of doubles that are not below zero is not a number or not below either of them. -/
theorem add_cases {a b : Float} (ha : ¬ a < 0) (hb : ¬ b < 0) :
    (a + b).toModel.unpack = .notANumber ∨
      NotBelowZero (a + b).toModel.unpack ∧ a ≤ a + b ∧ b ≤ a + b := by
  rw [not_lt_zero_iff] at ha hb
  simp only [le_iff, le_iff_place, unpack_add]
  rcases ha with ha | ha
  · exact .inl (add_notANumber (.inl ha))
  · rcases hb with hb | hb
    · exact .inl (add_notANumber (.inr hb))
    · obtain ⟨hsum, hfirst, hsecond⟩ := ha.add hb
      obtain ⟨hpacked, hle⟩ := hsum.pack
      exact .inr ⟨hpacked, ⟨ha.ne_notANumber, hpacked.ne_notANumber, hfirst.trans hle⟩,
        hb.ne_notANumber, hpacked.ne_notANumber, hsecond.trans hle⟩

theorem not_add_lt_zero {a b : Float} (ha : ¬ a < 0) (hb : ¬ b < 0) : ¬ a + b < 0 :=
  not_lt_zero_iff.mpr ((add_cases ha hb).imp_right And.left)

theorem le_of_add_le {a b x : Float} (ha : ¬ a < 0) (hb : ¬ b < 0) (hsum : a + b ≤ x) :
    a ≤ x ∧ b ≤ x := by
  rcases add_cases ha hb with hnan | ⟨-, hfirst, hsecond⟩
  · rw [le_iff, le_iff_place] at hsum
    exact absurd hnan hsum.1
  · exact ⟨le_trans hfirst hsum, le_trans hsecond hsum⟩

theorem le_of_foldl_le {start x : Float} {terms : List Float} (hstart : ¬ start < 0)
    (hterms : ∀ term ∈ terms, ¬ term < 0) (hsum : terms.foldl (· + ·) start ≤ x) :
    start ≤ x ∧ ∀ term ∈ terms, term ≤ x := by
  induction terms generalizing start with
  | nil => exact ⟨hsum, List.forall_mem_nil _⟩
  | cons term rest ih =>
      rw [List.forall_mem_cons] at hterms ⊢
      obtain ⟨hadded, hrest⟩ := ih (not_add_lt_zero hstart hterms.1) hterms.2 hsum
      obtain ⟨hle, hterm⟩ := le_of_add_le hstart hterms.1 hadded
      exact ⟨hle, hterm, hrest⟩

/-- Where a sum of terms that are not below zero is at most a bound, no term is above it. -/
theorem le_of_sum_le {terms : List Float} (hterms : ∀ term ∈ terms, ¬ term < 0) {x : Float}
    (hsum : Scalar.sum terms ≤ x) : ∀ term ∈ terms, term ≤ x := by
  have hstart : ¬ (-Scalar.ofNat 0 : Float) < 0 := by decide +kernel
  exact (le_of_foldl_le hstart hterms hsum).2

theorem not_abs_lt_zero (x : Float) : ¬ x.abs < 0 := by
  have habs : x.abs.toModel.unpack = UnpackedFloat.unpack .binary64
    (UnpackedFloat.pack .binary64 x.toModel.unpack.abs) := rfl
  rw [not_lt_zero_iff, habs]
  rcases hunpack : x.toModel.unpack with sign | _ | sign | ⟨sign, m, e, hm⟩
  · exact .inr NotBelowZero.infinity.pack.1
  · exact .inl rfl
  · exact .inr (NotBelowZero.zero _).pack.1
  · exact .inr (NotBelowZero.finite hm (canonical_unpack hm hunpack)).pack.1

theorem not_residualChange_lt_zero (before after : Float) :
    ¬ FiniteDifference.residualChange before after < 0 := by
  unfold FiniteDifference.residualChange
  simp only
  split
  · decide +kernel
  · exact not_abs_lt_zero _

end ImplicitDynamics.Double
