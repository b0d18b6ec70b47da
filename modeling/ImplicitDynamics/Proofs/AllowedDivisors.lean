import ImplicitDynamics.Integration.Checked

/-!
# Allowed divisors

Which divisors a checked computation allows is left open.  It has the result of the
unchecked one as long as what it allows is closed under the operations that make
divisors out of divisors, as the positive numbers are, and trivially all numbers.
-/

namespace ImplicitDynamics

variable {α : Type} [Scalar α] {allowed : α → Bool}

omit [Scalar α] in
theorem mapM_of_forall {β γ : Type} {f : β → Option γ} {g : β → γ} {items : List β}
    (hitems : ∀ item ∈ items, f item = some (g item)) : items.mapM f = some (items.map g) := by
  induction items with
  | nil => rfl
  | cons item rest ih =>
      have hrest := ih fun other hother => hitems other (List.mem_cons_of_mem _ hother)
      rw [List.mapM_cons, hitems item List.mem_cons_self, hrest]
      rfl

/-- The numbers that are allowed include those that the integrators divide by, if
they include the numbers that these are made of. -/
structure Checked.Divisors (allowed : α → Bool) : Prop where
  positive : ∀ {x}, 0 < x → allowed x
  ofNat : ∀ n, allowed (Scalar.ofNat (n + 1))
  mul : ∀ {x y}, allowed x → allowed y → allowed (x * y)
  sqrt : ∀ {x}, allowed x → allowed (Scalar.sqrt x)
  increment : ∀ value {scale}, allowed scale → allowed (FiniteDifference.increment value scale)
  weight : ∀ value nominal {relative absolute}, allowed relative → allowed absolute →
    allowed (relative * Scalar.max (Scalar.abs value) nominal + absolute)

/-- Settings that lead to divisors that are allowed. -/
structure BdfSettings.Allowed (allowed : α → Bool) (settings : BdfSettings α) : Prop where
  relativeTolerance : allowed settings.relativeTolerance
  absoluteTolerance : allowed settings.absoluteTolerance
  shortestStep : allowed (Scalar.min settings.minStep (0.5 * settings.maxStep))

/-- A history whose step and typical magnitudes are allowed. -/
structure Bdf.History.Allowed (allowed : α → Bool) (history : Bdf.History α) : Prop where
  step : allowed history.step
  nominal : ∀ scale ∈ history.nominal, allowed scale

namespace Checked

theorem divisors_anyDivisor : Divisors (anyDivisor : α → Bool) where
  positive _ := rfl
  ofNat _ := rfl
  mul _ _ := rfl
  sqrt _ := rfl
  increment _ _ _ := rfl
  weight _ _ _ _ _ _ := rfl

theorem divide_eq {divisor : α} (hdivisor : allowed divisor) (x : α) :
    divide allowed x divisor = some (x / divisor) :=
  if_pos hdivisor

variable {settings : BdfSettings α} {h : α}

namespace Divisors

theorem ofNat_of_ne_zero (hdivisors : Divisors allowed) {n : Nat} (hn : n ≠ 0) :
    allowed (Scalar.ofNat n) := by
  obtain ⟨k, rfl⟩ := Nat.exists_eq_succ_of_ne_zero hn
  exact hdivisors.ofNat k

theorem increments (hdivisors : Divisors allowed) (values : List α) :
    ∀ increment ∈ values.map fun v => FiniteDifference.increment v 1, allowed increment := by
  intro increment hincrement
  rcases List.mem_map.mp hincrement with ⟨v, -, rfl⟩
  exact hdivisors.increment v (hdivisors.ofNat 0)

theorem scaledIncrements (hdivisors : Divisors allowed) {nominal : List α}
    (hnominal : ∀ scale ∈ nominal, allowed scale) (values : List α) :
    ∀ increment ∈ values.zipWith FiniteDifference.increment nominal, allowed increment := by
  intro increment hincrement
  rw [← List.map_uncurry_zip_eq_zipWith] at hincrement
  rcases List.mem_map.mp hincrement with ⟨⟨v, scale⟩, hmem, rfl⟩
  exact hdivisors.increment v (hnominal scale (List.of_mem_zip hmem).2)

theorem weights (hdivisors : Divisors allowed) (hsettings : settings.Allowed allowed)
    (history : Bdf.History α) : ∀ weight ∈ history.weights settings, allowed weight := by
  intro weight hweight
  rw [Bdf.History.weights, ← List.map_uncurry_zip_eq_zipWith] at hweight
  rcases List.mem_map.mp hweight with ⟨⟨y, nominal⟩, -, rfl⟩
  exact hdivisors.weight y nominal hsettings.relativeTolerance hsettings.absoluteTolerance

end Divisors

theorem wrmsNorm_eq (hdivisors : Divisors allowed) {weights : List α}
    (hweights : ∀ weight ∈ weights, allowed weight) (values : List α) :
    wrmsNorm allowed values weights = some (Linear.wrmsNorm values weights) := by
  have hsquares : ((values.zip weights).mapM fun entry =>
      (divide allowed entry.1 entry.2).map fun quotient => quotient * quotient) =
      some (values.zipWith (fun v w => (v / w) * (v / w)) weights) := by
    rw [← List.map_uncurry_zip_eq_zipWith]
    apply mapM_of_forall
    rintro ⟨v, w⟩ hmem
    rw [divide_eq (hweights w (List.of_mem_zip hmem).2)]
    rfl
  unfold wrmsNorm Linear.wrmsNorm
  cases values with
  | nil => rfl
  | cons v values =>
      have hcount : allowed (Scalar.ofNat (v :: values).length) := hdivisors.ofNat _
      have hnonempty : (v :: values).isEmpty = false := rfl
      simp only [hnonempty, Bool.false_eq_true, if_false, hsquares, divide_eq hcount,
        Option.bind_eq_bind, Option.bind_some, Option.pure_def]

theorem predictedDerivatives_eq (hh : allowed h) (algebraic : List Bool) (column : List α) :
    predictedDerivatives allowed algebraic h column =
      some (Bdf.predictedDerivatives algebraic h column) := by
  apply mapM_of_forall
  rintro ⟨z, isAlgebraic⟩ -
  cases isAlgebraic with
  | true => rfl
  | false => exact divide_eq hh z

theorem formula_eq (hdivisors : Divisors allowed) (order : Nat) :
    formula allowed order = some (Bdf.formula order : List α) := by
  have hfactor : ∀ (values : List α) (k : Nat),
      ((divide allowed 1 (Scalar.ofNat (k + 1))).map fun factor => Bdf.timesFactor factor values) =
        some (Bdf.timesFactor (1 / Scalar.ofNat (k + 1)) values) := by
    intro values k
    rw [divide_eq (hdivisors.ofNat k)]
    rfl
  unfold formula Bdf.formula
  simp only [hfactor]
  exact List.foldlM_pure

theorem coefficients_eq (hdivisors : Divisors allowed) (order : Nat) :
    coefficients allowed order = some (Bdf.coefficients order : List α) := by
  rw [coefficients, formula_eq hdivisors]
  rfl

theorem stepFactor_eq (hdivisors : Divisors allowed) (settings : BdfSettings α) (error : α)
    (order : Nat) :
    stepFactor allowed settings error order = some (Bdf.stepFactor settings error order) := by
  unfold stepFactor Bdf.stepFactor
  split
  · next herror =>
    simp only [divide_eq (hdivisors.positive herror), divide_eq (hdivisors.ofNat order),
      Option.bind_eq_bind, Option.bind_some, Option.pure_def]
  · rfl

theorem afterAccepted_eq (hdivisors : Divisors allowed) (hh : allowed h)
    (settings : BdfSettings α) (error : α) (history : Bdf.History α) :
    afterAccepted allowed settings h error history =
      some (Bdf.afterAccepted settings h error history) := by
  unfold afterAccepted nextStep
  simp only [stepFactor_eq hdivisors, Option.map_some, divide_eq hh, Option.bind_eq_bind,
    Option.bind_some, Option.pure_def]
  rfl

theorem plan_eq {course : Bdf.Course α Control} (hstep : allowed course.history.step)
    (settings : BdfSettings α) (stop : α) :
    plan allowed settings stop course = some (Bdf.plan settings stop course) := by
  unfold plan Bdf.plan
  simp only [divide_eq hstep, Option.bind_eq_bind, Option.bind_some, Option.pure_def]
  split <;> rfl

theorem attemptBound_eq (hsettings : settings.Allowed allowed) (span : α) :
    attemptBound allowed settings span = some (Bdf.attemptBound settings span) := by
  unfold attemptBound Bdf.attemptBound
  simp only [divide_eq hsettings.shortestStep]
  rfl

end Checked

end ImplicitDynamics
