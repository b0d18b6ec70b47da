import ImplicitDynamics.Proofs.NamedSettings
import ImplicitDynamics.Proofs.StepControl

/-!
# Preparations that fail

A preparation has two halves.  First settings are applied; if one of them is
refused, the integrator of variable order has the settings that it had before.
Then the configuration is validated and the variables are classified.  What
fails there is not the fault of the settings, and they stay applied.

Either way the integrator of variable order has to be prepared again, and an
integrator of fixed step has to be if it had to be before.
-/

namespace ImplicitDynamics

variable {α : Type}

theorem Core.ensureInitialized_of_not {core : Core α} (hnot : core.initialized = false) :
    core.ensureInitialized = .error .notInitialized := by
  rw [ensureInitialized, if_neg (by simp [hnot])]

variable [Scalar α] {given : List (String × α)} {cause : SolverError α}

/-- Settings of the Newton iteration are applied and nothing else changes, also
where one of them is refused. -/
theorem FixedStepIntegrator.applyAll_cases (kind : IntegratorKind)
    (hnames : (given.map Prod.fst).Nodup) (core : Core α) :
    ∃ newton : NewtonSettings α,
      (applyAll kind given core = (.ok (), { core with newton }) ∧
          Tuning.Overridden given ⟨core.newton, none⟩ ⟨newton, none⟩) ∨
        ∃ cause, applyAll kind given core = (.error cause, { core with newton }) ∧
          cause.concernsSettings = true := by
  induction given generalizing core with
  | nil => exact ⟨core.newton, .inl ⟨rfl, .nil _⟩⟩
  | cons setting rest ih =>
      obtain ⟨key, value⟩ := setting
      rw [List.map_cons, List.nodup_cons] at hnames
      have happlied := (core.applyNewton?_answers none key value).applied
      rw [applyAll]
      split
      · next cause hone =>
        rw [hone] at happlied
        exact ⟨core.newton, .inr ⟨cause, rfl, happlied⟩⟩
      · exact ⟨core.newton, .inr ⟨_, rfl, rfl⟩⟩
      · next middle hone =>
        rw [hone] at happlied
        have hkeeps := Core.applyNewton?_keeps hone
        obtain ⟨newton, ⟨hrest, hoverridden⟩ | ⟨cause, hrest, hconcerns⟩⟩ := ih hnames.2 middle
        · refine ⟨newton, .inl ⟨?_, happlied.cons hoverridden hnames.1⟩⟩
          rw [hrest, hkeeps]
        · refine ⟨newton, .inr ⟨cause, ?_, hconcerns⟩⟩
          rw [hrest, hkeeps]

namespace BdfIntegrator

variable {integrator next : BdfIntegrator α}

def tuning (integrator : BdfIntegrator α) : Tuning α :=
  ⟨integrator.core.newton, some integrator.settings⟩

/-- Settings have been applied, and of what is not a setting nothing has
changed. -/
structure Configured (given : List (String × α)) (before after : BdfIntegrator α) : Prop where
  core : after.core = { before.core with newton := after.core.newton }
  overridden : Tuning.Overridden given before.tuning after.tuning

theorem applyOne_cases (integrator : BdfIntegrator α) (key : String) (value : α) :
    (∃ next, integrator.applyOne key value = .ok next ∧
        Configured [(key, value)] integrator next) ∨
      ∃ cause, integrator.applyOne key value = .error cause ∧
        cause.concernsSettings = true := by
  have hnewton := (integrator.core.applyNewton?_answers (some integrator.settings) key
    value).applied
  have hsettings := (integrator.settings.set?_answers integrator.core.newton key value).applied
  unfold applyOne
  split
  · next cause hone =>
    rw [hone] at hnewton
    exact .inr ⟨cause, rfl, hnewton⟩
  · next core hone =>
    rw [hone] at hnewton
    exact .inl ⟨_, rfl, Core.applyNewton?_keeps hone, hnewton⟩
  · split
    · next cause hone =>
      rw [hone] at hsettings
      exact .inr ⟨cause, rfl, hsettings⟩
    · next settings hone =>
      rw [hone] at hsettings
      exact .inl ⟨_, rfl, rfl, hsettings⟩
    · exact .inr ⟨_, rfl, rfl⟩

theorem applyAll_cases (hnames : (given.map Prod.fst).Nodup) (integrator : BdfIntegrator α) :
    (∃ next, applyAll given integrator = .ok next ∧ Configured given integrator next) ∨
      ∃ cause, applyAll given integrator = .error cause ∧ cause.concernsSettings = true := by
  induction given generalizing integrator with
  | nil => exact .inl ⟨integrator, rfl, rfl, .nil _⟩
  | cons setting rest ih =>
      obtain ⟨key, value⟩ := setting
      rw [List.map_cons, List.nodup_cons] at hnames
      rw [applyAll]
      obtain ⟨middle, hone, hfirst⟩ | ⟨cause, hone, hconcerns⟩ :=
        integrator.applyOne_cases key value
      · rw [hone]
        obtain ⟨next, hrest, hlast⟩ | hrefused := ih hnames.2 middle
        · refine .inl ⟨next, hrest, ?_, hfirst.overridden.cons hlast.overridden hnames.1⟩
          rw [hlast.core, hfirst.core]
        · exact .inr hrefused
      · rw [hone]
        exact .inr ⟨cause, rfl, hconcerns⟩

end BdfIntegrator

theorem BdfSettings.concerns_of_notPositive? {entries : List (String × α)}
    (hentries : notPositive? entries = some cause) : cause.concernsSettings = true := by
  induction entries with
  | nil => cases hentries
  | cons entry rest ih =>
      obtain ⟨key, value⟩ := entry
      rw [notPositive?] at hentries
      obtain ⟨hvalue, -⟩ | ⟨found, hfound, hconcerns, -⟩ := Setting.positive_cases key value
      · rw [hvalue] at hentries
        exact ih hentries
      · rw [hfound] at hentries
        cases hentries
        exact hconcerns

theorem BdfSettings.concerns_of_validate {settings : BdfSettings α}
    (hvalidate : settings.validate = .error cause) : cause.concernsSettings = true := by
  unfold validate at hvalidate
  split at hvalidate
  · next hpositive =>
    cases hvalidate
    exact concerns_of_notPositive? hpositive
  · repeat' split at hvalidate
    all_goals cases hvalidate
    all_goals rfl

theorem BdfIntegrator.configure_cases (hnames : (given.map Prod.fst).Nodup)
    (integrator : BdfIntegrator α) :
    (∃ next, integrator.configure given = .ok next ∧ Configured given integrator next) ∨
      ∃ cause, integrator.configure given = .error cause ∧ cause.concernsSettings = true := by
  unfold configure
  obtain ⟨next, hall, hconfigured⟩ | ⟨cause, hall, hconcerns⟩ :=
    applyAll_cases hnames integrator
  · rw [hall]
    cases hvalidate : next.settings.validate with
    | ok => exact .inl ⟨next, by simp only [hvalidate]; rfl, hconfigured⟩
    | error cause =>
        exact .inr ⟨cause, by simp only [hvalidate]; rfl,
          BdfSettings.concerns_of_validate hvalidate⟩
  · rw [hall]
    exact .inr ⟨cause, rfl, hconcerns⟩

theorem Core.not_concerns_of_fault? {core : Core α} {fault : InvalidInput α}
    (hfault : core.fault? = some fault) :
    (SolverError.invalidInput fault).concernsSettings = false := by
  unfold fault? at hfault
  simp only at hfault
  repeat' split at hfault
  all_goals cases hfault
  all_goals rfl

theorem Core.not_concerns_of_prepare {core : Core α} (hprepare : core.prepare = .error cause) :
    cause.concernsSettings = false := by
  unfold prepare at hprepare
  split at hprepare
  · next hvalidate =>
    cases hprepare
    unfold validate at hvalidate
    split at hvalidate
    · next hfault =>
      cases hvalidate
      exact not_concerns_of_fault? hfault
    · cases hvalidate
  · simp only at hprepare
    split at hprepare <;> cases hprepare
    rfl

/-! ## Failed preparations -/

namespace Integrator

theorem run_of_not_initialized {integrator : Integrator α}
    (hnot : integrator.core.initialized = false) (told : ProgressEvent α → Control → Control)
    (control : Control) : (integrator.run told control).outcome = .error .notInitialized := by
  have hensure := Core.ensureInitialized_of_not hnot
  cases integrator with
  | fixedStep integrator =>
      change integrator.core.ensureInitialized = _ at hensure
      simp only [run, FixedStep.run, hensure]
  | bdf integrator =>
      change integrator.core.ensureInitialized = _ at hensure
      simp only [run, BdfIntegrator.run, hensure]

/-- What a failed preparation leaves of an integrator. -/
structure Failed (given : List (String × α)) (cause : SolverError α)
    (before after : Integrator α) : Prop where
  config : after.config = before.config
  not_initialized : before.kind = .dassl ∨ before.core.initialized = false →
    after.core.initialized = false
  kept : before.kind = .dassl → cause.concernsSettings = true → after.tuning = before.tuning
  overridden : cause.concernsSettings = false → Tuning.Overridden given before.tuning after.tuning

end Integrator

theorem FixedStepIntegrator.failed_prepare (hnames : (given.map Prod.fst).Nodup)
    {integrator after : FixedStepIntegrator α}
    (hfails : integrator.prepare given = (.error cause, after)) :
    Integrator.Failed given cause (.fixedStep integrator) (.fixedStep after) := by
  have hkind : (Integrator.fixedStep integrator).kind ≠ .dassl := by
    simp only [Integrator.kind]
    cases integrator.method <;> simp [FixedStepMethod.kind]
  obtain ⟨newton, ⟨hall, hoverridden⟩ | ⟨found, hall, hconcerns⟩⟩ :=
    applyAll_cases integrator.method.kind hnames integrator.core
  · simp only [prepare, hall] at hfails
    split at hfails
    · next found hprepare =>
      cases hfails
      exact ⟨rfl, fun h => h.resolve_left hkind, fun h => absurd h hkind, fun _ => hoverridden⟩
    · cases hfails
  · simp only [prepare, hall] at hfails
    cases hfails
    refine ⟨rfl, fun h => h.resolve_left hkind, fun h => absurd h hkind, fun h => ?_⟩
    rw [hconcerns] at h
    cases h

theorem BdfIntegrator.failed_prepare (hnames : (given.map Prod.fst).Nodup)
    {integrator after : BdfIntegrator α}
    (hfails : integrator.prepare given = (.error cause, after)) :
    Integrator.Failed given cause (.bdf integrator) (.bdf after) := by
  have hcases := configure_cases hnames { integrator with core := integrator.core.reset }
  obtain ⟨next, hconfigure, hconfigured⟩ | ⟨found, hconfigure, hconcerns⟩ := hcases
  · simp only [prepare, hconfigure] at hfails
    split at hfails
    · next found hprepare =>
      cases hfails
      have hconfig : after.core.config = integrator.core.config := by
        rw [hconfigured.core]
        rfl
      have hnot : after.core.initialized = false := by
        rw [hconfigured.core]
        rfl
      refine ⟨hconfig, fun _ => hnot, fun _ h => ?_, fun _ => hconfigured.overridden⟩
      rw [Core.not_concerns_of_prepare hprepare] at h
      cases h
    · cases hfails
  · simp only [prepare, hconfigure] at hfails
    cases hfails
    refine ⟨rfl, fun _ => rfl, fun _ _ => rfl, fun h => ?_⟩
    rw [hconcerns] at h
    cases h

/-- A failed preparation asks for another one.  Settings that are refused leave
the integrator of variable order with those that it had; settings that are not
to blame stay applied. -/
theorem Integrator.prepare_failure (hnames : (given.map Prod.fst).Nodup)
    {integrator after : Integrator α}
    (hfails : integrator.prepare given = (.error cause, after)) :
    (integrator.kind = .dassl ∨ integrator.core.initialized = false →
        ∀ told control, (after.run told control).outcome = .error .notInitialized) ∧
      (integrator.kind = .dassl → cause.concernsSettings = true →
        after.tuning = integrator.tuning) ∧
      (cause.concernsSettings = false →
        Tuning.Overridden given integrator.tuning after.tuning) ∧
      after.config = integrator.config := by
  have hfailed : Failed given cause integrator after := by
    cases integrator with
    | fixedStep integrator =>
        obtain ⟨hresult, rfl⟩ := Prod.mk.inj hfails
        exact FixedStepIntegrator.failed_prepare hnames (Prod.ext hresult rfl)
    | bdf integrator =>
        obtain ⟨hresult, rfl⟩ := Prod.mk.inj hfails
        exact BdfIntegrator.failed_prepare hnames (Prod.ext hresult rfl)
  exact ⟨fun h => run_of_not_initialized (hfailed.not_initialized h), hfailed.kept,
    hfailed.overridden, hfailed.config⟩

theorem Setting.positiveCount_natCast {n : Nat} (key : String) (hpos : 0 < n)
    (hle : n ≤ countLimit) : positiveCount key (n : ℝ) = .ok n := by
  unfold positiveCount
  rw [positive_of_pos key (Nat.cast_pos.mpr hpos)]
  simp [hle]

namespace BdfIntegrator

/-- An integrator as it is created, for `y' = 0`. -/
noncomputable def fresh (config : Config ℝ) : BdfIntegrator ℝ :=
  create (.affine [[1]] [[0]] [0]) config

theorem validate_standard_maxOrder {maxOrder : Nat} (hpos : 0 < maxOrder)
    (hle : maxOrder ≤ BdfSettings.highestOrder) :
    ({ BdfSettings.standard with maxOrder } : BdfSettings ℝ).validate = .ok () :=
  BdfSettings.validate_of_valid
    { BdfSettings.standard_valid with maxOrder_pos := hpos, maxOrder_le := hle }

theorem applyOne_maxOrder (integrator : BdfIntegrator ℝ) {n : Nat} (hpos : 0 < n)
    (hle : n ≤ Setting.countLimit) : integrator.applyOne "max_order" (n : ℝ) =
      .ok { integrator with settings := { integrator.settings with maxOrder := n } } := by
  simp [applyOne, Core.applyNewton?, BdfSettings.set?,
    Setting.positiveCount_natCast "max_order" hpos hle, Except.map]

theorem configure_maxOrder (config : Config ℝ) :
    (fresh config).configure [("max_order", 3)] =
      .ok { fresh config with settings := { BdfSettings.standard with maxOrder := 3 } } := by
  have hone := applyOne_maxOrder (fresh config) (n := 3) (by decide) (by decide)
  rw [Nat.cast_ofNat] at hone
  rw [configure, applyAll, hone]
  change Except.map _ ({ BdfSettings.standard with maxOrder := 3 } : BdfSettings ℝ).validate = _
  rw [validate_standard_maxOrder (by decide) (by decide)]
  rfl

theorem prepare_fresh_backwards : (fresh ⟨10, 1, 0, [1]⟩).core.prepare =
    .error (.invalidInput .emptyInterval) := by
  simp [fresh, create, Core.create, Core.prepare, Core.validate, Core.fault?,
    ResidualSystem.affine, ResidualSystem.ofFunction]

theorem prepare_backwards : (fresh ⟨10, 1, 0, [1]⟩).prepare [("max_order", 3)] =
    (.error (.invalidInput .emptyInterval),
      { fresh ⟨10, 1, 0, [1]⟩ with
        settings := { BdfSettings.standard with maxOrder := 3 } }) := by
  have hblank : { fresh ⟨10, 1, 0, [1]⟩ with core := (fresh ⟨10, 1, 0, [1]⟩).core.reset } =
      fresh ⟨10, 1, 0, [1]⟩ := rfl
  rw [prepare, hblank, configure_maxOrder]
  simp only [prepare_fresh_backwards]

end BdfIntegrator

/-- The interval runs backwards, so the preparation fails; what is not at fault
stays applied. -/
theorem Integrator.prepare_failure_backwards :
    let given : List (String × ℝ) := [("max_order", 3)]
    let before : Integrator ℝ := .bdf (.fresh ⟨10, 1, 0, [1]⟩)
    let cause : SolverError ℝ := .invalidInput .emptyInterval
    (given.map Prod.fst).Nodup ∧ (before.prepare given).1 = .error cause ∧
      cause.concernsSettings = false ∧
      (∀ told control,
        ((before.prepare given).2.run told control).outcome = .error .notInitialized) ∧
      Tuning.Overridden given before.tuning (before.prepare given).2.tuning := by
  intro given before cause
  have hnames : (given.map Prod.fst).Nodup := by decide
  have hresult : (before.prepare given).1 = .error cause :=
    congrArg Prod.fst BdfIntegrator.prepare_backwards
  have hfailure := prepare_failure hnames (Prod.ext hresult rfl)
  exact ⟨hnames, hresult, rfl, hfailure.1 (.inl rfl), hfailure.2.2.1 rfl⟩

/-- The largest order is another one than before, although the preparation
fails. -/
theorem Integrator.settings_prepare_backwards :
    let before : Integrator ℝ := .bdf (.fresh ⟨10, 1, 0, [1]⟩)
    (before.prepare [("max_order", 3)]).1 = .error (.invalidInput .emptyInterval) ∧
      (before.prepare [("max_order", 3)]).2.settings? ≠ before.settings? := by
  intro before
  refine ⟨congrArg Prod.fst BdfIntegrator.prepare_backwards, fun hsettings => ?_⟩
  have hafter : (before.prepare [("max_order", 3)]).2.settings? =
      some { BdfSettings.standard with maxOrder := 3 } :=
    congrArg
      (fun outcome : Except (SolverError ℝ) Unit × BdfIntegrator ℝ => some outcome.2.settings)
      BdfIntegrator.prepare_backwards
  have horder : some 3 = some BdfSettings.highestOrder :=
    congrArg (Option.map BdfSettings.maxOrder) (hafter.symm.trans hsettings)
  exact absurd horder (by decide)

end ImplicitDynamics
