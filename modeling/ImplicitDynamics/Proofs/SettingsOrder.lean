import ImplicitDynamics.Proofs.FailedPreparation
import ImplicitDynamics.Proofs.SolverLifecycle

/-!
# Settings in any order

Settings that are given by name come in an order of their own, and the first one
that is refused ends the walk through them.  Whether all of them are accepted does
not depend on the order, since each is judged by itself, and what they come to
does not either, since each name is given once.  So a preparation takes one of two
courses, and the order does not choose between them.

To write settings in place, and to take them back when one is refused, comes to the
same as not to write them before all are accepted.
-/

namespace ImplicitDynamics

variable {α : Type}

namespace Tuning

variable {before first second : Tuning α}

/-- Whether there are unnamed settings tells the kind of integrator, and with it
the names. -/
theorem names_eq (hunnamed : first.unnamed = second.unnamed) :
    first.named.map Prod.fst = second.named.map Prod.fst := by
  obtain ⟨newton, _ | settings⟩ := first <;> obtain ⟨otherNewton, _ | others⟩ := second
  · rfl
  · cases hunnamed
  · cases hunnamed
  · rfl

theorem eq_of_named (hnamed : first.named = second.named)
    (hunnamed : first.unnamed = second.unnamed) : first = second := by
  obtain ⟨⟨_, _⟩, _ | settings⟩ := first <;> obtain ⟨⟨_, _⟩, _ | others⟩ := second
  · cases hnamed
    rfl
  · cases hunnamed
  · cases hunnamed
  · obtain ⟨⟩ := settings
    obtain ⟨⟩ := others
    have hpair := Option.some.inj hunnamed
    cases hnamed
    cases hpair
    rfl

theorem eq_of_get? (hget : ∀ key, first.get? key = second.get? key)
    (hunnamed : first.unnamed = second.unnamed) : first = second :=
  eq_of_named (eq_of_lookup first.nodup_names (names_eq hunnamed) hget) hunnamed

variable [Scalar α] {given others : List (String × α)}

namespace Overridden

/-- Settings are what they were, but for those that were given. -/
theorem unique (hfirst : Overridden given before first)
    (hsecond : Overridden given before second) : first = second := by
  refine eq_of_get? (fun key => ?_) (hfirst.unnamed.trans hsecond.unnamed.symm)
  by_cases hkey : key ∈ given.map Prod.fst
  · obtain ⟨⟨name, value⟩, hmem, rfl⟩ := List.mem_map.mp hkey
    rw [hfirst.named name value hmem, hsecond.named name value hmem]
  · rw [hfirst.others key hkey, hsecond.others key hkey]

theorem perm (hoverridden : Overridden given before first) (hperm : given.Perm others) :
    Overridden others before first where
  named key value hmem := hoverridden.named key value (hperm.mem_iff.mpr hmem)
  others key hkey := hoverridden.others key
    fun hmem => hkey ((hperm.map Prod.fst).mem_iff.mp hmem)
  unnamed := hoverridden.unnamed

end Overridden

end Tuning

variable [Scalar α]

/-- The integrator of variable order knows the setting and accepts the value. -/
def Setting.Accepted (setting : String × α) : Prop :=
  setting.1 ∈ newtonNames ++ bdfNames ∧ Sensible setting.1 setting.2

open Setting (Accepted)

namespace BdfIntegrator

variable {given others : List (String × α)} {integrator before after next : BdfIntegrator α}

theorem applyOne_eq_ok_iff (integrator : BdfIntegrator α) (key : String) (value : α) :
    (∃ next, integrator.applyOne key value = .ok next) ↔ Accepted (key, value) := by
  have hnewton := integrator.core.applyNewton?_answers (some integrator.settings) key value
  have hbdf := integrator.settings.set?_answers integrator.core.newton key value
  rw [Accepted, List.mem_append]
  unfold applyOne
  split
  · next cause hanswer =>
    rw [hanswer] at hnewton
    have hrefused := hnewton.accepts (hnewton.knows.mpr nofun)
    simp [← hrefused]
  · next core hanswer =>
    rw [hanswer] at hnewton
    have hkey := hnewton.knows.mpr nofun
    have haccepted := hnewton.accepts hkey
    simp [← haccepted, hkey]
  · next hanswer =>
    rw [hanswer] at hnewton
    have hother : key ∉ Setting.newtonNames := fun hkey => hnewton.knows.mp hkey rfl
    split
    · next cause hanswer =>
      rw [hanswer] at hbdf
      have hrefused := hbdf.accepts (hbdf.knows.mpr nofun)
      simp [← hrefused]
    · next settings hanswer =>
      rw [hanswer] at hbdf
      have hkey := hbdf.knows.mpr nofun
      have haccepted := hbdf.accepts hkey
      simp [← haccepted, hkey]
    · next hanswer =>
      rw [hanswer] at hbdf
      have hunknown : key ∉ Setting.bdfNames := fun hkey => hbdf.knows.mp hkey rfl
      simp [hother, hunknown]

/-- Whether a setting is accepted depends on nothing else, and so the walk goes to
the end exactly if each of them is. -/
theorem applyAll_eq_ok_iff (given : List (String × α)) (integrator : BdfIntegrator α) :
    (∃ next, applyAll given integrator = .ok next) ↔ ∀ setting ∈ given, Accepted setting := by
  induction given generalizing integrator with
  | nil => simp [applyAll]
  | cons setting rest ih =>
      obtain ⟨key, value⟩ := setting
      rw [applyAll, List.forall_mem_cons, ← integrator.applyOne_eq_ok_iff key value]
      cases hone : integrator.applyOne key value with
      | error cause => simp
      | ok middle => simp [ih middle]

theorem Configured.unique (hnext : Configured given integrator next)
    (hafter : Configured given integrator after) : next = after := by
  have htuning : next.tuning = after.tuning := hnext.overridden.unique hafter.overridden
  have hnewton : next.core.newton = after.core.newton := congrArg Tuning.newton htuning
  have hsettings : some next.settings = some after.settings := congrArg Tuning.bdf? htuning
  have hcore : next.core = after.core := by rw [hnext.core, hafter.core, hnewton]
  cases next
  cases after
  cases hcore
  cases hsettings
  rfl

theorem Configured.perm (hconfigured : Configured given before after)
    (hperm : given.Perm others) : Configured others before after :=
  ⟨hconfigured.core, hconfigured.overridden.perm hperm⟩

/-- The settings that come of a walk to the end are decided by what was given,
whatever the walk. -/
theorem configure_eq_ok_iff (hnames : (given.map Prod.fst).Nodup) :
    integrator.configure given = .ok next ↔
      (∀ setting ∈ given, Accepted setting) ∧ Configured given integrator next ∧
        next.settings.validate = .ok () := by
  rw [← applyAll_eq_ok_iff given integrator, configure]
  obtain ⟨walked, hall, hconfigured⟩ | ⟨cause, hall, -⟩ := applyAll_cases hnames integrator
  · simp only [hall, Except.ok.injEq, exists_eq', true_and]
    cases hvalidate : walked.settings.validate with
    | error cause =>
        constructor
        · rintro ⟨⟩
        · rintro ⟨hnext, hvalid⟩
          rw [← hconfigured.unique hnext, hvalidate] at hvalid
          cases hvalid
    | ok =>
        constructor
        · rintro ⟨⟩
          exact ⟨hconfigured, hvalidate⟩
        · rintro ⟨hnext, -⟩
          rw [hconfigured.unique hnext]
          rfl
  · simp [hall]

theorem configure_perm (hnames : (given.map Prod.fst).Nodup) (hperm : given.Perm others) :
    integrator.configure given = .ok next ↔ integrator.configure others = .ok next := by
  have hothers : (others.map Prod.fst).Nodup := ((hperm.map Prod.fst).nodup_iff).mp hnames
  rw [configure_eq_ok_iff hnames, configure_eq_ok_iff hothers]
  refine and_congr (forall_congr' fun setting => ?_) (and_congr ⟨?_, ?_⟩ Iff.rfl)
  · rw [hperm.mem_iff]
  · exact fun hconfigured => hconfigured.perm hperm
  · exact fun hconfigured => hconfigured.perm hperm.symm

/-! ## Preparations -/

/-- The integrator with its settings, to be prepared. -/
def reset (integrator : BdfIntegrator α) : BdfIntegrator α :=
  ⟨integrator.core.reset, integrator.settings⟩

theorem prepare_eq (before : BdfIntegrator α) (given : List (String × α)) :
    before.prepare given =
      match before.reset.configure given with
      | .error cause => (.error cause, before.reset)
      | .ok configured =>
        match configured.core.prepare with
        | .error cause => (.error cause, configured)
        | .ok core => (.ok (), { configured with core }) := rfl

/-- The settings have taken effect. -/
structure Effective (given : List (String × α)) (before after : BdfIntegrator α) : Prop where
  system : after.core.system = before.core.system
  config : after.core.config = before.core.config
  overridden : Tuning.Overridden given before.tuning after.tuning
  valid : after.settings.validate = .ok ()

theorem Configured.effective (hconfigured : Configured given before.reset after)
    (hvalid : after.settings.validate = .ok ()) : Effective given before after where
  system := by
    rw [hconfigured.core]
    rfl
  config := by
    rw [hconfigured.core]
    rfl
  overridden := hconfigured.overridden
  valid := hvalid

theorem Effective.prepared {core : Core α} (heffective : Effective given before after)
    (hprepare : after.core.prepare = .ok core) :
    Effective given before { after with core } := by
  have hprepared := Core.prepare_eq hprepare
  have hnewton : core.newton = after.core.newton := by rw [hprepared]
  refine ⟨?_, ?_, ?_, heffective.valid⟩
  · rw [← heffective.system, hprepared]
  · rw [← heffective.config, hprepared]
  · have hoverridden := heffective.overridden
    unfold tuning at hoverridden ⊢
    simp only [hnewton]
    exact hoverridden

/-- A name stands for nothing, a value is not acceptable, or the settings that were
given do not go with the others. -/
def Objectionable (given : List (String × α)) (before : BdfIntegrator α) : Prop :=
  (∃ setting ∈ given, ¬ Accepted setting) ∨
    ∃ newton settings, Tuning.Overridden given before.tuning ⟨newton, some settings⟩ ∧
      settings.validate ≠ .ok ()

theorem exists_configure_iff (hnames : (given.map Prod.fst).Nodup) (before : BdfIntegrator α) :
    (∃ next, before.reset.configure given = .ok next) ↔ ¬ Objectionable given before := by
  constructor
  · rintro ⟨next, hconfigure⟩
    obtain ⟨haccepted, hconfigured, hvalid⟩ := (configure_eq_ok_iff hnames).mp hconfigure
    rintro (⟨setting, hmem, hrefused⟩ | ⟨newton, settings, hoverridden, hinvalid⟩)
    · exact hrefused (haccepted setting hmem)
    · have htuning := hconfigured.overridden.unique hoverridden
      have hsettings : some next.settings = some settings := congrArg Tuning.bdf? htuning
      rw [← Option.some.inj hsettings] at hinvalid
      exact hinvalid hvalid
  · intro hnone
    have haccepted : ∀ setting ∈ given, Accepted setting := by
      intro setting hmem
      by_contra hrefused
      exact hnone (.inl ⟨setting, hmem, hrefused⟩)
    obtain ⟨next, hall, hconfigured⟩ | ⟨cause, hall, -⟩ := applyAll_cases hnames before.reset
    · have hvalid : next.settings.validate = .ok () := by
        by_contra hinvalid
        exact hnone (.inr ⟨_, _, hconfigured.overridden, hinvalid⟩)
      exact ⟨next, (configure_eq_ok_iff hnames).mpr ⟨haccepted, hconfigured, hvalid⟩⟩
    · obtain ⟨next, hok⟩ := (applyAll_eq_ok_iff given before.reset).mpr haccepted
      rw [hall] at hok
      cases hok

/-- What a preparation comes to. -/
structure Prepared (given : List (String × α)) (before : BdfIntegrator α)
    (result : Except (SolverError α) Unit) (after : BdfIntegrator α) : Prop where
  success_iff : result = .ok () ↔
    ¬ Objectionable given before ∧ ∃ core, before.core.prepare = .ok core
  initialized_iff : result = .ok () ↔ after.core.initialized = true
  effective : ¬ Objectionable given before → Effective given before after
  unchanged : Objectionable given before → after = before.reset

theorem prepare_prepared (hnames : (given.map Prod.fst).Nodup) (before : BdfIntegrator α) :
    Prepared given before (before.prepare given).1 (before.prepare given).2 := by
  have hexists := exists_configure_iff hnames before
  rw [prepare_eq]
  cases hconfigure : before.reset.configure given with
  | error cause =>
      have hobjectionable : Objectionable given before := by
        by_contra hnone
        obtain ⟨next, hnext⟩ := hexists.mpr hnone
        rw [hconfigure] at hnext
        cases hnext
      exact ⟨iff_of_false nofun fun hboth => hboth.1 hobjectionable, iff_of_false nofun nofun,
        fun hnone => absurd hobjectionable hnone, fun _ => rfl⟩
  | ok configured =>
      have hnone : ¬ Objectionable given before := hexists.mp ⟨configured, hconfigure⟩
      obtain ⟨-, hconfigured, hvalid⟩ := (configure_eq_ok_iff hnames).mp hconfigure
      have heffective := hconfigured.effective hvalid
      simp only
      cases hcore : configured.core.prepare with
      | error cause =>
          have hnot : configured.core.initialized = false := by
            rw [hconfigured.core]
            rfl
          refine ⟨iff_of_false nofun ?_, iff_of_false nofun (by simp [hnot]),
            fun _ => heffective, fun hobjectionable => absurd hobjectionable hnone⟩
          rintro ⟨-, core, hprepare⟩
          have hsame := Core.prepare_of_same heffective.system heffective.config hprepare
          rw [hcore] at hsame
          cases hsame
      | ok core =>
          have hprepared := Core.prepare_eq hcore
          have hbefore := Core.prepare_of_same heffective.system.symm heffective.config.symm hcore
          exact ⟨iff_of_true rfl ⟨hnone, _, hbefore⟩, iff_of_true rfl (by rw [hprepared]),
            fun _ => heffective.prepared hcore,
            fun hobjectionable => absurd hobjectionable hnone⟩

theorem prepare_perm (hnames : (given.map Prod.fst).Nodup) (hperm : given.Perm others)
    (before : BdfIntegrator α) :
    ((before.prepare given).1 = .ok () ↔ (before.prepare others).1 = .ok ()) ∧
      (before.prepare given).2 = (before.prepare others).2 := by
  rw [prepare_eq, prepare_eq]
  cases hconfigure : before.reset.configure given with
  | ok next =>
      rw [(configure_perm hnames hperm).mp hconfigure]
      exact ⟨Iff.rfl, rfl⟩
  | error cause =>
      cases hother : before.reset.configure others with
      | error other => simp
      | ok next =>
          rw [(configure_perm hnames hperm).mpr hother] at hconfigure
          cases hconfigure

/-- Applies settings in turn; where one is refused, those before it stay
applied. -/
def walk : List (String × α) → BdfIntegrator α → Except (SolverError α) Unit × BdfIntegrator α
  | [], integrator => (.ok (), integrator)
  | (key, value) :: rest, integrator =>
    match integrator.applyOne key value with
    | .error cause => (.error cause, integrator)
    | .ok next => walk rest next

/-- Prepares in place: settings of the Newton iteration are written as they come,
and put back if anything is refused, while the others are written to a copy. -/
def prepareInPlace (integrator : BdfIntegrator α) (settings : List (String × α)) :
    Except (SolverError α) Unit × BdfIntegrator α :=
  let newton := integrator.core.newton
  let (result, written) := walk settings integrator.reset
  match result.bind fun _ => written.settings.validate with
  | .error cause =>
    (.error cause, { core := { written.core with newton }, settings := integrator.settings })
  | .ok () =>
    match written.core.prepare with
    | .error cause => (.error cause, written)
    | .ok core => (.ok (), { written with core })

/-- A walk that is cut short has changed settings only. -/
theorem walk_eq (given : List (String × α)) (integrator : BdfIntegrator α) :
    (walk given integrator).1 = (applyAll given integrator).map (fun _ => ()) ∧
      (∀ next, applyAll given integrator = .ok next → (walk given integrator).2 = next) ∧
      (walk given integrator).2.core =
        { integrator.core with newton := (walk given integrator).2.core.newton } := by
  induction given generalizing integrator with
  | nil => exact ⟨rfl, fun next hnext => Except.ok.inj hnext, rfl⟩
  | cons setting rest ih =>
      obtain ⟨key, value⟩ := setting
      rw [walk, applyAll]
      cases hone : integrator.applyOne key value with
      | error cause =>
          refine ⟨rfl, ?_, rfl⟩
          rintro next ⟨⟩
      | ok middle =>
          obtain ⟨hresult, hnext, hcore⟩ := ih middle
          refine ⟨hresult, hnext, ?_⟩
          simp only
          rw [hcore, applyOne_keeps hone]

theorem prepareInPlace_eq (before : BdfIntegrator α) (given : List (String × α)) :
    before.prepareInPlace given = before.prepare given := by
  obtain ⟨hresult, hnext, hcore⟩ := walk_eq given before.reset
  have hrollback : { (walk given before.reset).2.core with newton := before.core.newton } =
      before.core.reset := by
    rw [hcore]
    rfl
  rw [prepare_eq]
  unfold prepareInPlace configure
  simp only [hresult, hrollback]
  cases hall : applyAll given before.reset with
  | error cause => rfl
  | ok next =>
      simp only [Except.map, hnext next hall]
      cases next.settings.validate with
      | error cause => rfl
      | ok => rfl

theorem prepare_growth :
    ((create CompiledSystem.growth.toResidual ⟨1, 0, 1, [1]⟩).prepare
      [("newton_tolerance", 1), ("max_order", 3)]).1 = .ok () := by
  let blank : BdfIntegrator ℝ := create CompiledSystem.growth.toResidual ⟨1, 0, 1, [1]⟩
  let middle : BdfIntegrator ℝ :=
    { blank with core := { blank.core with newton := { blank.core.newton with tolerance := 1 } } }
  let configured : BdfIntegrator ℝ :=
    { middle with settings := { BdfSettings.standard with maxOrder := 3 } }
  have htolerance : blank.applyOne "newton_tolerance" 1 = .ok middle := by
    simp [applyOne, Core.applyNewton?, Setting.positive_of_pos "newton_tolerance" zero_lt_one,
      Except.map, middle]
  have horder : middle.applyOne "max_order" 3 = .ok configured := by
    have happly := applyOne_maxOrder middle (n := 3) (by decide) (by decide)
    rw [Nat.cast_ofNat] at happly
    exact happly
  have hconfigure : blank.configure [("newton_tolerance", 1), ("max_order", 3)] =
      .ok configured := by
    rw [configure, applyAll, htolerance]
    simp only
    rw [applyAll, horder]
    change Except.map _ ({ BdfSettings.standard with maxOrder := 3 } : BdfSettings ℝ).validate = _
    rw [validate_standard_maxOrder (by decide) (by decide)]
    rfl
  obtain ⟨core, hcore⟩ : ∃ core, configured.core.prepare = .ok core := by
    refine ⟨_, Core.prepare_of_same ?_ ?_ (Core.prepare_growth 1 one_ne_zero)⟩ <;> rfl
  have hblank : { blank with core := blank.core.reset } = blank := rfl
  change (blank.prepare _).1 = _
  rw [prepare, hblank, hconfigure]
  simp only [hcore]

/-- A preparation ends alike for all orders of the settings.  The settings change as
they were given, all of them, unless there is something to object to; then none
does. -/
theorem prepare_any_order (hnames : (given.map Prod.fst).Nodup) (hperm : given.Perm others)
    (before : BdfIntegrator α) :
    (((before.prepare given).1 = .ok () ↔ (before.prepare others).1 = .ok ()) ∧
        (before.prepare given).2 = (before.prepare others).2) ∧
      Prepared given before (before.prepare given).1 (before.prepare given).2 ∧
      before.prepareInPlace given = before.prepare given :=
  ⟨prepare_perm hnames hperm before, prepare_prepared hnames before,
    prepareInPlace_eq before given⟩

/-- Two settings in both orders. -/
theorem prepare_any_order_growth :
    let before : BdfIntegrator ℝ := create CompiledSystem.growth.toResidual ⟨1, 0, 1, [1]⟩
    let given : List (String × ℝ) := [("newton_tolerance", 1), ("max_order", 3)]
    let others : List (String × ℝ) := [("max_order", 3), ("newton_tolerance", 1)]
    (given.map Prod.fst).Nodup ∧ given.Perm others ∧
      (before.prepare given).1 = .ok () ∧ (before.prepare others).1 = .ok () ∧
      (before.prepare given).2 = (before.prepare others).2 ∧
      ¬ Objectionable given before ∧ Effective given before (before.prepare given).2 := by
  intro before given others
  have hnames : (given.map Prod.fst).Nodup := by decide
  have hperm : given.Perm others := .swap _ _ _
  have hsuccess : (before.prepare given).1 = .ok () := prepare_growth
  obtain ⟨⟨hsame, hequal⟩, hprepared, -⟩ := prepare_any_order hnames hperm before
  have hnone := (hprepared.success_iff.mp hsuccess).1
  exact ⟨hnames, hperm, hsuccess, hsame.mp hsuccess, hequal, hnone, hprepared.effective hnone⟩

end BdfIntegrator

end ImplicitDynamics
