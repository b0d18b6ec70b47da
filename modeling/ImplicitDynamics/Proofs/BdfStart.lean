import ImplicitDynamics.Proofs.BdfAttempt
import ImplicitDynamics.Proofs.BdfRun
import ImplicitDynamics.Proofs.NamedSettings

/-!
# The start of a run

Preparation applies settings and flags the algebraic variables.  When it
succeeds, the settings are valid and there is a flag for each variable.

A Newton iteration moves the coordinates that it solves for and no others.  The
point at the start of a run has therefore a state and derivatives for each
variable, and since only derivatives of differential variables are solved for,
those of algebraic variables are zero.
-/

namespace ImplicitDynamics

noncomputable section

variable {α : Type} [Scalar α]

theorem Core.length_initialState {core : Core α} (hvalidate : core.validate = .ok ()) :
    core.config.initialState.length = core.system.dimension := by
  by_contra hne
  unfold Core.validate Core.fault? at hvalidate
  simp only [ne_eq, hne, not_false_eq_true, if_true] at hvalidate
  split at hvalidate
  · cases hvalidate
  · next hnone =>
    split at hnone <;> cases hnone

theorem Core.dimension_ne_zero {core : Core α} (hvalidate : core.validate = .ok ()) :
    core.system.dimension ≠ 0 := by
  intro hzero
  have hlength := length_initialState hvalidate
  rw [hzero] at hlength
  unfold validate fault? at hvalidate
  simp only [hlength, if_true] at hvalidate
  cases hvalidate

theorem Core.intervals_ne_zero_of_validate {core : Core α} (hvalidate : core.validate = .ok ()) :
    core.config.intervals ≠ 0 := by
  intro hzero
  unfold validate fault? at hvalidate
  simp only [hzero, if_true] at hvalidate
  split at hvalidate
  · cases hvalidate
  · next hnone =>
    revert hnone
    repeat' split
    all_goals nofun

theorem Probe.length_algebraicFlags {probe : Probe α} {base : List α} {h : α}
    {scratch : Scratch α} {coordinates : List Nat} {flags : List Bool}
    (hflags : probe.algebraicFlags base h scratch coordinates = .ok flags) :
    flags.length = coordinates.length := by
  induction coordinates generalizing scratch flags with
  | nil =>
      cases hflags
      rfl
  | cons j rest ih =>
      rw [algebraicFlags] at hflags
      split at hflags
      · cases hflags
      · next moved _ =>
        cases hrest : probe.algebraicFlags base h moved rest <;> rw [hrest] at hflags <;>
          cases hflags
        rw [List.length_cons, ih hrest, List.length_cons]

theorem Core.prepare_spec {core next : Core α} (hprepare : core.prepare = .ok next) :
    next.system = core.system ∧ next.validate = .ok () ∧
      next.algebraic.length = core.system.dimension := by
  unfold prepare at hprepare
  split at hprepare
  · cases hprepare
  · next hvalidate =>
    simp only at hprepare
    split at hprepare
    · cases hprepare
    · next flags hclassify =>
      cases hprepare
      refine ⟨rfl, hvalidate, ?_⟩
      unfold Probe.classify at hclassify
      split at hclassify
      · cases hclassify
      · rw [Probe.length_algebraicFlags hclassify, List.length_range]

namespace BdfIntegrator

/-- An integrator that has been prepared, for a system that leaves the length of
its buffer alone. -/
structure Ready (integrator : BdfIntegrator ℝ) : Prop where
  settings : integrator.settings.validate = .ok ()
  config : integrator.core.validate = .ok ()
  flags : integrator.core.algebraic.length = integrator.core.system.dimension
  system : integrator.core.system.FillsBuffer

theorem applyOne_keeps {integrator next : BdfIntegrator α} {key : String} {value : α}
    (happly : integrator.applyOne key value = .ok next) :
    next.core = { integrator.core with newton := next.core.newton } := by
  unfold applyOne at happly
  split at happly
  · cases happly
  · next hnewton =>
    cases happly
    exact Core.applyNewton?_keeps hnewton
  · split at happly
    · cases happly
    · cases happly
      rfl
    · cases happly

theorem applyAll_keeps {given : List (String × α)} {integrator next : BdfIntegrator α}
    (happly : applyAll given integrator = .ok next) :
    next.core = { integrator.core with newton := next.core.newton } := by
  induction given generalizing integrator with
  | nil =>
      cases happly
      rfl
  | cons setting rest ih =>
      rw [applyAll] at happly
      split at happly
      · cases happly
      · next middle hone =>
        have hrest := ih happly
        rw [applyOne_keeps hone] at hrest
        exact hrest

theorem configure_spec {integrator next : BdfIntegrator α} {given : List (String × α)}
    (hconfigure : integrator.configure given = .ok next) :
    next.core = { integrator.core with newton := next.core.newton } ∧
      next.settings.validate = .ok () := by
  unfold configure at hconfigure
  split at hconfigure
  · cases hconfigure
  · next configured hall =>
    cases hvalidate : configured.settings.validate <;> rw [hvalidate] at hconfigure <;>
      cases hconfigure
    exact ⟨applyAll_keeps hall, hvalidate⟩

/-- Preparation that succeeds makes an integrator ready. -/
theorem prepare_ready {blank integrator : BdfIntegrator ℝ} {given : List (String × ℝ)}
    (hsystem : blank.core.system.FillsBuffer)
    (hprepare : blank.prepare given = (.ok (), integrator)) : integrator.Ready := by
  unfold prepare at hprepare
  simp only at hprepare
  split at hprepare
  · cases hprepare
  · next configured hconfigure =>
    obtain ⟨hkept, hsettings⟩ := configure_spec hconfigure
    split at hprepare
    · cases hprepare
    · next core hcore =>
      cases hprepare
      obtain ⟨hsame, hvalidate, hflags⟩ := Core.prepare_spec hcore
      refine ⟨hsettings, hvalidate, ?_, ?_⟩
      · rw [hflags, hsame]
      · rw [hsame, hkept]
        exact hsystem

end BdfIntegrator

/-! ## A consistent point -/

/-- What an update of the coordinates `indices` leaves alone. -/
structure Point.Keeps (indices : List Nat) (before after : Point ℝ) : Prop where
  state_length : after.state.length = before.state.length
  derivatives_length : after.derivatives.length = before.derivatives.length
  derivatives : ∀ {i}, i ∉ indices → after.derivatives.getD i 0 = before.derivatives.getD i 0

variable {indices : List Nat} {before after : Point ℝ}

namespace Unknowns

theorem getD_modify_self (f : ℝ → ℝ) {values : List ℝ} {i : Nat}
    (hi : i < values.length) : (values.modify i f).getD i 0 = f (values.getD i 0) := by
  rw [List.getD_eq_getElem?_getD, List.getD_eq_getElem?_getD, List.getElem?_modify_eq,
    List.getElem?_eq_getElem hi]
  rfl

theorem getD_modify_of_ne (f : ℝ → ℝ) {i j : Nat} (hne : i ≠ j) (values : List ℝ) :
    (values.modify i f).getD j 0 = values.getD j 0 := by
  rw [List.getD_eq_getElem?_getD, List.getD_eq_getElem?_getD, List.getElem?_modify_ne _ _ hne]

theorem getD_addTo_of_not_mem {i : Nat} (hi : i ∉ indices) (updates values : List ℝ) :
    (addTo indices updates values).getD i 0 = values.getD i 0 := by
  rw [List.getD_eq_getElem?_getD, getElem?_addTo_of_not_mem hi, List.getD_eq_getElem?_getD]

theorem Spares.keeps {unknowns : Unknowns} (hspares : unknowns.Spares indices before after) :
    before.Keeps indices after where
  state_length := hspares.lengths.1
  derivatives_length := hspares.lengths.2
  derivatives {i} hi := by
    cases unknowns with
    | state =>
        have hderivatives : after.derivatives = before.derivatives :=
          (Prod.mk.inj hspares.fixed).2
        rw [hderivatives]
    | derivatives =>
        have hentry : after.derivatives[i]? = before.derivatives[i]? := hspares.entries i hi
        rw [List.getD_eq_getElem?_getD, hentry, List.getD_eq_getElem?_getD]

end Unknowns

theorem Newton.solve_keeps (system : ResidualSystem ℝ) (settings : NewtonSettings ℝ)
    (unknowns : Unknowns) (indices : List Nat) (point : Point ℝ) (control : Control) :
    point.Keeps indices (solve system settings unknowns indices point control).point :=
  (solve_spares system settings unknowns indices point control).keeps

namespace Core

variable {core : Core ℝ}

theorem length_zeroWhere (flags : List Bool) (values : List α) :
    (zeroWhere flags values).length = values.length := by
  induction flags generalizing values with
  | nil => rfl
  | cons flag flags ih =>
      cases values with
      | nil => rfl
      | cons value values => rw [zeroWhere, List.length_cons, ih, List.length_cons]

theorem getD_zeroWhere {flags : List Bool} {i : Nat} (hflag : flags.getD i false = true)
    (values : List ℝ) : (zeroWhere flags values).getD i 0 = 0 := by
  induction flags generalizing values i with
  | nil => cases hflag
  | cons flag flags ih =>
      cases values with
      | nil => exact List.getD_nil
      | cons value values =>
          cases i with
          | zero =>
              rw [List.getD_cons_zero] at hflag
              rw [zeroWhere, List.getD_cons_zero, if_pos hflag, Exact.zero_eq]
          | succ i =>
              rw [List.getD_cons_succ] at hflag
              rw [zeroWhere, List.getD_cons_succ, ih hflag]

theorem not_mem_differentialIndices {i : Nat} (hflag : core.algebraic.getD i false = true) :
    i ∉ core.differentialIndices := by
  intro hmem
  simp only [differentialIndices, indicesWhere, List.mem_filterMap] at hmem
  obtain ⟨⟨flag, j⟩, hj, hsome⟩ := hmem
  split at hsome
  · next hfalse =>
    cases hsome
    have hget := List.mem_zipIdx_iff_getElem?.mp hj
    rw [List.getD_eq_getElem?_getD, hget, Option.getD_some, hfalse] at hflag
    cases hflag
  · cases hsome

/-- A point with an entry for each of `n` variables at which nothing algebraic
has a derivative. -/
structure Settled (core : Core ℝ) (n : Nat) (point : Point ℝ) : Prop where
  state_length : point.state.length = n
  derivatives_length : point.derivatives.length = n
  algebraic : ∀ {i}, core.algebraic.getD i false = true → point.derivatives.getD i 0 = 0

theorem resolve_settled {point : Point ℝ} {control : Control}
    (hresult : (core.resolve point control).result = .ok ())
    (hlength : point.derivatives.length = point.state.length) :
    core.Settled point.state.length (core.resolve point control).point := by
  have hfirst : point.Keeps core.algebraicIndices (core.resolveAlgebraic point control).point :=
    Newton.solve_keeps _ _ _ _ _ _
  have hsecond := Newton.solve_keeps core.system core.newton .derivatives core.differentialIndices
    { (core.resolveAlgebraic point control).point with
      derivatives := zeroWhere core.algebraic
        (core.resolveAlgebraic point control).point.derivatives }
    (core.resolveAlgebraic point control).control
  unfold resolve at hresult ⊢
  simp only at hresult ⊢
  split at hresult
  · cases hresult
  · split at hresult
    · cases hresult
    · refine ⟨hsecond.state_length.trans hfirst.state_length, ?_, ?_⟩
      · apply hsecond.derivatives_length.trans
        exact (length_zeroWhere _ _).trans (hfirst.derivatives_length.trans hlength)
      · intro i hflag
        exact (hsecond.derivatives (not_mem_differentialIndices hflag)).trans
          (getD_zeroWhere hflag _)

/-- One differential variable is consistent as it stands if the residual vanishes
there. -/
theorem resolve_of_vanishing {t y slope : ℝ} (hflags : core.algebraic = [false])
    (hnewton : core.newton = .standard) (hevaluate : core.system.evaluate t [y] [slope] = .ok [0])
    (control : Control) : core.resolve ⟨t, [y], [slope]⟩ control =
      ⟨.ok (), ⟨t, [y], [slope]⟩, control⟩ := by
  let point : Point ℝ := ⟨t, [y], [slope]⟩
  have hnorm : Linear.l2Norm (Newton.select [0] ([0] : List ℝ)) <
      (NewtonSettings.standard : NewtonSettings ℝ).tolerance := by
    change Linear.l2Norm ([0] : List ℝ) < _
    rw [Linear.l2Norm_single, NewtonSettings.standard, Exact.scientific_eq]
    norm_num
  have halgebraic : core.algebraicIndices = [] := by
    rw [algebraicIndices, indicesWhere, hflags]
    rfl
  have hdifferential : core.differentialIndices = [0] := by
    rw [differentialIndices, indicesWhere, hflags]
    rfl
  obtain ⟨_, hfirst⟩ : ∃ outcome,
      core.resolveAlgebraic point control = ⟨.ok outcome, point, control⟩ := by
    rw [resolveAlgebraic, halgebraic]
    exact ⟨_, rfl⟩
  obtain ⟨_, hsecond⟩ : ∃ outcome,
      core.resolveDerivatives point control = ⟨.ok outcome, point, control⟩ := by
    refine ⟨⟨true, 0, Linear.l2Norm (Newton.select [0] [0]), false⟩, ?_⟩
    rw [resolveDerivatives, hdifferential, hflags, hnewton]
    change Newton.iterate core.system (NewtonSettings.standard : NewtonSettings ℝ).tolerance
      .derivatives [0] (9 + 1) 0 point control = _
    rw [Newton.iterate]
    simp only [point, hevaluate]
    rw [if_pos hnorm]
  unfold resolve
  rw [hfirst]
  simp only [hsecond]
  rfl

end Core

namespace BdfIntegrator

theorem first_settled {integrator : BdfIntegrator ℝ} {control : Control}
    (hresult : (integrator.first control).result = .ok ()) :
    integrator.core.Settled integrator.core.config.initialState.length
      (integrator.first control).point :=
  Core.resolve_settled hresult List.length_replicate

/-- An integrator for the system at rest. -/
def atRest : BdfIntegrator ℝ :=
  ⟨{ Bdf.AtRest.core with initialized := true }, BdfSettings.standard⟩

theorem atRest_ready : atRest.Ready where
  settings := BdfSettings.validate_of_valid BdfSettings.standard_valid
  config := validate_of_lt Nat.one_ne_zero rfl one_pos (by decide)
  flags := rfl
  system := ResidualSystem.affine_fillsBuffer rfl rfl

/-- A variable at rest is consistent at any time, which takes no look at the
control. -/
theorem atRest_resolve (t : ℝ) (control : Control) :
    atRest.core.resolve ⟨t, [1], [0]⟩ control = ⟨.ok (), ⟨t, [1], [0]⟩, control⟩ :=
  Core.resolve_of_vanishing rfl rfl (Bdf.AtRest.evaluate_core t 1 0) control

theorem atRest_first (control : Control) :
    atRest.first control = ⟨.ok (), ⟨0, [1], [0]⟩, control⟩ := by
  rw [← atRest_resolve]
  unfold first Core.consistentStart
  rw [Exact.zero_eq]
  rfl

end BdfIntegrator

end

end ImplicitDynamics
