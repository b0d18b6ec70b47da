import ImplicitDynamics.Integration.Stepper
import ImplicitDynamics.Proofs.CheckedAccesses
import ImplicitDynamics.Proofs.FixedStepRun

/-!
# Working vectors leave no trace

Every step writes over a working vector before it reads it.  What a step leaves
in them, finished or not, therefore has no influence on later steps: as long as
the vectors have the right length and the divisors are allowed, runs that use them
are those of the method.
-/

namespace ImplicitDynamics

variable {α : Type} [Scalar α] {allowed : α → Bool} {n : Nat} {core : Core α} {point : Point α}
  {h t : α} {state slope : List α}

theorem Point.Fits.advanced (hpoint : point.Fits n) (algebraic : List Bool) (t scale : α) :
    (Point.mk t (FixedStep.advance algebraic scale point.state point.derivatives)
      point.derivatives).Fits n :=
  ⟨(FixedStep.length_advance _ _ _ _).trans hpoint.state_length, hpoint.derivatives_length⟩

theorem Point.Fits.weighted (hpoint : point.Fits n) (algebraic : List Bool) (t h : α)
    (k2 k3 k4 : List α) :
    (Point.mk t (FixedStep.weighted algebraic h point.state point.derivatives k2 k3 k4)
      point.derivatives).Fits n :=
  ⟨(FixedStep.length_vector _ _).trans hpoint.state_length, hpoint.derivatives_length⟩

namespace Stepper

/-- All working vectors have `n` entries. -/
def Fits {α : Type} (n : Nat) (stepper : Stepper α) : Prop :=
  ∀ vector ∈ stepper.vectors, vector.length = n

theorem create_fits (method : FixedStepMethod) (n : Nat) :
    (create method n : Stepper α).Fits n := by
  intro vector hvector
  cases method <;> simp_all [create, vectors]

theorem method_create (method : FixedStepMethod) (n : Nat) :
    (create method n : Stepper α).method = method := by
  cases method <;> rfl

theorem rates_eq (hh : allowed h) (previous state : List α) :
    rates allowed h previous state =
      some (state.zipWith (fun value old => (value - old) / h) previous) := by
  rw [← List.map_uncurry_zip_eq_zipWith]
  exact mapM_of_forall fun _ _ => Checked.divide_eq hh _

theorem overwrite_rates {previous kept : List α} (hprevious : previous.length = n)
    (hstate : state.length = n) (hkept : kept.length = n) (h : α) :
    Checked.overwrite (state.zipWith (fun value old => (value - old) / h) previous) kept =
      FixedStep.rates n h previous state := by
  have hlength : (state.zipWith (fun value old => (value - old) / h) previous).length =
      kept.length := by
    rw [List.length_zipWith, hstate, hprevious, hkept, Nat.min_self]
  rw [Checked.overwrite_eq hlength]
  apply List.ext_getElem
  · simp [FixedStep.rates, FixedStep.vector, hstate, hprevious]
  · intro i hi hi'
    have hlt : i < n := by simpa [FixedStep.rates, FixedStep.vector] using hi'
    simp [FixedStep.rates, FixedStep.vector, hstate, hprevious, hlt]

theorem columns_of_state (hdivisors : Checked.Divisors allowed) (hstate : state.length = n)
    {kept : List α} (hkept : kept.length = n) (system : ResidualSystem α) (t w : α)
    (base : List α) (control : Control) :
    let probe : Probe α := ⟨system, t, state, kept⟩
    let increments := state.map fun v => FiniteDifference.increment v 1
    Checked.columns allowed probe base (List.range state.length) (.combined w) increments control =
      some (probe.columns Supervisor.controlled base (List.range state.length) (.combined w)
        increments control) := by
  intro probe increments
  apply Checked.columns_eq (hdivisors.increments state)
  intro j hj
  have hlt := List.mem_range.mp hj
  simp [probe, hkept, hstate ▸ hlt, hlt]

theorem implicitState_eq (hdivisors : Checked.Divisors allowed) (hcore : core.Flagged)
    (hh : allowed h) {previous : List α} (left : Nat) {kept : List α}
    (hprevious : previous.length = core.system.dimension)
    (hstate : state.length = core.system.dimension)
    (hkept : kept.length = core.system.dimension) (t : α) (control : Control) :
    ∃ after : List α, after.length = core.system.dimension ∧
      implicitState allowed core t h previous left state kept control =
        let solved := FixedStep.implicitState core core.system.dimension t h previous left state
          control
        some ⟨solved.1, after, solved.2⟩ := by
  induction left generalizing state kept control with
  | zero =>
      have hslopes := FixedStep.length_rates core.system.dimension h previous state
      refine ⟨_, hslopes, ?_⟩
      rw [implicitState, FixedStep.implicitState]
      simp only [rates_eq hh, overwrite_rates hprevious hstate hkept, Option.bind_eq_bind,
        Option.bind_some, Option.pure_def]
      cases core.system.evaluate t state
        (FixedStep.rates core.system.dimension h previous state) with
      | error cause => rfl
      | ok residual =>
          simp only
          split <;> rfl
  | succ left ih =>
      have hslopes := FixedStep.length_rates core.system.dimension h previous state
      rw [implicitState, FixedStep.implicitState]
      simp only [rates_eq hh, overwrite_rates hprevious hstate hkept, Option.bind_eq_bind,
        Option.bind_some, Option.pure_def]
      cases hresidual : core.system.evaluate t state
        (FixedStep.rates core.system.dimension h previous state) with
      | error cause => exact ⟨_, hslopes, rfl⟩
      | ok residual =>
          have hheight := hcore.system.length_evaluate hresidual
          simp only
          split
          · exact ⟨_, hslopes, rfl⟩
          rcases control.look with ⟨_ | _, looked⟩
          · exact ⟨_, hslopes, rfl⟩
          simp only [Checked.divide_eq hh, columns_of_state hdivisors hstate hslopes,
            Option.bind_some]
          rcases hcolumns : (Probe.mk core.system t state
            (FixedStep.rates core.system.dimension h previous state)).columns
            Supervisor.controlled residual (List.range state.length) (.combined (1 / h))
            (state.map fun v => FiniteDifference.increment v 1) looked with
            ⟨cause | columns, after⟩
          · exact ⟨_, hslopes, rfl⟩
          have hcount : columns.length = residual.length := by
            rw [(Probe.length_of_columns hcore.system hcolumns).1, List.length_range, hstate,
              hheight]
          simp only [Checked.solve_rowsOfColumns hcount, Option.bind_some]
          cases hupdates : Linear.solve (Linear.rowsOfColumns residual.length columns)
              (residual.map (-·)) with
          | none => exact ⟨_, hslopes, rfl⟩
          | some updates =>
              have hlength := Linear.length_of_columns hheight hupdates
              have hmoved : (state.zipWith (· + ·) updates).length = core.system.dimension := by
                rw [List.length_zipWith, hstate, hlength, Nat.min_self]
              exact ih hmoved hslopes _

/-- A step of the method, and vectors that are as good as before. -/
def Follows (core : Core α) (stepper : Stepper α) (stepped : Core.PointRun α)
    (result : Option (Stepped α)) : Prop :=
  ∃ next : Stepper α, next.method = stepper.method ∧ next.Fits core.system.dimension ∧
    result = some ⟨stepped, next⟩

omit [Scalar α] in
theorem follows_of_fits {stepper next : Stepper α} (hnext : next.Fits core.system.dimension)
    (hmethod : next.method = stepper.method) (stepped : Core.PointRun α) :
    Follows core stepper stepped (some ⟨stepped, next⟩) :=
  ⟨next, hmethod, hnext, rfl⟩

theorem stepImplicit_follows (hdivisors : Checked.Divisors allowed) (hcore : core.Flagged)
    (hh : allowed h) (hpoint : point.Fits core.system.dimension) {previous kept : List α}
    (hkept : kept.length = core.system.dimension) (control : Control) :
    Follows core (implicitEuler previous kept)
      (FixedStep.implicitEuler core core.system.dimension h point control)
      (stepImplicit allowed core kept h point control) := by
  have hpredicted : (FixedStep.advance core.algebraic h point.state point.derivatives).length =
      core.system.dimension := (FixedStep.length_advance _ _ _ _).trans hpoint.state_length
  rcases implicitState_eq hdivisors hcore hh core.newton.maxIterations hpoint.state_length
    hpredicted hkept (point.time + h) control with ⟨after, hafter, hsolved⟩
  have hnext : (implicitEuler point.state after).Fits core.system.dimension := by
    intro vector hvector
    simp only [vectors, List.mem_cons, List.not_mem_nil, or_false] at hvector
    rcases hvector with rfl | rfl
    · exact hpoint.state_length
    · exact hafter
  refine ⟨implicitEuler point.state after, rfl, hnext, ?_⟩
  unfold stepImplicit FixedStep.implicitEuler
  simp only [hsolved, rates_eq hh, Option.bind_eq_bind, Option.bind_some, Option.pure_def]
  rcases FixedStep.implicitState core core.system.dimension (point.time + h) h point.state
    core.newton.maxIterations (FixedStep.advance core.algebraic h point.state point.derivatives)
    control with ⟨_ | _, _⟩ <;> rfl

/-- A stage finds what the stage of the method finds, in vectors of the same
length as before. -/
theorem stage_eq (hdivisors : Checked.Divisors allowed) (hcore : core.Flagged)
    (hstate : state.length = core.system.dimension)
    (hslope : slope.length = core.system.dimension) {kept out : List α}
    (hkept : kept.length = core.system.dimension) (hout : out.length = core.system.dimension)
    (t scale : α) (control : Control) :
    ∃ found : NewtonRun α, stage allowed core t scale state slope kept out control = some found ∧
      found.point.Fits core.system.dimension ∧
      FixedStep.stage core core.system.dimension t scale state slope control =
        (found.result.map fun _ => found.point.derivatives, found.control) := by
  let moved := FixedStep.vector core.system.dimension fun i =>
    if core.algebraic.getD i true then state.getD i 0 else state.getD i 0 + scale * slope.getD i 0
  have hentries : (List.range state.length).mapM (fun i => do
      let _ ← kept[i]?
      let value ← state[i]?
      if ← core.algebraic[i]? then return value
      let rate ← slope[i]?
      return value + scale * rate) = some moved := by
    simp only [moved, FixedStep.vector, ← hstate]
    apply mapM_of_forall
    intro i hi
    have hlt : i < core.system.dimension := hstate ▸ List.mem_range.mp hi
    simp only [getElem?_of_length hkept hlt 0, getElem?_of_length hstate hlt 0,
      getElem?_of_length hcore.flags hlt true, getElem?_of_length hslope hlt 0,
      Option.bind_eq_bind, Option.bind_some, Option.pure_def]
    cases core.algebraic.getD i true <;> rfl
  have hmoved : moved.length = core.system.dimension := FixedStep.length_vector _ _
  have haim : (Point.mk t moved slope).Fits core.system.dimension := ⟨hmoved, hslope⟩
  have hcopy := Checked.copy_eq (hout.trans hslope.symm)
  refine ⟨core.resolveDerivatives ⟨t, moved, slope⟩ control, ?_,
    (haim.zeroed core.algebraic).solve _ _ _ _ _, rfl⟩
  unfold stage
  rw [hentries, hcopy]
  simp only [Option.bind_eq_bind, Option.bind_some, Checked.overwrite_eq (hmoved.trans hkept.symm)]
  exact Checked.resolveDerivatives_eq hdivisors hcore haim control

theorem weighted_eq (hdivisors : Checked.Divisors allowed) (hcore : core.Flagged)
    {k1 k2 k3 k4 : List α} (hstate : state.length = core.system.dimension) (hk1 : k1.length = core.system.dimension)
    (hk2 : k2.length = core.system.dimension) (hk3 : k3.length = core.system.dimension)
    (hk4 : k4.length = core.system.dimension) (h : α) :
    weighted allowed core.algebraic h state k1 k2 k3 k4 =
      some (FixedStep.weighted core.algebraic h state k1 k2 k3 k4) := by
  have hsix : allowed (6 : α) := hdivisors.ofNat 5
  apply mapM_of_forall
  intro i hi
  have hlt : i < core.system.dimension := hstate ▸ List.mem_range.mp hi
  simp only [getElem?_of_length hstate hlt 0, getElem?_of_length hcore.flags hlt true,
    getElem?_of_length hk1 hlt 0, getElem?_of_length hk2 hlt 0, getElem?_of_length hk3 hlt 0,
    getElem?_of_length hk4 hlt 0, Checked.divide_eq hsix, Option.bind_eq_bind, Option.bind_some,
    Option.pure_def]
  cases core.algebraic.getD i true <;> rfl

omit [Scalar α] in
theorem fits_rungeKutta4 {k1 k2 k3 k4 kept : List α} (hk1 : k1.length = n) (hk2 : k2.length = n)
    (hk3 : k3.length = n) (hk4 : k4.length = n) (hkept : kept.length = n) :
    (rungeKutta4 k1 k2 k3 k4 kept).Fits n := by
  intro vector hvector
  simp only [vectors, List.mem_cons, List.not_mem_nil, or_false] at hvector
  rcases hvector with rfl | rfl | rfl | rfl | rfl <;> assumption

theorem stepRungeKutta_follows (hdivisors : Checked.Divisors allowed) (hcore : core.Flagged)
    (hpoint : point.Fits core.system.dimension) {k1 k2 k3 k4 kept : List α}
    (hstepper : (rungeKutta4 k1 k2 k3 k4 kept).Fits core.system.dimension) (h : α)
    (control : Control) :
    Follows core (rungeKutta4 k1 k2 k3 k4 kept)
      (FixedStep.rungeKutta4 core core.system.dimension h point control)
      (stepRungeKutta allowed core k1 k2 k3 k4 kept h point control) := by
  have hk1 : k1.length = core.system.dimension := hstepper k1 (by simp [vectors])
  have hk2 : k2.length = core.system.dimension := hstepper k2 (by simp [vectors])
  have hk3 : k3.length = core.system.dimension := hstepper k3 (by simp [vectors])
  have hk4 : k4.length = core.system.dimension := hstepper k4 (by simp [vectors])
  have hkept : kept.length = core.system.dimension := hstepper kept (by simp [vectors])
  have hstate := hpoint.state_length
  have hslope := hpoint.derivatives_length
  have hcopy := Checked.copy_eq (hk1.trans hslope.symm)
  rcases stage_eq hdivisors hcore hstate hslope hkept hk2 (point.time + 0.5 * h) (0.5 * h)
    control with ⟨second, hsecond, hfits2, hpure2⟩
  unfold stepRungeKutta FixedStep.rungeKutta4
  simp only [hcopy, hsecond, hpure2, Option.bind_eq_bind, Option.bind_some, Option.pure_def]
  cases second.result with
  | error cause =>
      have hnext : (rungeKutta4 point.derivatives second.point.derivatives k3 k4
          second.point.state).Fits core.system.dimension :=
        fits_rungeKutta4 hslope hfits2.derivatives_length hk3 hk4 hfits2.state_length
      exact follows_of_fits hnext rfl _
  | ok _ =>
    rcases stage_eq hdivisors hcore hstate hfits2.derivatives_length hfits2.state_length hk3
      (point.time + 0.5 * h) (0.5 * h) second.control with ⟨third, hthird, hfits3, hpure3⟩
    simp only [hthird, hpure3, Except.map, Option.bind_some]
    cases third.result with
    | error cause =>
        have hnext : (rungeKutta4 point.derivatives second.point.derivatives
            third.point.derivatives k4 third.point.state).Fits core.system.dimension :=
          fits_rungeKutta4 hslope hfits2.derivatives_length hfits3.derivatives_length hk4
            hfits3.state_length
        exact follows_of_fits hnext rfl _
    | ok _ =>
      rcases stage_eq hdivisors hcore hstate hfits3.derivatives_length hfits3.state_length hk4
        (point.time + h) h third.control with ⟨fourth, hfourth, hfits4, hpure4⟩
      simp only [hfourth, hpure4, Except.map, Option.bind_some]
      have hnext : (rungeKutta4 point.derivatives second.point.derivatives
          third.point.derivatives fourth.point.derivatives fourth.point.state).Fits
            core.system.dimension :=
        fits_rungeKutta4 hslope hfits2.derivatives_length hfits3.derivatives_length
          hfits4.derivatives_length hfits4.state_length
      cases fourth.result with
      | error cause => exact follows_of_fits hnext rfl _
      | ok _ =>
        have haim := hpoint.weighted core.algebraic (point.time + h) h second.point.derivatives
          third.point.derivatives fourth.point.derivatives
        simp only [weighted_eq hdivisors hcore hstate hslope hfits2.derivatives_length
          hfits3.derivatives_length hfits4.derivatives_length,
          Checked.resolve_eq hdivisors hcore haim, Option.bind_some]
        exact follows_of_fits hnext rfl _

/-! ## Steps and runs -/

/-- The integrator whose method has these working vectors. -/
def blank (core : Core α) (stepper : Stepper α) : FixedStepIntegrator α :=
  ⟨core, stepper.method, core.system.dimension⟩

theorem step_follows (hdivisors : Checked.Divisors allowed) (hcore : core.Flagged)
    (hh : allowed h) {stepper : Stepper α} (hstepper : stepper.Fits core.system.dimension)
    (hpoint : point.Fits core.system.dimension) (control : Control) :
    Follows core stepper (FixedStep.step (stepper.blank core) h point control)
      (step allowed core stepper h point control) := by
  cases stepper with
  | explicitEuler =>
      have hresolve := Checked.resolve_eq hdivisors hcore
        (hpoint.advanced core.algebraic (point.time + h) h) control
      refine ⟨explicitEuler, rfl, hstepper, ?_⟩
      rw [step, hresolve]
      rfl
  | implicitEuler previous kept =>
      have hkept := hstepper kept (by simp [vectors])
      exact stepImplicit_follows hdivisors hcore hh hpoint hkept control
  | rungeKutta4 k1 k2 k3 k4 moved =>
      exact stepRungeKutta_follows hdivisors hcore hpoint hstepper h control

end Stepper

theorem FixedStep.step_fits (integrator : FixedStepIntegrator α)
    (hsystem : integrator.core.system.FillsBuffer)
    (hpoint : point.Fits integrator.core.system.dimension) (h : α) (control : Control) :
    (step integrator h point control).point.Fits integrator.core.system.dimension := by
  have hstate := hpoint.state_length
  unfold step
  cases integrator.method with
  | explicitEuler => exact (hpoint.advanced _ _ _).resolve _ _
  | implicitEuler =>
      have hpredicted : (advance integrator.core.algebraic h point.state
          point.derivatives).length = integrator.core.system.dimension :=
        (length_advance _ _ _ _).trans hstate
      simp only [implicitEuler]
      split
      · exact hpoint
      · next reached _ hreached =>
        have hlength := length_implicitState hsystem hpredicted (congrArg Prod.fst hreached)
        refine ⟨hlength, ?_⟩
        rw [Core.length_zeroWhere, List.length_zipWith, hlength, hstate, Nat.min_self]
  | rungeKutta4 =>
      simp only [rungeKutta4_eq]
      split
      · exact hpoint
      · next k2 k3 k4 after _ =>
        exact (hpoint.weighted _ _ _ _ _ _).resolve _ _

namespace FixedStep

/-- The time at the end of step `k`, or where the interval starts. -/
def timeAfter (config : Config α) (h : α) : Nat → α
  | 0 => config.start
  | k + 1 => gridTime config h (k + 1)

/-- The lengths of all steps over an interval are allowed. -/
def Spaced (allowed : α → Bool) (config : Config α) : Prop :=
  let h := (config.stop - config.start) / Scalar.ofNat config.intervals
  ∀ k, allowed (gridTime config h (k + 1) - timeAfter config h k)

end FixedStep

namespace Stepper

/-- A run of the method, and vectors that are as good as before. -/
def Runs (core : Core α) (stepper : Stepper α) (run : Run α Control)
    (result : Option (Run α Control × Stepper α)) : Prop :=
  ∃ next : Stepper α, next.method = stepper.method ∧ next.Fits core.system.dimension ∧
    result = some (run, next)

/-- What earlier steps have left in the vectors does not matter, whatever they
were. -/
theorem steps_runs (hdivisors : Checked.Divisors allowed) (hcore : core.Flagged)
    (told : ProgressEvent α → Control → Control)
    (hspaced : ∀ k, allowed (FixedStep.gridTime core.config h (k + 1) -
      FixedStep.timeAfter core.config h k))
    {stepper : Stepper α} (hstepper : stepper.Fits core.system.dimension)
    (hpoint : point.Fits core.system.dimension) (left : Nat) {k : Nat}
    (htime : point.time = FixedStep.timeAfter core.config h k) (session : Session α Control) :
    Runs core stepper (FixedStep.steps (stepper.blank core) told h left (k + 1) point session)
      (steps allowed core told h left (k + 1) stepper point session) := by
  induction left generalizing k stepper point session with
  | zero => exact ⟨stepper, rfl, hstepper, rfl⟩
  | succ left ih =>
      have hcoreOf : (stepper.blank core).core = core := rfl
      have hlength := hspaced k
      rw [← htime] at hlength
      rw [steps, FixedStep.steps]
      rcases session.around.look with ⟨_ | _, control⟩
      · exact ⟨stepper, rfl, hstepper, rfl⟩
      simp only [hcoreOf]
      let time := FixedStep.gridTime core.config h (k + 1)
      rcases step_follows hdivisors hcore hlength hstepper hpoint control with
        ⟨next, hmethod, hnext, hstep⟩
      have hblank : next.blank core = stepper.blank core := by rw [blank, blank, hmethod]
      have hmoved := FixedStep.step_fits (stepper.blank core) hcore.system hpoint
        (time - point.time) control
      simp only [hstep, Option.bind_eq_bind, Option.bind_some, Option.pure_def]
      generalize FixedStep.step (stepper.blank core) (time - point.time) point control = stepped
        at hmoved
      cases stepped.result with
      | error cause => exact ⟨next, hmethod, hnext, rfl⟩
      | ok _ =>
          have hplaced : ({ stepped.point with time } : Point α).Fits core.system.dimension :=
            ⟨hmoved.state_length, hmoved.derivatives_length⟩
          rcases ih hnext hplaced (k := k + 1) rfl _ with ⟨last, hlast, hfits, hrun⟩
          rw [hblank] at hrun
          exact ⟨last, hlast.trans hmethod, hfits, hrun⟩

theorem run_runs (hdivisors : Checked.Divisors allowed) (hcore : core.Flagged)
    (hvalidate : core.validate = .ok ()) (hspaced : FixedStep.Spaced allowed core.config)
    (told : ProgressEvent α → Control → Control) {stepper : Stepper α}
    (hstepper : stepper.Fits core.system.dimension) (control : Control) :
    Runs core stepper (FixedStep.run (stepper.blank core) told control)
      (stepper.run allowed core told control) := by
  have hcoreOf : (stepper.blank core).core = core := rfl
  have hstart := Core.start_fits hvalidate
  have hmoved := hstart.resolve core control
  have htime := (core.resolve_spec ⟨core.config.start, core.config.initialState,
    List.replicate core.config.initialState.length 0⟩ control).1
  have hcount := hdivisors.ofNat_of_ne_zero (Core.intervals_ne_zero_of_validate hvalidate)
  have hfirst : Checked.first allowed core control = some (core.resolve _ control) :=
    Checked.resolve_eq hdivisors hcore hstart control
  unfold run FixedStep.run Core.consistentStart
  simp only [hcoreOf]
  cases core.ensureInitialized with
  | error cause => exact ⟨stepper, rfl, hstepper, rfl⟩
  | ok _ =>
      simp only [hfirst, Checked.divide_eq hcount, Option.bind_eq_bind, Option.bind_some,
        Option.pure_def]
      generalize core.resolve ⟨core.config.start, core.config.initialState,
        List.replicate core.config.initialState.length 0⟩ control = first at hmoved htime
      cases first.result with
      | error cause => exact ⟨stepper, rfl, hstepper, rfl⟩
      | ok _ => exact steps_runs hdivisors hcore told hspaced hstepper hmoved _ (k := 0) htime _

theorem run_of_not_initialized (hnot : core.initialized = false) (stepper : Stepper α)
    (told : ProgressEvent α → Control → Control) (control : Control) :
    stepper.run allowed core told control =
      some (FixedStep.run (stepper.blank core) told control, stepper) := by
  have hcoreOf : (stepper.blank core).core = core := rfl
  unfold run FixedStep.run
  simp only [hcoreOf, Core.ensureInitialized_of_not hnot]

end Stepper

end ImplicitDynamics
