import ImplicitDynamics.Proofs.Cancellation
import ImplicitDynamics.Proofs.ConsistentPoints
import ImplicitDynamics.Proofs.FailedPreparation

/-!
# Runs of fixed step

A run takes the steps of its grid one after the other until it has taken all of
them, or until a look or a step ends it.  What holds at its first point and
survives a step therefore holds wherever it ends, for the number of points that
it has logged by then.

In exact arithmetic the grid divides the interval into equal parts.  A step of
any method leaves an entry for each variable, and no derivative for an algebraic
one.
-/

namespace ImplicitDynamics

/-- The length of a step of the grid. -/
def Config.stepLength {α : Type} [Scalar α] (config : Config α) : α :=
  (config.stop - config.start) / Scalar.ofNat config.intervals

namespace FixedStep

section Invariants

variable {α : Type} [Scalar α] {told : ProgressEvent α → Control → Control}
  {integrator : FixedStepIntegrator α} {h : α} {left k : Nat} {point : Point α}
  {session : Session α Control}

/-- What survives the finished steps of a run.  Of a session it looks only at
what is logged and told. -/
structure Preserved (integrator : FixedStepIntegrator α)
    (told : ProgressEvent α → Control → Control) (h : α)
    (Inv : Nat → Point α → Session α Control → Prop) : Prop where
  around : ∀ {k point session} control, Inv k point session →
    Inv k point { session with around := control }
  step : ∀ {k point session} control, Inv k point session →
    (stepTo integrator h k point control).result = .ok () →
    Inv (k + 1) (onGrid integrator h k (stepTo integrator h k point control).point)
      (logStep integrator told point
        (onGrid integrator h k (stepTo integrator h k point control).point) session)

/-- Where a run ends whose next step would have been step `reached`: all steps
are taken, or a look or a step has ended it. -/
structure Ends (integrator : FixedStepIntegrator α) (h : α) (final reached : Nat)
    (last : Point α) (run : Run α Control) : Prop where
  le : reached ≤ final
  completed : run.outcome = .ok .completed ↔ reached = final
  failed : ∀ cause, run.outcome = .error cause → cause ≠ .cancelled ∧
    ∃ control, (stepTo integrator h reached last control).result = .error cause

variable {Inv : Nat → Point α → Session α Control → Prop}

theorem Preserved.steps (hpreserved : Preserved integrator told h Inv)
    (hinv : Inv k point session) :
    ∃ reached last, Inv reached last (steps integrator told h left k point session).session ∧
      Ends integrator h (k + left) reached last
        (steps integrator told h left k point session) := by
  induction left generalizing k point session with
  | zero =>
      refine ⟨k, point, hinv, Nat.le_refl k, ?_, ?_⟩
      · rw [FixedStep.steps]
        exact ⟨fun _ => rfl, fun _ => rfl⟩
      · intro cause hcause
        rw [FixedStep.steps] at hcause
        cases hcause
  | succ left ih =>
      have hle : k ≤ k + (left + 1) := Nat.le_add_right _ _
      have hshort : k ≠ k + (left + 1) := by omega
      rcases hlook : session.around.look with ⟨_ | _, control⟩
      · rw [steps_of_stopped hlook]
        refine ⟨k, point, hpreserved.around control hinv, hle, ?_, ?_⟩
        · constructor
          · intro hcompleted
            cases hcompleted
          · intro heq
            exact absurd heq hshort
        · intro cause hcause
          cases hcause
      · cases hresult : (stepTo integrator h k point control).result with
        | error cause =>
            rw [steps_of_failed hlook hresult]
            refine ⟨k, point, ?_, hle, ?_, ?_⟩
            · rw [Run.session_interrupt]
              exact hpreserved.around _ hinv
            · constructor
              · intro hcompleted
                cases cause <;> cases hcompleted
              · intro heq
                exact absurd heq hshort
            · intro other hother
              have hcause : cause ≠ .cancelled := by
                intro hcancelled
                rw [hcancelled] at hother
                cases hother
              rw [Run.interrupt_of_ne hcause] at hother
              cases hother
              exact ⟨hcause, control, hresult⟩
        | ok _ =>
            have hnext := hpreserved.step control (hpreserved.around
              (stepTo integrator h k point control).control hinv) hresult
            have hcount : k + (left + 1) = k + 1 + left := by omega
            rw [steps_of_finished hlook hresult, hcount]
            exact ih hnext

/-- A run from the start comes at least to its first point, unless that point
cannot be made consistent. -/
theorem Preserved.run {control : Control} {first : Core.PointRun α}
    (hpreserved : Preserved integrator told integrator.core.config.stepLength Inv)
    (hinitialized : integrator.core.initialized = true)
    (hfirst : (Integrator.fixedStep integrator).first control = first)
    (hinv : first.result = .ok () →
      Inv 1 first.point ((Session.start first.control).log first.point)) :
    (∃ cause, first.result = .error cause ∧
        FixedStep.run integrator told control =
          Run.interrupt cause (Session.start first.control)) ∨
      ∃ reached last, Inv reached last (FixedStep.run integrator told control).session ∧
        Ends integrator integrator.core.config.stepLength (1 + integrator.core.config.intervals)
          reached last (FixedStep.run integrator told control) := by
  have hrun : FixedStep.run integrator told control =
      (Integrator.fixedStep integrator).run told control := rfl
  have hready : (Integrator.fixedStep integrator).core.ensureInitialized = .ok () :=
    if_pos hinitialized
  rw [hrun, Integrator.run_eq, hready, hfirst]
  simp only
  cases hresult : first.result with
  | error cause => exact .inl ⟨cause, rfl, rfl⟩
  | ok _ => exact .inr (hpreserved.steps (hinv hresult))

end Invariants

end FixedStep

section Preparation

variable {α : Type} [Scalar α]

theorem FixedStepIntegrator.applyAll_keeps (kind : IntegratorKind)
    {settings : List (String × α)} {core next : Core α} {result : Except (SolverError α) Unit}
    (happlied : applyAll kind settings core = (result, next)) :
    next = { core with newton := next.newton } := by
  induction settings generalizing core with
  | nil =>
      cases happlied
      rfl
  | cons setting rest ih =>
      rw [applyAll] at happlied
      split at happlied
      · cases happlied
        rfl
      · cases happlied
        rfl
      · next middle hone =>
        have hrest := ih happlied
        rw [Core.applyNewton?_keeps hone] at hrest
        exact hrest

end Preparation

noncomputable section

/-- An integrator that has been prepared, for a system that leaves the length of
its buffer alone. -/
structure FixedStepIntegrator.Ready (integrator : FixedStepIntegrator ℝ) : Prop where
  initialized : integrator.core.initialized = true
  config : integrator.core.validate = .ok ()
  flags : integrator.core.algebraic.length = integrator.core.system.dimension
  workspace : integrator.workspace = integrator.core.system.dimension
  system : integrator.core.system.FillsBuffer

theorem Core.initialized_of_prepare {α : Type} [Scalar α] {core next : Core α}
    (hprepare : core.prepare = .ok next) : next.initialized = true := by
  unfold prepare at hprepare
  split at hprepare
  · cases hprepare
  · simp only at hprepare
    split at hprepare <;> cases hprepare
    rfl

theorem FixedStepIntegrator.prepare_ready {blank integrator : FixedStepIntegrator ℝ}
    {settings : List (String × ℝ)} (hsystem : blank.core.system.FillsBuffer)
    (hprepare : blank.prepare settings = (.ok (), integrator)) : integrator.Ready := by
  unfold prepare at hprepare
  rcases happlied : applyAll blank.method.kind settings blank.core with ⟨_ | _, applied⟩
  · rw [happlied] at hprepare
    cases hprepare
  · rw [happlied] at hprepare
    simp only at hprepare
    split at hprepare
    · cases hprepare
    · next core hcore =>
      cases hprepare
      obtain ⟨hsame, hvalidate, hflags⟩ := Core.prepare_spec hcore
      refine ⟨Core.initialized_of_prepare hcore, hvalidate, ?_, rfl, ?_⟩
      · rw [hflags, hsame]
      · rw [hsame, applyAll_keeps _ happlied]
        exact hsystem

/-! ## The grid -/

/-- The times that divide the interval into equal parts. -/
def Config.division (config : Config ℝ) (k : Nat) : ℝ :=
  config.start + k * (config.stop - config.start) / config.intervals

theorem Config.division_zero (config : Config ℝ) : config.division 0 = config.start := by
  rw [division, Nat.cast_zero, zero_mul, zero_div, add_zero]

theorem Config.division_strictMono {config : Config ℝ} (hinterval : config.start < config.stop)
    (hintervals : config.intervals ≠ 0) : StrictMono config.division := by
  intro j k hjk
  have hpos : (0 : ℝ) < config.intervals := Nat.cast_pos.mpr (Nat.pos_of_ne_zero hintervals)
  have hcast : (j : ℝ) < k := Nat.cast_lt.mpr hjk
  have hspan : 0 < config.stop - config.start := sub_pos.mpr hinterval
  unfold division
  gcongr

theorem Config.division_intervals {config : Config ℝ} (hintervals : config.intervals ≠ 0) :
    config.division config.intervals = config.stop := by
  have hne : (config.intervals : ℝ) ≠ 0 := Nat.cast_ne_zero.mpr hintervals
  rw [division, mul_div_assoc, mul_div_cancel₀ _ hne]
  ring

namespace FixedStep

theorem gridTime_eq {config : Config ℝ} (hintervals : config.intervals ≠ 0) (k : Nat) :
    gridTime config config.stepLength k = config.division k := by
  unfold gridTime Config.stepLength
  by_cases hlast : k = config.intervals
  · rw [if_pos hlast, hlast, Config.division_intervals hintervals]
  · rw [if_neg hlast, Config.division, Exact.ofNat_eq, Exact.ofNat_eq, mul_div_assoc]

theorem onGrid_of_time {integrator : FixedStepIntegrator ℝ} {h : ℝ} {k : Nat} {point : Point ℝ}
    (htime : point.time = gridTime integrator.core.config h k) :
    onGrid integrator h k point = point := by
  rw [onGrid, ← htime]

variable {integrator : FixedStepIntegrator ℝ} {core : Core ℝ} {n : Nat} {h : ℝ} {point : Point ℝ}
  {control : Control}

theorem length_advance {α : Type} [Scalar α] (algebraic : List Bool) (scale : α)
    (values rates : List α) :
    (advance algebraic scale values rates).length = values.length := by
  induction values generalizing algebraic rates with
  | nil => rfl
  | cons value values ih =>
      cases rates with
      | nil => rfl
      | cons rate rates => rw [advance, List.length_cons, ih, List.length_cons]

theorem length_vector {α : Type} (size : Nat) (entry : Nat → α) :
    (vector size entry).length = size := by
  rw [vector, List.length_map, List.length_range]

theorem length_rates {α : Type} [Scalar α] (size : Nat) (h : α) (previous state : List α) :
    (rates size h previous state).length = size :=
  length_vector size _

theorem length_implicitState {α : Type} [Scalar α] {core : Core α} {control : Control}
    (hsystem : core.system.FillsBuffer) {size left : Nat} {t h : α}
    {previous state reached : List α} (hstate : state.length = core.system.dimension)
    (hreached : (implicitState core size t h previous left state control).1 = .ok reached) :
    reached.length = core.system.dimension := by
  induction left generalizing state control with
  | zero =>
      rw [implicitState] at hreached
      simp only at hreached
      split at hreached
      · cases hreached
      · split at hreached <;> cases hreached <;> exact hstate
  | succ left ih =>
      rw [implicitState] at hreached
      simp only at hreached
      split at hreached
      · cases hreached
      · next residual hresidual =>
        split at hreached
        · cases hreached
          exact hstate
        · split at hreached
          · cases hreached
          · split at hreached
            · cases hreached
            · split at hreached
              · cases hreached
                exact hstate
              · next updates hupdates =>
                apply ih _ hreached
                have hlength : updates.length = core.system.dimension := by
                  rw [Linear.length_solve hupdates, Linear.rowsOfColumns, List.length_map,
                    List.length_range, hsystem.length_evaluate hresidual]
                rw [List.length_zipWith, hstate, hlength, Nat.min_self]

theorem implicitEuler_settled (hsystem : core.system.FillsBuffer) {size : Nat}
    (hpoint : point.state.length = core.system.dimension)
    (hresult : (implicitEuler core size h point control).result = .ok ()) :
    core.Settled core.system.dimension (implicitEuler core size h point control).point := by
  unfold implicitEuler at hresult ⊢
  simp only at hresult ⊢
  split
  · next hfailed =>
    rw [hfailed] at hresult
    cases hresult
  · next state _ hstate =>
    have hlength : state.length = core.system.dimension :=
      length_implicitState hsystem ((length_advance _ _ _ _).trans hpoint)
        (congrArg Prod.fst hstate)
    refine ⟨hlength, ?_, fun hflag => Core.getD_zeroWhere hflag _⟩
    rw [Core.length_zeroWhere, List.length_zipWith, hlength, hpoint, Nat.min_self]

theorem Aims.settled {aim : Point ℝ} {after : Control} {n : Nat}
    (haims : Aims integrator h point control aim after)
    (hpoint : integrator.core.Settled n point)
    (hresult : (step integrator h point control).result = .ok ()) :
    integrator.core.Settled n (step integrator h point control).point := by
  have hstate : aim.state.length = n := by
    cases haims with
    | explicitEuler => exact (length_advance _ _ _ _).trans hpoint.state_length
    | rungeKutta4 =>
        rw [weighted, vector, List.length_map, List.length_range]
        exact hpoint.state_length
  have hderivatives : aim.derivatives = point.derivatives := by cases haims <;> rfl
  rw [haims.step_eq] at hresult ⊢
  rw [← hstate]
  apply Core.resolve_settled hresult
  rw [hderivatives, hpoint.derivatives_length, hstate]

/-- A finished step of any method leaves a point with an entry for each variable
and no derivative for an algebraic one. -/
theorem step_settled (hready : integrator.Ready)
    (hpoint : integrator.core.Settled integrator.core.system.dimension point)
    (hresult : (step integrator h point control).result = .ok ()) :
    integrator.core.Settled integrator.core.system.dimension
      (step integrator h point control).point := by
  by_cases hmethod : integrator.method = .implicitEuler
  · have hstep : step integrator h point control =
        implicitEuler integrator.core integrator.workspace h point control := by
      unfold step
      simp only [hmethod]
    rw [hstep] at hresult ⊢
    exact implicitEuler_settled hready.system hpoint.state_length hresult
  · rcases step_cases hmethod h point control with
      ⟨aim, after, haims⟩ | ⟨-, cause, after, -, hfailed⟩
    · exact haims.settled hpoint hresult
    · rw [hfailed] at hresult
      cases hresult

end FixedStep

/-! ## A whole run -/

namespace FixedStepIntegrator

variable {integrator : FixedStepIntegrator ℝ} {k : Nat} {point : Point ℝ}
  {session : Session ℝ Control} {told : ProgressEvent ℝ → Control → Control}

/-- The first `k` points of the grid have been logged, and all but the first of
them told. -/
structure Logged (integrator : FixedStepIntegrator ℝ) (k : Nat) (point : Point ℝ)
    (session : Session ℝ Control) : Prop where
  times : session.times = (List.range k).map integrator.core.config.division
  settled : ∀ logged ∈ session.points,
    integrator.core.Settled integrator.core.system.dimension logged
  last : integrator.core.Settled integrator.core.system.dimension point
  pos : 0 < k
  told : session.eventTimes =
    if integrator.core.listening then session.times.tail else []

theorem times_logStep {α : Type} [Scalar α] {integrator : FixedStepIntegrator α}
    {told : ProgressEvent α → Control → Control} (point next : Point α)
    (session : Session α Control) :
    (FixedStep.logStep integrator told point next session).times =
      session.times ++ [next.time] := by
  rw [FixedStep.logStep, Session.times_tell, Session.times_log]

theorem eventTimes_logStep {α : Type} [Scalar α] {integrator : FixedStepIntegrator α}
    {told : ProgressEvent α → Control → Control} (point next : Point α)
    (session : Session α Control) :
    (FixedStep.logStep integrator told point next session).eventTimes =
      if integrator.core.listening then session.eventTimes ++ [next.time]
      else session.eventTimes := by
  unfold FixedStep.logStep Core.event?
  by_cases hlistening : integrator.core.listening = true
  · rw [if_pos hlistening, if_pos hlistening, Session.eventTimes_tell]
    rfl
  · rw [if_neg hlistening, if_neg hlistening]
    rfl

theorem logged_first (hready : integrator.Ready) {control : Control}
    (hresult : ((Integrator.fixedStep integrator).first control).result = .ok ())
    (around : Control) :
    integrator.Logged 1 ((Integrator.fixedStep integrator).first control).point
      ((Session.start around).log ((Integrator.fixedStep integrator).first control).point) := by
  have hlength := Core.length_initialState hready.config
  have hsettled : integrator.core.Settled integrator.core.system.dimension
      ((Integrator.fixedStep integrator).first control).point := by
    rw [← hlength]
    exact Core.resolve_settled hresult List.length_replicate
  have htime : ((Integrator.fixedStep integrator).first control).point.time =
      integrator.core.config.division 0 := by
    rw [Config.division_zero]
    exact (integrator.core.resolve_spec _ control).1
  refine ⟨?_, ?_, hsettled, Nat.one_pos, ?_⟩
  · rw [Session.times_log, htime]
    rfl
  · intro logged hlogged
    rcases Array.mem_push.mp hlogged with hnone | heq
    · exact absurd hnone (Array.not_mem_empty logged)
    · rw [heq]
      exact hsettled
  · rw [Session.times_log]
    split <;> rfl

theorem logged_preserved (hready : integrator.Ready) :
    FixedStep.Preserved integrator told integrator.core.config.stepLength integrator.Logged where
  around := by
    intro k point session control hlogged
    exact ⟨hlogged.times, hlogged.settled, hlogged.last, hlogged.pos, hlogged.told⟩
  step := by
    intro k point session control hlogged hresult
    have hintervals := Core.intervals_ne_zero_of_validate hready.config
    have hstepped := FixedStep.step_settled hready hlogged.last hresult
    have hnext : integrator.core.Settled integrator.core.system.dimension
        (FixedStep.onGrid integrator integrator.core.config.stepLength k
          (FixedStep.stepTo integrator integrator.core.config.stepLength k point control).point) :=
      ⟨hstepped.state_length, hstepped.derivatives_length, hstepped.algebraic⟩
    have hnonempty : session.times ≠ [] := by
      intro hempty
      have hcount := congrArg List.length hlogged.times
      rw [hempty, List.length_map, List.length_range] at hcount
      exact absurd hcount (Nat.ne_of_lt hlogged.pos)
    refine ⟨?_, ?_, hnext, Nat.succ_pos k, ?_⟩
    · rw [times_logStep, hlogged.times, List.range_succ, List.map_append]
      simp only [FixedStep.onGrid, FixedStep.gridTime_eq hintervals, List.map_cons, List.map_nil]
    · intro logged hmem
      rw [FixedStep.points_logStep] at hmem
      rcases Array.mem_push.mp hmem with hold | heq
      · exact hlogged.settled logged hold
      · rw [heq]
        exact hnext
    · rw [times_logStep, eventTimes_logStep, hlogged.told]
      split
      · rw [List.tail_append_of_ne_nil hnonempty]
      · rfl

/-- The points of a run are the first of a grid that divides the interval into
equal parts, each with an entry for each variable and no derivative for an
algebraic one.  A listener hears of each point after the first, in order. -/
structure KeepsToGrid (integrator : FixedStepIntegrator ℝ) (run : Run ℝ Control) : Prop where
  times : run.session.times =
    (List.range run.session.points.size).map integrator.core.config.division
  increasing : run.session.times.Pairwise (· < ·)
  settled : ∀ point ∈ run.session.points,
    integrator.core.Settled integrator.core.system.dimension point
  told : run.session.eventTimes =
    if integrator.core.listening then run.session.times.tail else []
  size_le : run.session.points.size ≤ integrator.core.config.intervals + 1
  completed : run.outcome = .ok .completed →
    run.session.points.size = integrator.core.config.intervals + 1 ∧
      run.session.times.getLast? = some integrator.core.config.stop
  cancelled : run.outcome = .ok .cancelled →
    run.session.points.size ≤ integrator.core.config.intervals

theorem keepsToGrid_of_logged (hready : integrator.Ready) {h : ℝ} {reached : Nat} {last : Point ℝ}
    {run : Run ℝ Control} (hlogged : integrator.Logged reached last run.session)
    (hends : FixedStep.Ends integrator h (1 + integrator.core.config.intervals) reached last run) :
    integrator.KeepsToGrid run := by
  have hintervals := Core.intervals_ne_zero_of_validate hready.config
  have hsize : run.session.points.size = reached := by
    have hcount := congrArg List.length hlogged.times
    rwa [Session.times, List.length_map, Array.length_toList, List.length_map,
      List.length_range] at hcount
  refine ⟨?_, ?_, hlogged.settled, hlogged.told, ?_, ?_, ?_⟩
  · rw [hsize]
    exact hlogged.times
  · rw [hlogged.times, List.pairwise_map]
    exact List.pairwise_lt_range.imp fun hjk =>
      Config.division_strictMono (BdfIntegrator.start_lt_stop_of_validate hready.config)
        hintervals hjk
  · have hle := hends.le
    omega
  · intro hcompleted
    have hall := hends.completed.mp hcompleted
    refine ⟨by omega, ?_⟩
    rw [hlogged.times, hall, Nat.add_comm, List.range_succ, List.map_append, List.map_cons,
      List.map_nil, List.getLast?_concat, Config.division_intervals hintervals]
  · intro hcancelled
    have hle := hends.le
    have hnot : reached ≠ 1 + integrator.core.config.intervals := by
      intro hall
      rw [hends.completed.mpr hall] at hcancelled
      cases hcancelled
    omega

theorem keepsToGrid_of_nothing {cause : SolverError ℝ} (control : Control) :
    integrator.KeepsToGrid (Run.interrupt cause (Session.start control)) := by
  have hsession := Run.session_interrupt cause (Session.start control : Session ℝ Control)
  refine ⟨?_, ?_, ?_, ?_, ?_, ?_, ?_⟩
  · rw [hsession]
    rfl
  · rw [hsession]
    exact .nil
  · rw [hsession]
    intro point hpoint
    exact absurd hpoint (Array.not_mem_empty point)
  · rw [hsession]
    split <;> rfl
  · rw [hsession]
    exact Nat.zero_le _
  · intro hcompleted
    cases cause <;> cases hcompleted
  · rw [hsession]
    intro _
    exact Nat.zero_le _

/-- A prepared integrator of fixed step keeps to its grid, whatever its method
and wherever its run ends. -/
theorem run_keepsToGrid {blank integrator : FixedStepIntegrator ℝ} {settings : List (String × ℝ)}
    (hsystem : blank.core.system.FillsBuffer)
    (hprepare : blank.prepare settings = (.ok (), integrator))
    (told : ProgressEvent ℝ → Control → Control) (control : Control) :
    integrator.KeepsToGrid (FixedStep.run integrator told control) := by
  have hready := prepare_ready hsystem hprepare
  have hpreserved : FixedStep.Preserved integrator told integrator.core.config.stepLength
      integrator.Logged := logged_preserved hready
  rcases hpreserved.run hready.initialized rfl fun hresult => logged_first hready hresult _ with
    ⟨cause, -, hrun⟩ | ⟨reached, last, hlogged, hends⟩
  · rw [hrun]
    exact keepsToGrid_of_nothing _
  · exact keepsToGrid_of_logged hready hlogged hends

theorem division_succ (config : Config ℝ) (k : Nat) :
    config.division (k + 1) = config.division k + config.stepLength := by
  simp only [Config.division, Config.stepLength, Exact.ofNat_eq]
  push_cast
  ring

/-- All points of a session are good and each follows the one before; the last
one is the point that is number `k` on the grid, counted from one. -/
structure Linked (integrator : FixedStepIntegrator ℝ) (Good : Point ℝ → Prop)
    (Next : Point ℝ → Point ℝ → Prop) (k : Nat) (point : Point ℝ)
    (session : Session ℝ Control) : Prop where
  good : ∀ logged ∈ session.points, Good logged
  follows : session.points.toList.IsChain Next
  last : session.points.toList.getLast? = some point
  time : point.time + integrator.core.config.stepLength = integrator.core.config.division k

variable {Good : Point ℝ → Prop} {Next : Point ℝ → Point ℝ → Prop}

theorem linked_first {first : Point ℝ} (hgood : Good first)
    (htime : first.time = integrator.core.config.start) (around : Control) :
    integrator.Linked Good Next 1 first ((Session.start around).log first) := by
  refine ⟨?_, List.isChain_singleton _, rfl, ?_⟩
  · intro logged hlogged
    rcases Array.mem_push.mp hlogged with hnone | heq
    · exact absurd hnone (Array.not_mem_empty logged)
    · rw [heq]
      exact hgood
  · rw [htime, division_succ, Config.division_zero]

/-- Steps that lead from good points to good points, one step of the grid later,
keep the points of a session linked. -/
theorem linked_preserved (hready : integrator.Ready)
    (hstep : ∀ {point control}, Good point →
      (FixedStep.step integrator integrator.core.config.stepLength point control).result =
        .ok () →
      let next := (FixedStep.step integrator integrator.core.config.stepLength point control).point
      Good next ∧ next.time = point.time + integrator.core.config.stepLength ∧ Next point next) :
    FixedStep.Preserved integrator told integrator.core.config.stepLength
      (integrator.Linked Good Next) where
  around := by
    intro k point session control hlinked
    exact ⟨hlinked.good, hlinked.follows, hlinked.last, hlinked.time⟩
  step := by
    intro k point session control hlinked hresult
    have hgrid := FixedStep.gridTime_eq (Core.intervals_ne_zero_of_validate hready.config) k
    have hlength : FixedStep.stepTo integrator integrator.core.config.stepLength k point control =
        FixedStep.step integrator integrator.core.config.stepLength point control := by
      rw [FixedStep.stepTo, hgrid, ← hlinked.time, add_sub_cancel_left]
    have hmem : point ∈ session.points :=
      Array.mem_toList_iff.mp (List.mem_of_getLast? hlinked.last)
    rw [hlength] at hresult ⊢
    rcases hstep (hlinked.good point hmem) hresult with ⟨hgood, htime, hnext⟩
    rw [FixedStep.onGrid_of_time (htime.trans (hlinked.time.trans hgrid.symm))]
    refine ⟨?_, ?_, ?_, ?_⟩
    · intro logged hlogged
      rw [FixedStep.points_logStep] at hlogged
      rcases Array.mem_push.mp hlogged with hold | heq
      · exact hlinked.good logged hold
      · rw [heq]
        exact hgood
    · rw [FixedStep.points_logStep, Array.toList_push]
      apply List.isChain_append.mpr
      refine ⟨hlinked.follows, List.isChain_singleton _, ?_⟩
      intro earlier hearlier later hlater
      rw [hlinked.last] at hearlier
      cases hearlier
      cases hlater
      exact hnext
    · rw [FixedStep.points_logStep, Array.toList_push, List.getLast?_concat]
    · rw [htime, hlinked.time, division_succ]

end FixedStepIntegrator

theorem Core.prepare_growth (intervals : Nat) (hintervals : intervals ≠ 0) :
    let blank := create CompiledSystem.growth.toResidual ⟨intervals, 0, 1, [1]⟩
    blank.prepare = .ok { blank with algebraic := [false], initialized := true } := by
  intro blank
  have hvalidate : blank.validate = .ok () :=
    BdfIntegrator.validate_of_lt Nat.one_ne_zero rfl one_pos hintervals
  have hbase : CompiledSystem.growth.toResidual.evaluate 0 [1] [0] = .ok [-1] := by
    rw [CompiledSystem.evaluate_growth, zero_sub]
  have hdifferential : ¬ CompiledSystem.growth.LooksAlgebraic [-1] classificationStep 0 := by
    intro hlooks
    rcases hlooks rfl with ⟨value, hvalue, hlost⟩
    cases hvalue
    apply CompiledSystem.not_lostInNoise_of_small _ hlost
    norm_num
  have hclassify : (Probe.mk CompiledSystem.growth.toResidual 0 [1] [0]).classify
      classificationStep = .ok [false] := by
    have hdimension : CompiledSystem.growth.dimension = 1 := rfl
    rw [CompiledSystem.classify_eq (CompiledSystem.IsCompiled.compile
      CompiledSystem.compile_growth).sound CompiledSystem.growth_withoutDerivative hbase
      CompiledSystem.classificationStep_pos]
    simp [hdimension, hdifferential]
  have hprobe : (Probe.mk blank.system blank.config.start blank.config.initialState
      (List.replicate blank.config.initialState.length
        (@OfNat.ofNat ℝ 0 (Scalar.instOfNat 0)))).classify classificationStep = .ok [false] := by
    rw [Exact.zero_eq]
    exact hclassify
  unfold prepare
  simp only [hvalidate, hprobe]

namespace FixedStepIntegrator

theorem prepare_growth (method : FixedStepMethod) (intervals : Nat) (hintervals : intervals ≠ 0) :
    let blank := create method CompiledSystem.growth.toResidual ⟨intervals, 0, 1, [1]⟩
    blank.prepare [] = (.ok (), ⟨{ blank.core with
      algebraic := [false]
      initialized := true }, method, 1⟩) := by
  intro blank
  have hcore : blank.core.prepare =
      .ok { blank.core with algebraic := [false], initialized := true } :=
    Core.prepare_growth intervals hintervals
  unfold prepare
  simp only [applyAll, hcore]
  rfl

/-- Two steps of the Runge-Kutta method for exponential growth. -/
theorem run_keepsToGrid_growth :
    let blank := create .rungeKutta4 CompiledSystem.growth.toResidual ⟨2, 0, 1, [1]⟩
    let integrator : FixedStepIntegrator ℝ := ⟨{ blank.core with
      algebraic := [false]
      initialized := true }, .rungeKutta4, 1⟩
    blank.core.system.FillsBuffer ∧ blank.prepare [] = (.ok (), integrator) ∧
      integrator.KeepsToGrid (FixedStep.run integrator (fun _ control => control) .fresh) := by
  intro blank integrator
  have hsystem : blank.core.system.FillsBuffer := CompiledSystem.growth.toResidual_fillsBuffer
  have hprepare : blank.prepare [] = (.ok (), integrator) :=
    prepare_growth .rungeKutta4 2 two_ne_zero
  exact ⟨hsystem, hprepare, run_keepsToGrid hsystem hprepare _ _⟩

end FixedStepIntegrator

end

end ImplicitDynamics
