import ImplicitDynamics.Proofs.Cycles
import ImplicitDynamics.Proofs.Doubles
import ImplicitDynamics.Proofs.References
import ImplicitDynamics.Proofs.Sweeps

/-!
# Dependencies are references

A row reacts to a coordinate only if its value changes when the coordinate
moves.  The row of a compiled equation keeps its value when the program does
not load what is moved, and every load stands for a name in the right side.  So
the graph of an analysis has no edge without such a name, and neither have the
cycles and the coupled blocks that are found in it.
-/

namespace ImplicitDynamics

/-- By this pattern the row reacts to the coordinate. -/
def Reacts (pattern : List (List Bool)) (row coordinate : Nat) : Prop :=
  ∃ column, pattern[coordinate]? = some column ∧ column[row]? = some true

theorem DependencyGraph.reacts_of_mem {pattern : List (List Bool)} {node next : Nat}
    (hnext : next ∈ (ofPattern pattern).dependencies node) : Reacts pattern node next := by
  have hedge := mem_dependencies_ofEdges hnext
  simp only [List.mem_flatMap, List.mem_filterMap, Prod.exists] at hedge
  rcases hedge with ⟨column, j, hcolumn, depends, i, hdepends, hedge⟩
  split at hedge
  · next htrue =>
    cases hedge
    subst htrue
    exact ⟨column, List.mem_zipIdx_iff_getElem?.mp hcolumn,
      List.mem_zipIdx_iff_getElem?.mp hdepends⟩
  · cases hedge

section

variable {α σ : Type} [Scalar α] {supervisor : Supervisor σ} {perturbation : Perturbation α}
  {h : α} {s : σ} {pattern : List (List Bool)} {row coordinate : Nat}

/-- A row that reacts has one value before a move and another one after it. -/
theorem Probe.exists_change_of_reacts (probe : Probe α) (hsystem : probe.system.FillsBuffer)
    (hpattern : (probe.sensitivity supervisor perturbation h s).1 = .ok pattern)
    (hreacts : Reacts pattern row coordinate) :
    ∃ base out before after, probe.residual = .ok base ∧ base[row]? = some before ∧
      (probe.written perturbation ⟨coordinate, h⟩ out).failure = none ∧
      (probe.written perturbation ⟨coordinate, h⟩ out).out[row]? = some after ∧
      FiniteDifference.detectionThreshold * h <
        FiniteDifference.residualChange before after := by
  rcases hreacts with ⟨column, hcolumn, hrow⟩
  unfold sensitivity at hpattern
  split at hpattern
  · cases hpattern
  · next base hbase =>
    have hsees := probe.sweep_sees hsystem hpattern
    rcases exists_getElem?_of_forall₂ hsees hcolumn with ⟨move, hmove, out, -, hfailure, rfl⟩
    have hmoved : move = ⟨coordinate, h⟩ := by
      rw [allMoves, List.getElem?_map] at hmove
      rcases Option.map_eq_some_iff.mp hmove with ⟨j, hj, rfl⟩
      rcases List.getElem?_eq_some_iff.mp hj with ⟨hlt, rfl⟩
      rw [List.getElem_range]
    subst hmoved
    rcases List.getElem?_zipWith_eq_some.mp hrow with ⟨before, after, hbefore, hafter, hchange⟩
    exact ⟨base, out, before, after, hbase, hbefore, hfailure, hafter, of_decide_eq_true hchange⟩

namespace CompiledSystem

variable {system : CompiledSystem α} {t : α} {y yp : List α}

/-- The equation of a row that reacts has different values at the two points. -/
theorem exists_row_of_reacts
    (hquiet : ∀ value : α, ¬ FiniteDifference.detectionThreshold * h <
      FiniteDifference.residualChange value value)
    (hpattern : ((Probe.mk system.toResidual t y yp).sensitivity supervisor perturbation h s).1 =
      .ok pattern)
    (hreacts : Reacts pattern row coordinate) :
    ∃ equation, system.equations[row]? = some equation ∧
      equation.row ((system.bindings t y yp).move perturbation coordinate h) ≠
        equation.row (system.bindings t y yp) := by
  let probe := Probe.mk system.toResidual t y yp
  rcases probe.exists_change_of_reacts system.toResidual_fillsBuffer hpattern hreacts with
    ⟨base, out, before, after, hbase, hbefore, hfailure, hafter, hchange⟩
  have hrows : system.RowsAre (system.bindings t y yp) base := (rows_of_evaluate hbase).2.2
  rcases exists_getElem?_of_forall₂ hrows hbefore with ⟨equation, hequation, hvalue⟩
  rcases exists_getElem?_of_forall₂ (rows_of_residual hfailure).2.2.2 hafter with
    ⟨same, hsame, hmoved⟩
  rw [hequation] at hsame
  cases hsame
  refine ⟨equation, hequation, ?_⟩
  have hbindings : (system.bindings t y yp).move perturbation coordinate h =
      system.bindings t ((probe.on out).move perturbation coordinate h).state
        ((probe.on out).move perturbation coordinate h).derivatives := by
    cases perturbation <;> rfl
  rw [hbindings, hmoved, hvalue]
  rintro hkept
  cases hkept
  exact hquiet before hchange

/-- The right side of equation `row` refers to the state of variable `j`. -/
def ReadsState (system : CompiledSystem α) (row j : Nat) : Prop :=
  ∃ equation name, system.equations[row]? = some equation ∧ system.vars.name? j = some name ∧
    equation.Refers Reference.ToState name

def ReadsDerivative (system : CompiledSystem α) (row j : Nat) : Prop :=
  ∃ equation name, system.equations[row]? = some equation ∧ system.vars.name? j = some name ∧
    equation.Refers Reference.ToDerivative name

theorem readsState_of_reacts (hcompiled : system.IsCompiled)
    (hquiet : ∀ value : α, ¬ FiniteDifference.detectionThreshold * h <
      FiniteDifference.residualChange value value)
    (hpattern : ((Probe.mk system.toResidual t y yp).sensitivity supervisor .state h s).1 =
      .ok pattern)
    (hreacts : Reacts pattern row coordinate) : system.ReadsState row coordinate := by
  rcases exists_row_of_reacts hquiet hpattern hreacts with ⟨equation, hequation, hchanged⟩
  rcases (hcompiled.sound.faithful equation (List.mem_of_getElem? hequation)).backed with
    ⟨tokens, htokens, hbacked⟩
  by_cases hload : .variable coordinate ∈ equation.program.ops
  · rcases hbacked _ hload with ⟨name, hname, hreference⟩
    exact ⟨equation, name, hequation, hname, tokens, htokens, hreference⟩
  · exact absurd (equation.row_move_state _ hload h) hchanged

theorem readsDerivative_of_reacts (hcompiled : system.IsCompiled)
    (hquiet : ∀ value : α, ¬ FiniteDifference.detectionThreshold * h <
      FiniteDifference.residualChange value value)
    (hpattern : ((Probe.mk system.toResidual t y yp).sensitivity supervisor .derivative h s).1 =
      .ok pattern)
    (hreacts : Reacts pattern row coordinate) :
    system.ReadsDerivative row coordinate ∨
      row = coordinate ∧ system.differentialMask[coordinate]? = some true := by
  rcases exists_row_of_reacts hquiet hpattern hreacts with ⟨equation, hequation, hchanged⟩
  have hindex := hcompiled.sound.index row equation hequation
  rcases (hcompiled.sound.faithful equation (List.mem_of_getElem? hequation)).backed with
    ⟨tokens, htokens, hbacked⟩
  by_cases hload : .derivative coordinate ∈ equation.program.ops
  · rcases hbacked _ hload with ⟨name, hname, hreference⟩
    exact .inl ⟨equation, name, hequation, hname, tokens, htokens, hreference⟩
  · right
    by_contra hother
    apply hchanged
    refine equation.row_move_derivative _ hload ?_ h
    rintro hkind rfl
    apply hother
    rw [← hindex] at hequation ⊢
    refine ⟨rfl, ?_⟩
    rw [differentialMask, List.getElem?_map, hequation, Option.map_some, hkind]
    rfl

end CompiledSystem

namespace Analyzer

variable {β : Type}

omit [Scalar α] in
theorem swept_ensures (sweep : Observation α → Except (JacobianError α) β × Observation α) :
    Ensures (swept sweep) fun outcome =>
      ∀ value, outcome = .ok value → ∃ observation, (sweep observation).1 = .ok value := by
  unfold swept
  refine Ensures.bind fun observation => ?_
  rcases hsweep : sweep observation with ⟨result, after⟩
  refine Ensures.bind fun _ => ?_
  cases result with
  | ok value =>
      apply Ensures.pure
      intro other hother
      cases hother
      exact ⟨observation, congrArg Prod.fst hsweep⟩
  | error cause =>
      cases cause with
      | evaluation cause =>
          apply Ensures.pure
          intro other hother
          cases hother
      | cancelled =>
          intro before outcome houtcome
          cases houtcome

omit [Scalar α] in
theorem orThrow_ensures (result : Except (EvalError α) β) :
    Ensures (orThrow result : Observed α β) fun value => result = .ok value := by
  intro observation value hvalue
  cases result with
  | ok outcome =>
      cases hvalue
      rfl
  | error cause => cases hvalue

theorem stages_dependencies (settings : AnalyzerSettings α) (react : AnalysisEvent α → Bool)
    (probe : Probe α) : Ensures (stages settings react probe) fun analysis =>
      ∃ (observation : Observation α) (pattern : List (List Bool)),
        (probe.sensitivity quiet .state settings.perturbation observation).1 = .ok pattern ∧
          analysis.dependencies = .ofPattern pattern := by
  unfold stages
  refine Ensures.bind fun _ => ?_
  refine Ensures.bind_of (swept_ensures _) fun swept hswept => ?_
  refine Ensures.bind_of (orThrow_ensures swept) fun pattern hpattern => ?_
  rcases hswept pattern hpattern with ⟨observation, hsensitivity⟩
  repeat refine Ensures.bind fun _ => ?_
  exact Ensures.pure ⟨observation, pattern, hsensitivity, rfl⟩

theorem run_dependencies {settings : AnalyzerSettings α} {react : AnalysisEvent α → Bool}
    {system : ResidualSystem α} {state : List α} {time : α} {control : Control}
    {analysis : Analysis α}
    (hrun : (run settings react system state time control).1 = .ok analysis) :
    ∃ (yp : List α) (observation : Observation α) (pattern : List (List Bool)),
      ((Probe.mk system time state yp).sensitivity quiet .state settings.perturbation
        observation).1 = .ok pattern ∧ analysis.dependencies = .ofPattern pattern := by
  unfold run at hrun
  simp only at hrun
  split at hrun
  · cases hrun
  · split at hrun
    · cases hrun
    · exact ⟨_, stages_dependencies settings react _ _ analysis hrun⟩

end Analyzer

/-- The edges of an analysis, the steps of its cycles and the ties in its coupled
blocks are references to states in the right sides of the equations. -/
structure Analysis.ReadFrom (analysis : Analysis α) (system : CompiledSystem α) : Prop where
  edges : ∀ i, ∀ j ∈ analysis.dependencies.dependencies i, system.ReadsState i j
  cycles : ∀ cycle ∈ analysis.cycles, cycle.IsChain system.ReadsState
  blocks : ∀ block ∈ analysis.decomposition.coupled, ∀ i ∈ block, ∀ j ∈ block,
    Relation.ReflTransGen (fun i j => system.ReadsState i j ∧ j ∈ block) i j

theorem CompiledSystem.readFrom_of_run {system : CompiledSystem α}
    (hcompiled : system.IsCompiled) {settings : AnalyzerSettings α}
    (hquiet : ∀ value : α, ¬ FiniteDifference.detectionThreshold * settings.perturbation <
      FiniteDifference.residualChange value value)
    {react : AnalysisEvent α → Bool} {state : List α} {time : α} {control : Control}
    {analysis : Analysis α}
    (hrun : (Analyzer.run settings react system.toResidual state time control).1 = .ok analysis) :
    analysis.ReadFrom system := by
  rcases Analyzer.run_ok hrun with ⟨hgraph, hcycles, hdecomposition⟩
  rcases Analyzer.run_dependencies hrun with ⟨yp, observation, pattern, hpattern, hdependencies⟩
  have hedges : ∀ i, ∀ j ∈ analysis.dependencies.dependencies i, system.ReadsState i j := by
    intro i j hj
    rw [hdependencies] at hj
    exact readsState_of_reacts hcompiled hquiet hpattern (DependencyGraph.reacts_of_mem hj)
  constructor
  · exact hedges
  · intro cycle hcycle
    rw [hcycles] at hcycle
    rcases DependencyGraph.isCycle_of_mem_cycles hgraph hcycle with ⟨node, later, -, -, hchain⟩
    exact hchain.imp hedges
  · intro block hblock i hi j hj
    rw [hdecomposition] at hblock
    have hcomponent := (List.mem_filter.mp hblock).1
    have hinside := (DependencyGraph.classified_components hgraph.closed).reaches_inside
      hcomponent hi hj
    exact Relation.ReflTransGen.mono
      (fun node next hnext => ⟨hedges node next hnext.1, hnext.2⟩) _ _ hinside

end

/-! ## No dependency is invented -/

namespace CompiledSystem

/-- At every point, whatever values the residual has there: the rows that react
to a state refer to it, and those that react to a derivative refer to it or
define it.  So whatever an analysis says about dependencies is a reference in
the text of the equations. -/
theorem dependencies_are_references {system : CompiledSystem Float}
    (hcompiled : system.IsCompiled) (t : Float) (y yp : List Float) :
    (∀ {σ : Type} (supervisor : Supervisor σ) (h : Float) (s : σ) (pattern : List (List Bool)),
      0 < h →
      ((Probe.mk system.toResidual t y yp).sensitivity supervisor .state h s).1 = .ok pattern →
      ∀ i j, Reacts pattern i j → system.ReadsState i j) ∧
    (∀ {σ : Type} (supervisor : Supervisor σ) (h : Float) (s : σ) (pattern : List (List Bool)),
      0 < h →
      ((Probe.mk system.toResidual t y yp).sensitivity supervisor .derivative h s).1 =
        .ok pattern →
      ∀ i j, Reacts pattern i j →
        system.ReadsDerivative i j ∨ i = j ∧ system.differentialMask[j]? = some true) ∧
    ∀ (settings : AnalyzerSettings Float) (react : AnalysisEvent Float → Bool)
      (control : Control) (analysis : Analysis Float), 0 < settings.perturbation →
      (Analyzer.run settings react system.toResidual y t control).1 = .ok analysis →
      analysis.ReadFrom system := by
  refine ⟨?_, ?_, ?_⟩
  · intro σ supervisor h s pattern hpos hpattern i j hreacts
    exact readsState_of_reacts hcompiled (Double.not_threshold_lt_residualChange hpos) hpattern
      hreacts
  · intro σ supervisor h s pattern hpos hpattern i j hreacts
    exact readsDerivative_of_reacts hcompiled (Double.not_threshold_lt_residualChange hpos)
      hpattern hreacts
  · intro settings react control analysis hpos hrun
    exact readFrom_of_run hcompiled (Double.not_threshold_lt_residualChange hpos) hrun

/-- Two variables that depend on each other, one of them also through a
derivative. -/
def feedback : CompiledSystem Float where
  vars := .ofList ["x", "y"]
  parameters := .empty
  equations :=
    [{ variableName := "x"
       index := 0
       kind := .differential
       source := "der(x) = y"
       expression := "y"
       program := ⟨[.variable 1], 1⟩ },
     { variableName := "y"
       index := 1
       kind := .algebraic
       source := "y = x - der(x)"
       expression := "x - der(x)"
       program := ⟨[.variable 0, .derivative 0, .binary .sub], 2⟩ }]

theorem compile_feedback :
    compile .empty ["der(x) = y", "y = x - der(x)"] = .ok feedback := by
  let differenceTokens : List Token :=
    [⟨.identifier, "x", 0, false⟩, ⟨.operator, "-", 2, false⟩, ⟨.function, "der", 0, false⟩,
      ⟨.leftParen, "(", 0, false⟩, ⟨.identifier, "x", 0, false⟩, ⟨.rightParen, ")", 0, false⟩]
  let statements : List Statement :=
    [⟨"der(x) = y", "x", .differential, "y", [⟨.identifier, "y", 0, false⟩]⟩,
      ⟨"y = x - der(x)", "y", .algebraic, "x - der(x)", differenceTokens⟩]
  have hlines : Statement.parseLines (ParameterMap.empty : ParameterMap Float).contains
      ["der(x) = y", "y = x - der(x)"] = .ok statements := by
    with_unfolding_all rfl
  have hknown : Statement.undefinedSymbols (.ofList ["x", "y"])
      (ParameterMap.empty : ParameterMap Float).contains statements = [] := by
    with_unfolding_all rfl
  have hequations : Equation.compileAll
      ⟨.ofList ["x", "y"], (ParameterMap.empty : ParameterMap Float).symbols⟩ 0 statements =
        .ok feedback.equations := by
    with_unfolding_all rfl
  exact compile_of_statements hlines hknown hequations

theorem dependencies_are_references_feedback :
    let probe : Probe Float := ⟨feedback.toResidual, 0, [1, 1], [0, 0]⟩
    let settings : AnalyzerSettings Float := .standard
    let always : Supervisor Unit := ⟨fun _ => (true, ()), fun _ _ _ => ()⟩
    feedback.IsCompiled ∧ 0 < settings.perturbation ∧
      (probe.sensitivity always .state settings.perturbation ()).1 =
        .ok [[false, true], [true, false]] ∧
      (probe.sensitivity always .derivative settings.perturbation ()).1 =
        .ok [[true, true], [false, false]] ∧
      feedback.ReadsState 1 0 ∧ feedback.ReadsDerivative 1 0 ∧
      ∃ analysis, (Analyzer.run settings (fun _ => false) feedback.toResidual [1, 1] 0 .fresh).1 =
          .ok analysis ∧
        analysis.cycles = [[0, 1, 0]] ∧ analysis.decomposition.coupled = [[0, 1]] ∧
        analysis.ReadFrom feedback := by
  intro probe settings always
  have hcompiled : feedback.IsCompiled := .compile compile_feedback
  have hpos : 0 < settings.perturbation := by decide +kernel
  have hstate : (probe.sensitivity always .state settings.perturbation ()).1 =
      .ok [[false, true], [true, false]] := by
    decide +kernel
  have hderivative : (probe.sensitivity always .derivative settings.perturbation ()).1 =
      .ok [[true, true], [false, false]] := by
    decide +kernel
  rcases dependencies_are_references hcompiled 0 [1, 1] [0, 0] with
    ⟨hreadsState, hreadsDerivative, hreadFrom⟩
  have hslope : feedback.ReadsDerivative 1 0 := by
    rcases hreadsDerivative always _ () _ hpos hderivative 1 0 ⟨_, rfl, rfl⟩ with hreads | hown
    · exact hreads
    · exact absurd hown.1 Nat.one_ne_zero
  have hanalysis : (match (Analyzer.run settings (fun _ => false) feedback.toResidual [1, 1] 0
      .fresh).1 with
    | .ok analysis =>
      decide (analysis.cycles = [[0, 1, 0]] ∧ analysis.decomposition.coupled = [[0, 1]])
    | .error _ => false) = true := by
    decide +kernel
  cases hrun : (Analyzer.run settings (fun _ => false) feedback.toResidual [1, 1] 0 .fresh).1 with
  | error cause =>
      rw [hrun] at hanalysis
      cases hanalysis
  | ok analysis =>
      rw [hrun] at hanalysis
      rcases of_decide_eq_true hanalysis with ⟨hcycles, hblocks⟩
      exact ⟨hcompiled, hpos, hstate, hderivative,
        hreadsState always _ () _ hpos hstate 1 0 ⟨_, rfl, rfl⟩, hslope, analysis, rfl, hcycles,
        hblocks, hreadFrom settings _ _ analysis hpos hrun⟩

end CompiledSystem

end ImplicitDynamics
