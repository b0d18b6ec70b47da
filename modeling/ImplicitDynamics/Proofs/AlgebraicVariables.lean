import ImplicitDynamics.Proofs.Dependencies
import ImplicitDynamics.Proofs.DoubleSums
import ImplicitDynamics.Proofs.Renumbering

/-!
# Algebraic variables and reacting rows

A classification and a pattern for the derivatives carry out the same moves on the same
scratch point.  For each move the one adds up the changes of the rows and compares the sum
with a threshold; the other compares each change.  No double that is not below zero is above
a sum in which it stands, so where the sum does not pass the threshold no change does, also
with changes that are infinite or not numbers.  A row that an analysis does not take for a
constraint therefore reacts to the derivative of a variable that is not algebraic.
-/

namespace ImplicitDynamics

section

variable {α σ : Type} [Scalar α]

namespace Probe

/-- By how much each row changes. -/
def changes (base out : List α) : List α :=
  base.zipWith FiniteDifference.residualChange out

/-- Flag and column of a move look at the same changes. -/
def SameChanges (base : List α) (threshold : α) (flag : Bool) (column : List Bool) : Prop :=
  ∃ out, flag = decide (Scalar.sum (changes base out) ≤ threshold) ∧
    column = (changes base out).map fun change => decide (threshold < change)

variable {probe : Probe α} {base : List α} {h : α} {flags : List Bool}
  {pattern : List (List Bool)} {supervisor : Supervisor σ}

theorem sameChanges_of_sweep {coordinates : List Nat} {scratch : Scratch α}
    {finished total : Nat} {s : σ}
    (hflags : probe.algebraicFlags base h scratch coordinates = .ok flags)
    (hpattern : (probe.sweep supervisor .derivative (fun _ => reacting base h) finished total
      scratch (coordinates.map fun j => ⟨j, h⟩) s).1 = .ok pattern) :
    List.Forall₂ (SameChanges base (FiniteDifference.detectionThreshold * h)) flags pattern := by
  induction coordinates generalizing scratch finished s flags pattern with
  | nil =>
      cases hflags
      cases hpattern
      exact .nil
  | cons j rest ih =>
      rw [algebraicFlags] at hflags
      rw [List.map_cons, sweep] at hpattern
      -- Both evaluate the residual at the same point, and it leaves the same scratch.
      rcases hmoved : scratch.evaluate probe.system probe.time .derivative j h with
        ⟨_ | cause, moved⟩ <;> rw [hmoved] at hflags
      · simp only at hflags
        obtain ⟨otherFlags, hotherFlags, rfl⟩ := map_eq_ok_iff.mp hflags
        split at hpattern
        · cases hpattern
        · simp only [hmoved] at hpattern
          split at hpattern
          · next otherColumns _ hothers =>
            cases hpattern
            refine .cons ⟨moved.out, rfl, ?_⟩ (ih hotherFlags (congrArg Prod.fst hothers))
            rw [changes, List.map_zipWith, reacting]
          · cases hpattern
      · cases hflags

theorem sameChanges_of_classify {s : σ} (hflags : probe.classify h = .ok flags)
    (hpattern : (probe.sensitivity supervisor .derivative h s).1 = .ok pattern) :
    ∃ base, List.Forall₂ (SameChanges base (FiniteDifference.detectionThreshold * h)) flags
      pattern := by
  unfold classify at hflags
  unfold sensitivity at hpattern
  split at hflags
  · cases hflags
  · next base hbase =>
    rw [hbase] at hpattern
    exact ⟨base, sameChanges_of_sweep hflags hpattern⟩

end Probe

namespace Analyzer

/-- The structure of a system as an analysis sees it. -/
def incidence (statePattern derivativePattern : List (List Bool)) (algebraic : List Bool) :
    StructuralIndex.Incidence :=
  ⟨reactingRows statePattern, reactingRows derivativePattern, algebraic⟩

omit [Scalar α] in
theorem mem_reactingRows_iff {row column : Nat} :
    row ∈ (reactingRows pattern).getD column [] ↔ Reacts pattern row column := by
  unfold reactingRows Reacts
  rw [List.getD_eq_getElem?_getD, List.getElem?_map]
  cases hcolumn : pattern[column]? with
  | none => simp
  | some reacts => simp [List.mem_zipIdx_iff_getElem?]

/-- What an analysis says about algebraic variables and about the index comes from two
patterns and a classification at the same point. -/
structure Classified (settings : AnalyzerSettings α) (probe : Probe α) (analysis : Analysis α)
    (statePattern derivativePattern : List (List Bool)) : Prop where
  state : ∃ observation : Observation α,
    (probe.sensitivity quiet .state settings.perturbation observation).1 = .ok statePattern
  algebraic : probe.classify settings.perturbation = .ok analysis.algebraic
  derivative : ∃ observation : Observation α,
    (probe.sensitivity quiet .derivative settings.perturbation observation).1 =
      .ok derivativePattern
  index : analysis.index = StructuralIndex.compute
    (incidence statePattern derivativePattern analysis.algebraic) settings.maxIndex

theorem stages_classified (settings : AnalyzerSettings α) (react : AnalysisEvent α → Bool)
    (probe : Probe α) : Ensures (stages settings react probe) fun analysis =>
      ∃ statePattern derivativePattern,
        Classified settings probe analysis statePattern derivativePattern := by
  unfold stages
  refine Ensures.bind fun _ => ?_
  refine Ensures.bind_of (swept_ensures _) fun swept hswept => ?_
  refine Ensures.bind_of (orThrow_ensures swept) fun statePattern hstate => ?_
  refine Ensures.bind fun _ => ?_
  refine Ensures.bind_of (orThrow_ensures _) fun algebraic halgebraic => ?_
  refine Ensures.bind fun _ => ?_
  refine Ensures.bind_of (swept_ensures _) fun otherSwept hother => ?_
  refine Ensures.bind_of (orThrow_ensures otherSwept) fun derivativePattern hderivative => ?_
  repeat refine Ensures.bind fun _ => ?_
  exact Ensures.pure ⟨statePattern, derivativePattern, hswept _ hstate, halgebraic,
    hother _ hderivative, rfl⟩

theorem run_classified {settings : AnalyzerSettings α} {react : AnalysisEvent α → Bool}
    {system : ResidualSystem α} {state : List α} {time : α} {control : Control}
    {analysis : Analysis α}
    (hrun : (run settings react system state time control).1 = .ok analysis) :
    ∃ statePattern derivativePattern,
      Classified settings ⟨system, time, state, List.replicate system.dimension 0⟩ analysis
        statePattern derivativePattern := by
  unfold run at hrun
  simp only at hrun
  split at hrun
  · cases hrun
  · split at hrun
    · cases hrun
    · exact stages_classified settings react _ _ analysis hrun

end Analyzer

end

/-! ## No algebraic variable moves a row -/

namespace Probe

/-- A sum that does not pass the threshold leaves no change that does. -/
theorem SameChanges.not_mem {base : List Float} {threshold : Float} {column : List Bool}
    (hsame : SameChanges base threshold true column) : true ∉ column := by
  obtain ⟨out, hflag, rfl⟩ := hsame
  have hsum : Scalar.sum (changes base out) ≤ threshold := of_decide_eq_true hflag.symm
  intro hmem
  obtain ⟨change, hchange, hpasses⟩ := List.mem_map.mp hmem
  have hterms : ∀ change ∈ changes base out, ¬ change < 0 := by
    intro change hchange
    obtain ⟨k, hk⟩ := List.mem_iff_getElem?.mp hchange
    obtain ⟨before, after, -, -, rfl⟩ := List.getElem?_zipWith_eq_some.mp hk
    exact Double.not_residualChange_lt_zero before after
  exact Double.not_lt_of_le (Double.le_of_sum_le hterms hsum change hchange)
    (of_decide_eq_true hpasses)

variable {σ : Type} {supervisor : Supervisor σ} {probe : Probe Float} {h : Float} {s : σ}
  {flags : List Bool} {pattern : List (List Bool)}

theorem flag_of_reacts (hflags : probe.classify h = .ok flags)
    (hpattern : (probe.sensitivity supervisor .derivative h s).1 = .ok pattern) {row i : Nat}
    (hreacts : Reacts pattern row i) : flags[i]? = some false := by
  obtain ⟨base, hsame⟩ := sameChanges_of_classify hflags hpattern
  obtain ⟨column, hcolumn, hrow⟩ := hreacts
  obtain ⟨flag, hflag, hchanges⟩ := exists_getElem?_of_forall₂ hsame hcolumn
  cases flag with
  | false => exact hflag
  | true => exact absurd (List.mem_of_getElem? hrow) hchanges.not_mem

end Probe

namespace Analyzer

/-- At every point, whatever the residual is there: no row reacts to the derivative of a
variable that a classification with the same step takes for algebraic.  So each row that is
no constraint in the incidence of an analysis reacts to the derivative of a variable that is
not algebraic. -/
theorem algebraic_moves_no_row :
    (∀ {σ : Type} (probe : Probe Float) (supervisor : Supervisor σ) (h : Float) (s : σ)
      (flags : List Bool) (pattern : List (List Bool)), probe.classify h = .ok flags →
      (probe.sensitivity supervisor .derivative h s).1 = .ok pattern →
      ∀ i, flags[i]? = some true → ∀ row, ¬ Reacts pattern row i) ∧
    ∀ (settings : AnalyzerSettings Float) (react : AnalysisEvent Float → Bool)
      (system : ResidualSystem Float) (state : List Float) (time : Float) (control : Control)
      (analysis : Analysis Float),
      (run settings react system state time control).1 = .ok analysis →
      let probe : Probe Float := ⟨system, time, state, List.replicate system.dimension 0⟩
      (∃ statePattern derivativePattern,
        Classified settings probe analysis statePattern derivativePattern) ∧
      ∀ statePattern derivativePattern,
        Classified settings probe analysis statePattern derivativePattern →
        ∀ row, (incidence statePattern derivativePattern analysis.algebraic).hasDerivative row =
          true → ∃ i, analysis.algebraic[i]? = some false ∧ Reacts derivativePattern row i := by
  constructor
  · intro σ probe supervisor h s flags pattern hflags hpattern i hflag row hreacts
    cases hflag.symm.trans (Probe.flag_of_reacts hflags hpattern hreacts)
  · intro settings react system state time control analysis hrun probe
    refine ⟨run_classified hrun, fun statePattern derivativePattern hclassified row hrow => ?_⟩
    obtain ⟨i, hi⟩ := StructuralIndex.Incidence.hasDerivative_iff.mp hrow
    have hreacts : Reacts derivativePattern row i := mem_reactingRows_iff.mp hi
    obtain ⟨observation, hpattern⟩ := hclassified.derivative
    exact ⟨i, Probe.flag_of_reacts hclassified.algebraic hpattern hreacts, hreacts⟩

/-- The derivative of `x` moves the rows of both equations and that of `y` none. -/
theorem algebraic_moves_no_row_feedback :
    let system := CompiledSystem.feedback.toResidual
    let settings : AnalyzerSettings Float := .standard
    let probe : Probe Float := ⟨system, 0, [1, 1], [0, 0]⟩
    let start : Observation Float := ⟨.fresh, []⟩
    let statePattern := [[false, true], [true, false]]
    let derivativePattern := [[true, true], [false, false]]
    probe.classify settings.perturbation = .ok [false, true] ∧
      (probe.sensitivity quiet .derivative settings.perturbation start).1 =
        .ok derivativePattern ∧
      ¬ Reacts derivativePattern 1 1 ∧
      ∃ analysis, (run settings (fun _ => false) system [1, 1] 0 .fresh).1 = .ok analysis ∧
        Classified settings probe analysis statePattern derivativePattern ∧
        (incidence statePattern derivativePattern analysis.algebraic).hasDerivative 1 = true ∧
        ∃ i, analysis.algebraic[i]? = some false ∧ Reacts derivativePattern 1 i := by
  intro system settings probe start statePattern derivativePattern
  have hflags : probe.classify settings.perturbation = .ok [false, true] := by decide +kernel
  have hstate : (probe.sensitivity quiet .state settings.perturbation start).1 =
      .ok statePattern := by
    decide +kernel
  have hderivative : (probe.sensitivity quiet .derivative settings.perturbation
      start).1 = .ok derivativePattern := by
    decide +kernel
  have hanalysis : (match (run settings (fun _ => false) system [1, 1] 0 .fresh).1 with
    | .ok analysis =>
      decide (analysis.algebraic = [false, true] ∧ analysis.index = StructuralIndex.compute
        (incidence statePattern derivativePattern [false, true]) settings.maxIndex)
    | .error _ => false) = true := by
    decide +kernel
  obtain ⟨hmoves, hanalyses⟩ := algebraic_moves_no_row
  cases hrun : (run settings (fun _ => false) system [1, 1] 0 .fresh).1 with
  | error cause =>
      rw [hrun] at hanalysis
      cases hanalysis
  | ok analysis =>
      rw [hrun] at hanalysis
      obtain ⟨halgebraic, hindex⟩ := of_decide_eq_true hanalysis
      have hclassified : Classified settings probe analysis statePattern derivativePattern :=
        ⟨⟨_, hstate⟩, halgebraic ▸ hflags, ⟨_, hderivative⟩, halgebraic ▸ hindex⟩
      have hrow : (incidence statePattern derivativePattern analysis.algebraic).hasDerivative 1 =
          true := rfl
      exact ⟨hflags, hderivative, hmoves probe quiet _ _ _ _ hflags hderivative 1 rfl 1, analysis,
        rfl, hclassified, hrow, (hanalyses _ _ _ _ _ _ _ hrun).2 _ _ hclassified 1 hrow⟩

end Analyzer

end ImplicitDynamics
