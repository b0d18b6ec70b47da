import ImplicitDynamics.FiniteDifference
import ImplicitDynamics.Integration.Core
import ImplicitDynamics.Proofs.CompiledSystems
import ImplicitDynamics.Proofs.Exact
import ImplicitDynamics.Proofs.Sweeps

/-!
# Which variables are classified as algebraic

In exact arithmetic, moving the derivative of one variable moves its own row by
the same amount if the row is differential, and nothing else.  The sum of the
changes therefore has one term, and only two things can make it vanish: the row
is algebraic, or the row is so large that the distance counts as rounding.
-/

namespace ImplicitDynamics

noncomputable section

namespace FiniteDifference

/-- A row of this value may move by `h` through rounding alone. -/
def LostInNoise (value h : ℝ) : Prop :=
  2 ^ 48 * h ≤ max |value| |value + h|

theorem residualChange_eq (before after : ℝ) :
    residualChange before after =
      if |after - before| ≤ max |before| |after| / 2 ^ 48 then 0 else |after - before| := by
  have hnoise : (16 : ℝ) * (1 / 2 ^ 52) * max |before| |after| = max |before| |after| / 2 ^ 48 := by
    ring
  simp only [residualChange, Exact.literal_eq, Exact.epsilon_eq, Exact.max_eq,
    Exact.abs_eq, Exact.mul_eq, Exact.sub_eq, Exact.le_iff, Nat.cast_ofNat, Nat.cast_zero, hnoise]

theorem residualChange_self (value : ℝ) : residualChange value value = 0 := by
  rw [residualChange_eq]
  simp

theorem residualChange_add (value : ℝ) {h : ℝ} (hh : 0 < h) :
    residualChange value (value + h) = 0 ∧ LostInNoise value h ∨
      residualChange value (value + h) = h ∧ ¬ LostInNoise value h := by
  have hiff : h ≤ max |value| |value + h| / 2 ^ 48 ↔ LostInNoise value h := by
    rw [LostInNoise, le_div_iff₀' (by positivity)]
  rw [residualChange_eq, add_sub_cancel_left, abs_of_pos hh]
  by_cases hlost : LostInNoise value h
  · exact .inl ⟨if_pos (hiff.mpr hlost), hlost⟩
  · exact .inr ⟨if_neg (mt hiff.mp hlost), hlost⟩

theorem sum_residualChange_self (base : List ℝ) :
    (base.zipWith residualChange base).sum = 0 := by
  simp [residualChange_self]

/-- Only the row that moved contributes to the change. -/
theorem sum_residualChange_modify {base : List ℝ} {j : Nat} {value : ℝ}
    (hvalue : base[j]? = some value) (h : ℝ) :
    (base.zipWith residualChange (base.modify j (· + h))).sum =
      residualChange value (value + h) := by
  induction base generalizing j with
  | nil => simp at hvalue
  | cons first base ih =>
      cases j with
      | zero =>
          have hfirst : first = value := by simpa using hvalue
          subst hfirst
          simpa using sum_residualChange_self base
      | succ j =>
          have hrest := ih (by simpa using hvalue)
          simpa [residualChange_self] using hrest

end FiniteDifference

theorem Equation.row_move_derivatives {equation : Equation ℝ} {bindings : Bindings ℝ}
    {value : ℝ} (hignores : equation.program.IgnoresDerivatives)
    (hrow : equation.row bindings = .ok value) (derivatives : List ℝ) :
    equation.row { bindings with derivatives } =
      .ok (match equation.kind with
        | .differential =>
          value + (derivatives.getD equation.index 0 -
            bindings.derivatives.getD equation.index 0)
        | .algebraic => value) := by
  unfold Equation.row at hrow ⊢
  rw [hignores.eval_eq bindings derivatives]
  cases heval : equation.program.eval bindings with
  | error cause =>
      rw [heval] at hrow
      cases hrow
  | ok result =>
      rw [heval] at hrow
      cases hkind : equation.kind with
      | algebraic => simpa [hkind] using hrow
      | differential =>
          simp only [hkind, Except.ok.injEq, Exact.sub_eq, Exact.zero_eq] at hrow ⊢
          linarith

namespace CompiledSystem

variable {system : CompiledSystem ℝ} {t h : ℝ} {y yp base : List ℝ}

/-- The rows of the residual after the derivative of variable `j` has moved
by `h`. -/
def movedRows (system : CompiledSystem ℝ) (base : List ℝ) (j : Nat) (h : ℝ) : List ℝ :=
  if system.differentialMask[j]? = some true then base.modify j (· + h) else base

theorem length_movedRows (system : CompiledSystem ℝ) (base : List ℝ) (j : Nat) (h : ℝ) :
    (system.movedRows base j h).length = base.length := by
  unfold movedRows
  split <;> simp

theorem getElem_movedRows {j k : Nat} (hk : k < (system.movedRows base j h).length)
    (hkBase : k < base.length) :
    (system.movedRows base j h)[k] =
      if j = k ∧ system.differentialMask[j]? = some true then base[k] + h else base[k] := by
  have hget : (system.movedRows base j h)[k]? =
      some (if j = k ∧ system.differentialMask[j]? = some true then base[k] + h
        else base[k]) := by
    unfold movedRows
    by_cases hmask : system.differentialMask[j]? = some true
    · rw [if_pos hmask, List.getElem?_modify]
      by_cases hjk : j = k
      · subst hjk
        simp [hmask, hkBase]
      · simp [hjk, hkBase]
    · simp [hmask, hkBase]
  exact (List.getElem_eq_iff hk).mpr hget

theorem rows_movedRows (hsound : system.Sound)
    (hfree : ∀ equation ∈ system.equations, equation.WithoutDerivative)
    (hyp : yp.length = system.dimension)
    (hrows : system.RowsAre (system.bindings t y yp) base) (j : Nat) (h : ℝ) :
    system.RowsAre (system.bindings t y (yp.modify j (· + h))) (system.movedRows base j h) := by
  obtain ⟨hlength, hrow⟩ := List.forall₂_iff_get.mp hrows
  refine List.forall₂_iff_get.mpr
    ⟨hlength.trans (length_movedRows system base j h).symm, fun k hk hk' => ?_⟩
  have hkBase : k < base.length := hlength ▸ hk
  have hkSlopes : k < yp.length := by
    rw [hyp]
    exact hk
  have hindex := hsound.index k system.equations[k] (List.getElem?_eq_getElem hk)
  have hmem := List.getElem_mem hk
  have hignores := (hsound.faithful _ hmem).ignoresDerivatives (hfree _ hmem)
  have hmask : system.differentialMask[k]? =
      some (decide (system.equations[k].kind = .differential)) := by
    simp [differentialMask, hk]
  have hmoved :=
    Equation.row_move_derivatives hignores (hrow k hk hkBase) (yp.modify j (· + h))
  refine hmoved.trans (congrArg Except.ok ?_)
  simp only [hindex, bindings, List.get_eq_getElem, getElem_movedRows hk' hkBase]
  by_cases hjk : j = k
  · subst hjk
    cases hkind : system.equations[j].kind <;> simp [hmask, hkind, hkSlopes]
  · cases hkind : system.equations[k].kind <;> simp [hjk, hkSlopes]

theorem evaluate_derivative_move (hsound : system.Sound)
    (hfree : ∀ equation ∈ system.equations, equation.WithoutDerivative)
    (hbase : system.toResidual.evaluate t y yp = .ok base) {out : List ℝ}
    (hout : out.length = system.dimension) (j : Nat) (h : ℝ) :
    (Scratch.mk y yp out).evaluate system.toResidual t .derivative j h =
      (none, ⟨y, yp, system.movedRows base j h⟩) := by
  obtain ⟨hy, hyp, hrows⟩ := rows_of_evaluate hbase
  have hmovedLength : (yp.modify j (· + h)).length = system.dimension := by
    rw [List.length_modify, hyp]
  have hresidual : system.toResidual.residual t y (yp.modify j (· + h)) out =
      ⟨system.movedRows base j h, none⟩ :=
    residual_of_rows hy hmovedLength hout (rows_movedRows hsound hfree hyp hrows j h)
  have hmove : (Scratch.mk y yp out).move .derivative j h =
      ⟨y, yp.modify j (· + h), out⟩ := rfl
  simp only [Scratch.evaluate, hmove, hresidual, Scratch.restore, set_getD_self,
    set_getD_of_modify]

/-- What the classification says of variable `j`: it has no derivative, or what
its derivative does to its row is lost. -/
def LooksAlgebraic (system : CompiledSystem ℝ) (base : List ℝ) (h : ℝ) (j : Nat) : Prop :=
  system.differentialMask[j]? = some true →
    ∃ value, base[j]? = some value ∧ FiniteDifference.LostInNoise value h

theorem change_le_threshold_iff (hh : 0 < h) {j : Nat} (hj : j < base.length) :
    Scalar.sum (base.zipWith FiniteDifference.residualChange (system.movedRows base j h)) ≤
        FiniteDifference.detectionThreshold * h ↔
      system.LooksAlgebraic base h j := by
  have hthreshold : (FiniteDifference.detectionThreshold : ℝ) = 1 / 10 ^ 6 := by
    rw [FiniteDifference.detectionThreshold, Exact.scientific_eq]
    norm_num
  have hget : base[j]? = some base[j] := List.getElem?_eq_getElem hj
  rw [Exact.sum_eq, hthreshold]
  unfold movedRows LooksAlgebraic
  by_cases hmask : system.differentialMask[j]? = some true
  · rw [if_pos hmask, FiniteDifference.sum_residualChange_modify hget]
    rcases FiniteDifference.residualChange_add base[j] hh with ⟨hchange, hlost⟩ | ⟨hchange, hkept⟩
    · rw [hchange]
      constructor
      · intro _ _
        exact ⟨base[j], hget, hlost⟩
      · intro _
        positivity
    · rw [hchange]
      constructor
      · intro hle
        exact absurd hle (by linarith)
      · intro hlooks
        obtain ⟨value, hvalue, hlost⟩ := hlooks hmask
        rw [hget] at hvalue
        cases hvalue
        exact absurd hlost hkept
  · rw [if_neg hmask, FiniteDifference.sum_residualChange_self]
    constructor
    · intro _ hmask'
      exact absurd hmask' hmask
    · intro _
      positivity

open Classical in
theorem algebraicFlags_eq (hsound : system.Sound)
    (hfree : ∀ equation ∈ system.equations, equation.WithoutDerivative)
    (hbase : system.toResidual.evaluate t y yp = .ok base) (hh : 0 < h) {out : List ℝ}
    (hout : out.length = system.dimension) {coordinates : List Nat}
    (hcoordinates : ∀ j ∈ coordinates, j < system.dimension) :
    (Probe.mk system.toResidual t y yp).algebraicFlags base h ⟨y, yp, out⟩ coordinates =
      .ok (coordinates.map fun j => decide (system.LooksAlgebraic base h j)) := by
  have hlength : base.length = system.dimension :=
    (rows_of_evaluate hbase).2.2.length_eq.symm
  induction coordinates generalizing out with
  | nil => rfl
  | cons j rest ih =>
      have hj := hcoordinates j List.mem_cons_self
      have hmoved : (system.movedRows base j h).length = system.dimension := by
        rw [length_movedRows, hlength]
      have hrest := ih hmoved fun k hk => hcoordinates k (List.mem_cons_of_mem _ hk)
      rw [Probe.algebraicFlags, evaluate_derivative_move hsound hfree hbase hout]
      simp only [hrest, Except.map, List.map_cons, Except.ok.injEq, List.cons.injEq, and_true]
      exact decide_eq_decide.mpr (change_le_threshold_iff hh (hlength ▸ hj))

open Classical in
theorem classify_eq (hsound : system.Sound)
    (hfree : ∀ equation ∈ system.equations, equation.WithoutDerivative)
    (hbase : system.toResidual.evaluate t y yp = .ok base) (hh : 0 < h) :
    (Probe.mk system.toResidual t y yp).classify h =
      .ok ((List.range system.dimension).map fun j =>
        decide (system.LooksAlgebraic base h j)) := by
  unfold Probe.classify Probe.residual Probe.scratch
  rw [hbase]
  exact algebraicFlags_eq hsound hfree hbase hh List.length_replicate
    (fun j hj => List.mem_range.mp hj)

/-- What `der(x) = x` compiles to. -/
def growth : CompiledSystem ℝ where
  vars := .ofList ["x"]
  parameters := .empty
  equations :=
    [{ variableName := "x"
       index := 0
       kind := .differential
       source := "der(x) = x"
       expression := "x"
       program := ⟨[.variable 0], 1⟩ }]

theorem compile_growth : compile .empty ["der(x) = x"] = .ok growth := by
  let statement : Statement :=
    ⟨"der(x) = x", "x", .differential, "x", [⟨.identifier, "x", 0, false⟩]⟩
  have hlines : Statement.parseLines (ParameterMap.empty : ParameterMap ℝ).contains
      ["der(x) = x"] = .ok [statement] := by
    with_unfolding_all rfl
  have hknown : Statement.undefinedSymbols (.ofList ["x"])
      (ParameterMap.empty : ParameterMap ℝ).contains [statement] = [] := by
    with_unfolding_all rfl
  have hequations : Equation.compileAll
      ⟨.ofList ["x"], (ParameterMap.empty : ParameterMap ℝ).symbols⟩ 0 [statement] =
        .ok growth.equations := by
    with_unfolding_all rfl
  exact compile_of_statements hlines hknown hequations

theorem growth_withoutDerivative :
    ∀ equation ∈ growth.equations, equation.WithoutDerivative := by
  have htokens : tokenize "x" = .ok [⟨.identifier, "x", 0, false⟩] := by with_unfolding_all rfl
  simp [growth, Equation.WithoutDerivative, htokens, Program.isDerivative]

theorem evaluate_growth (t x slope : ℝ) :
    growth.toResidual.evaluate t [x] [slope] = .ok [slope - x] := by
  have hrows : growth.RowsAre (growth.bindings t [x] [slope]) [slope - x] := .cons rfl .nil
  have hwritten : growth.toResidual.residual t [x] [slope] (List.replicate 1 0) =
      ⟨[slope - x], none⟩ := residual_of_rows rfl rfl rfl hrows
  change (match (growth.toResidual.residual t [x] [slope] (List.replicate 1 0)).failure with
    | none => Except.ok (growth.toResidual.residual t [x] [slope] (List.replicate 1 0)).out
    | some cause => .error cause) = _
  rw [hwritten]

/-! ## The classification of a compiled system -/

theorem classificationStep_eq : (Core.classificationStep : ℝ) = 1 / 10 ^ 6 := by
  rw [Core.classificationStep, Exact.scientific_eq]
  norm_num

theorem classificationStep_pos : (0 : ℝ) < Core.classificationStep := by
  rw [classificationStep_eq]
  norm_num

theorem not_lostInNoise_of_small {value : ℝ} (hvalue : |value| ≤ 281474976) :
    ¬ FiniteDifference.LostInNoise value Core.classificationStep := by
  have hsum := abs_add_le value (1 / 10 ^ 6)
  have hstep : |(1 / 10 ^ 6 : ℝ)| = 1 / 10 ^ 6 := abs_of_pos (by norm_num)
  rw [FiniteDifference.LostInNoise, classificationStep_eq, not_le, max_lt_iff]
  constructor <;> linarith

/-- In exact arithmetic the variables that are classified as algebraic are those
with an algebraic equation and, besides, the differential ones whose row is so
large that the perturbation counts as rounding. -/
theorem classify_eq_true_iff (hcompiled : system.IsCompiled)
    (hfree : ∀ equation ∈ system.equations, equation.WithoutDerivative)
    (hbase : system.toResidual.evaluate t y yp = .ok base) :
    ∃ flags,
      (Probe.mk system.toResidual t y yp).classify Core.classificationStep = .ok flags ∧
      flags.length = system.dimension ∧ base.length = system.dimension ∧
      (∀ (j : Nat) (isDifferential : Bool) (value : ℝ),
        system.differentialMask[j]? = some isDifferential → base[j]? = some value →
        (flags[j]? = some true ↔ isDifferential = false ∨
          FiniteDifference.LostInNoise value Core.classificationStep)) ∧
      ((∀ (j : Nat) (value : ℝ), system.differentialMask[j]? = some true →
          base[j]? = some value → |value| ≤ 281474976) →
        flags = system.differentialMask.map not) := by
  classical
  refine ⟨_, classify_eq hcompiled.sound hfree hbase classificationStep_pos, by simp,
    (rows_of_evaluate hbase).2.2.length_eq.symm, ?_, ?_⟩
  · intro j isDifferential value hmask hvalue
    have hj : j < system.dimension := by
      simpa [differentialMask, dimension] using (List.getElem?_eq_some_iff.mp hmask).1
    cases isDifferential <;> simp [hj, LooksAlgebraic, hmask, hvalue]
  · intro hsmall
    apply List.ext_getElem (by simp [differentialMask, dimension])
    intro j hj hj'
    have hjMask : j < system.differentialMask.length := by simpa using hj'
    have hmask : system.differentialMask[j]? = some system.differentialMask[j] :=
      List.getElem?_eq_getElem hjMask
    cases hdifferential : system.differentialMask[j] with
    | false => simp [LooksAlgebraic, hmask, hdifferential]
    | true =>
        have hlooks : ¬ system.LooksAlgebraic base Core.classificationStep j := by
          intro hlooks
          rw [hdifferential] at hmask
          obtain ⟨value, hvalue, hlost⟩ := hlooks hmask
          exact not_lostInNoise_of_small (hsmall j value hmask hvalue) hlost
        simp [hlooks, hdifferential]

theorem classify_eq_true_iff_growth :
    CompiledSystem.compile .empty ["der(x) = x"] = .ok growth ∧
      growth.toResidual.evaluate 0 [1] [0] = .ok [-1] ∧
      (Probe.mk growth.toResidual 0 [1] [0]).classify Core.classificationStep = .ok [false] := by
  have hbase : growth.toResidual.evaluate 0 [1] [0] = .ok [-1] := by
    rw [evaluate_growth, zero_sub]
  obtain ⟨flags, hclassify, -, -, -, hsmall⟩ :=
    classify_eq_true_iff (.compile compile_growth) growth_withoutDerivative hbase
  refine ⟨compile_growth, hbase, ?_⟩
  rw [hclassify, hsmall]
  · rfl
  · intro j value hmask hvalue
    cases j with
    | zero =>
        cases hvalue
        norm_num
    | succ j => cases hvalue

/-- A variable of `der(x) = x` is taken for an algebraic one where its state is
large. -/
theorem classify_growth_large :
    CompiledSystem.compile .empty ["der(x) = x"] = .ok growth ∧
      (∀ equation ∈ growth.equations, equation.WithoutDerivative) ∧
      growth.toResidual.evaluate 0 [1000000000] [0] = .ok [-1000000000] ∧
      growth.differentialMask = [true] ∧
      (Probe.mk growth.toResidual 0 [1000000000] [0]).classify Core.classificationStep =
        .ok [true] := by
  have hbase : growth.toResidual.evaluate 0 [1000000000] [0] = .ok [-1000000000] := by
    rw [evaluate_growth, zero_sub]
  have hlost : FiniteDifference.LostInNoise (-1000000000) Core.classificationStep := by
    rw [FiniteDifference.LostInNoise, classificationStep_eq, abs_neg]
    exact le_max_of_le_left (by norm_num)
  have hlooks : growth.LooksAlgebraic [-1000000000] Core.classificationStep 0 :=
    fun _ => ⟨-1000000000, rfl, hlost⟩
  refine ⟨compile_growth, growth_withoutDerivative, hbase, rfl, ?_⟩
  rw [classify_eq (IsCompiled.compile compile_growth).sound growth_withoutDerivative hbase
    classificationStep_pos]
  have hdimension : growth.dimension = 1 := rfl
  simp [hdimension, hlooks]

end CompiledSystem

end

end ImplicitDynamics
