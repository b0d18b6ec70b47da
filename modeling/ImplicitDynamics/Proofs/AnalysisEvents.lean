import ImplicitDynamics.Analysis.Analyzer
import Mathlib

/-!
# The events of an analysis

Each part of an analysis adds events to those told before.  Their percentages lie
between two bounds and do not fall, and after an event to which the listener reacts
the part tells nothing more and leaves its control cancelled.  Parts in a row do the
same, and the next look at the control ends the analysis.

A Jacobian that cannot be evaluated does not end the analysis.  What the part leaves
behind is therefore said about its control and not about its result.
-/

namespace ImplicitDynamics

namespace AnalysisStage

/-- The stages at whose events a cancellation is heeded.  After the event of the
decomposition the control is not looked at any more. -/
def early : List AnalysisStage :=
  [dependencies, classification, index, jacobian, spectrum]

end AnalysisStage

namespace Analyzer

variable {α β γ : Type}

theorem run_bind (part : Observed α β) (next : β → Observed α γ) (before : Observation α) :
    (part >>= next).run.run before =
      match part.run.run before with
      | (.ok result, between) => (next result).run.run between
      | (.error cause, between) => (.error cause, between) := by
  rw [ExceptT.run_bind, StateT.run_bind]
  rcases part.run.run before with ⟨outcome, between⟩
  cases outcome <;> rfl

theorem run_checkpoint (before : Observation α) :
    (checkpoint (α := α)).run.run before =
      (if before.look.1 = true then .ok () else .error .cancelled, before.look.2) := by
  have hlook : (checkpoint (α := α)).run.run before =
      (if before.look.1 = true then pure () else throw .cancelled : Observed α Unit).run.run
        before.look.2 := by
    unfold checkpoint
    rfl
  rw [hlook]
  cases before.look.1 <;> rfl

theorem run_enter (react : AnalysisEvent α → Bool) (stage : AnalysisStage) (percentage : α)
    (message : String) (before : Observation α) :
    (enter react stage percentage message).run.run before =
      if before.look.1 = true then
        (.ok (), before.look.2.tell react ⟨stage, percentage, message⟩)
      else (.error .cancelled, before.look.2) := by
  rw [enter, run_bind, run_checkpoint]
  cases before.look.1 <;> rfl

theorem run_swept (sweep : Observation α → Except (JacobianError α) β × Observation α)
    (before : Observation α) : ((swept sweep).run.run before).2 = (sweep before).2 := by
  have hget : (get : Observed α (Observation α)).run.run before = (.ok before, before) := rfl
  rw [swept, run_bind, hget]
  rcases hsweep : sweep before with ⟨(cause | -) | value, after⟩ <;> simp only [hsweep] <;> rfl

theorem not_cancelled_of_look {observation : Observation α}
    (hactive : observation.look.1 = true) : observation.look.2.control.cancelled = false := by
  rcases observation with ⟨⟨paused, cancelled, arriving⟩, events⟩
  cases cancelled with
  | true => cases hactive
  | false =>
      cases arriving with
      | none => rfl
      | some looks =>
          cases looks with
          | zero => cases hactive
          | succ looks => rfl

variable [Scalar α]

/-- The percentages at which the stages begin, and the last one. -/
def milestones : List Nat :=
  [0, 20, 30, 40, 85, 95, 100]

/-- The percentage told last when so many columns of two Jacobians are done. -/
def columnPercentage (columns done : Nat) : α :=
  if done = 0 then 40 else 40 + 40 * Scalar.ofNat done / Scalar.ofNat (2 * columns)

/-- An arithmetic in which the milestones stand in their order. -/
class Graded (α : Type) [Scalar α] : Prop where
  trans : ∀ {a b c : α}, a ≤ b → b ≤ c → a ≤ c
  milestone : ∀ {a b : Nat}, a ∈ milestones → b ∈ milestones → a ≤ b →
    (Scalar.ofNat a : α) ≤ Scalar.ofNat b

/-- The percentages of two Jacobians with this many columns each stand in their order,
below the next milestone. -/
structure GradedColumns (α : Type) [Scalar α] (columns : Nat) : Prop where
  rises : ∀ {a b : Nat}, a ≤ b → b ≤ 2 * columns →
    (columnPercentage columns a : α) ≤ columnPercentage columns b
  last : columnPercentage columns (2 * columns) ≤ (85 : α)

/-! ## What a part of an analysis tells -/

/-- The way from one observation to another with the events told on it. -/
structure Stretch (react : AnalysisEvent α → Bool) (low high : α)
    (before after : Observation α) (told : List (AnalysisEvent α)) : Prop where
  rises : low ≤ high
  events_eq : after.events = before.events ++ told
  ascending : told.Pairwise fun earlier later => earlier.percentage ≤ later.percentage
  within : ∀ event ∈ told, low ≤ event.percentage ∧ event.percentage ≤ high
  isEarly : ∀ event ∈ told, event.stage ∈ AnalysisStage.early
  halts : before.control.cancelled = true → told = [] ∧ after.control.cancelled = true
  heeds : ∀ {earlier event later}, told = earlier ++ event :: later → react event = true →
    later = [] ∧ after.control.cancelled = true

/-- Whatever it starts from, a part of an analysis goes such a way. -/
def Runs (react : AnalysisEvent α → Bool) (low high : α) (part : Observed α β) : Prop :=
  ∀ before, ∃ told, Stretch react low high before (part.run.run before).2 told

variable {react : AnalysisEvent α → Bool} {low middle high : α}
  {before between after observation : Observation α} {told more : List (AnalysisEvent α)}

theorem Stretch.of_silent (hrises : low ≤ high) (hevents : after.events = before.events)
    (hcancelled : before.control.cancelled = true → after.control.cancelled = true) :
    Stretch react low high before after [] where
  rises := hrises
  events_eq := by rw [hevents, List.append_nil]
  ascending := .nil
  within := List.forall_mem_nil _
  isEarly := List.forall_mem_nil _
  halts hbefore := ⟨rfl, hcancelled hbefore⟩
  heeds heq := by simp at heq

theorem stretch_look (hrises : low ≤ high) :
    Stretch react low high observation observation.look.2 [] := by
  refine .of_silent hrises rfl fun hcancelled => ?_
  simp [Observation.look, Control.look, hcancelled]

theorem stretch_tell {event : AnalysisEvent α} (hactive : observation.control.cancelled = false)
    (hlow : low ≤ event.percentage) (hhigh : event.percentage ≤ high) (hrises : low ≤ high)
    (hearly : event.stage ∈ AnalysisStage.early) :
    Stretch react low high observation (observation.tell react event) [event] where
  rises := hrises
  events_eq := rfl
  ascending := List.pairwise_singleton _ _
  within := by simpa using ⟨hlow, hhigh⟩
  isEarly := by simpa using hearly
  halts hcancelled := by simp [hactive] at hcancelled
  heeds := by
    intro earlier other later heq hreact
    obtain ⟨rfl, rfl, rfl⟩ : earlier = [] ∧ other = event ∧ later = [] := by
      simpa [List.singleton_eq_append_iff] using heq
    simp [Observation.tell, hreact, Control.cancel]

theorem Runs.pure (hrises : low ≤ high) (result : β) :
    Runs react low high (Pure.pure result : Observed α β) :=
  fun _ => ⟨[], .of_silent hrises rfl id⟩

theorem Runs.swept {sweep : Observation α → Except (JacobianError α) β × Observation α}
    (hsweep : ∀ before, ∃ told, Stretch react low high before (sweep before).2 told) :
    Runs react low high (Analyzer.swept sweep) := by
  intro before
  rw [run_swept]
  exact hsweep before

theorem Runs.orThrow (hrises : low ≤ high) (result : Except (EvalError α) β) :
    Runs react low high (Analyzer.orThrow result) := by
  cases result with
  | ok value => exact .pure hrises value
  | error cause => exact fun before => ⟨[], .of_silent hrises rfl id⟩

variable [Graded α]

theorem Stretch.trans (hfirst : Stretch react low middle before between told)
    (hsecond : Stretch react middle high between after more) :
    Stretch react low high before after (told ++ more) where
  rises := Graded.trans hfirst.rises hsecond.rises
  events_eq := by rw [hsecond.events_eq, hfirst.events_eq, List.append_assoc]
  ascending := by
    rw [List.pairwise_append]
    refine ⟨hfirst.ascending, hsecond.ascending, fun earlier hearlier later hlater => ?_⟩
    exact Graded.trans (hfirst.within earlier hearlier).2 (hsecond.within later hlater).1
  within event hevent := by
    rcases List.mem_append.mp hevent with hmem | hmem
    · have hbounds := hfirst.within event hmem
      exact ⟨hbounds.1, Graded.trans hbounds.2 hsecond.rises⟩
    · have hbounds := hsecond.within event hmem
      exact ⟨Graded.trans hfirst.rises hbounds.1, hbounds.2⟩
  isEarly event hevent := by
    rcases List.mem_append.mp hevent with hmem | hmem
    · exact hfirst.isEarly event hmem
    · exact hsecond.isEarly event hmem
  halts hbefore := by
    rcases hfirst.halts hbefore with ⟨rfl, hbetween⟩
    exact hsecond.halts hbetween
  heeds := by
    intro earlier event later heq hreact
    rcases List.append_eq_append_iff.mp heq with ⟨rest, -, hmore⟩ | ⟨rest, htold, hlater⟩
    · exact hsecond.heeds hmore hreact
    · cases rest with
      | nil =>
          have hmore : more = [] ++ event :: later := hlater.symm
          exact hsecond.heeds hmore hreact
      | cons head rest =>
          obtain ⟨rfl, rfl⟩ := List.cons.inj hlater
          rcases hfirst.heeds htold hreact with ⟨rfl, hbetween⟩
          rcases hsecond.halts hbetween with ⟨rfl, hafter⟩
          exact ⟨rfl, hafter⟩

theorem Runs.bind (hrises : middle ≤ high) {part : Observed α β} {next : β → Observed α γ}
    (hpart : Runs react low middle part) (hnext : ∀ result, Runs react middle high (next result)) :
    Runs react low high (part >>= next) := by
  intro before
  rcases hpart before with ⟨told, htold⟩
  rcases hran : part.run.run before with ⟨outcome, between⟩
  rw [hran] at htold
  rw [run_bind, hran]
  cases outcome with
  | ok result =>
      rcases hnext result between with ⟨more, hmore⟩
      exact ⟨told ++ more, htold.trans hmore⟩
  | error cause => exact ⟨told ++ [], htold.trans (.of_silent hrises rfl id)⟩

theorem Runs.widen {part : Observed α β} {lower higher : α} (hpart : Runs react low high part)
    (hlower : lower ≤ low) (hhigher : high ≤ higher) : Runs react lower higher part := by
  intro before
  rcases hpart before with ⟨told, htold⟩
  refine ⟨told, { htold with rises := ?_, within := fun event hevent => ?_ }⟩
  · exact Graded.trans hlower (Graded.trans htold.rises hhigher)
  · have hbounds := htold.within event hevent
    exact ⟨Graded.trans hlower hbounds.1, Graded.trans hbounds.2 hhigher⟩

theorem Runs.enter {stage : AnalysisStage} {percentage : α} {message : String}
    (hself : percentage ≤ percentage) (hearly : stage ∈ AnalysisStage.early) :
    Runs react percentage percentage (Analyzer.enter react stage percentage message) := by
  intro before
  have hlook : Stretch react percentage percentage before before.look.2 [] := stretch_look hself
  rw [run_enter]
  split
  · next hactive =>
      have htell : Stretch react percentage percentage before.look.2
          (before.look.2.tell react ⟨stage, percentage, message⟩) [⟨stage, percentage, message⟩] :=
        stretch_tell (not_cancelled_of_look hactive) hself hself hself hearly
      exact ⟨_, hlook.trans htell⟩
  · exact ⟨[], hlook⟩

omit [Graded α] in
/-- A supervisor looks at the control before each of `total` moves, and when `done + 1` of
them are done it tells only events between the grades of `done` and `done + 1`. -/
structure Accompanies (react : AnalysisEvent α → Bool)
    (supervisor : Supervisor (Observation α)) (grade : Nat → α) (total : Nat) : Prop where
  proceed_eq : supervisor.proceed = Observation.look
  rises : ∀ {a b}, a ≤ b → b ≤ total → grade a ≤ grade b
  completed : ∀ {done observation}, done < total → observation.control.cancelled = false →
    ∃ told, Stretch react (grade done) (grade (done + 1)) observation
      (supervisor.completed (done + 1) total observation) told

/-- Induction on the moves: what is still told lies above the grade of those that are
done. -/
theorem Accompanies.sweep {supervisor : Supervisor (Observation α)} {grade : Nat → α}
    {total : Nat} (haccompanies : Accompanies react supervisor grade total) (probe : Probe α)
    (perturbation : Perturbation α) (readOff : Move α → List α → β) {moves : List (Move α)}
    {finished : Nat} (htotal : finished + moves.length = total) (scratch : Scratch α)
    (before : Observation α) :
    ∃ told, Stretch react (grade finished) (grade total) before
      (Probe.sweep supervisor probe perturbation readOff finished total scratch moves before).2
      told := by
  have hrises : grade finished ≤ grade total := haccompanies.rises (by omega) le_rfl
  induction moves generalizing finished scratch before with
  | nil => exact ⟨[], .of_silent hrises rfl id⟩
  | cons move rest ih =>
      rw [List.length_cons] at htotal
      have hself : grade finished ≤ grade finished := haccompanies.rises le_rfl (by omega)
      have hlook : Stretch react (grade finished) (grade finished) before before.look.2 [] :=
        stretch_look hself
      unfold Probe.sweep
      rw [haccompanies.proceed_eq]
      rcases heq : before.look with ⟨active, between⟩
      rw [heq] at hlook
      have hstop : ∃ told, Stretch react (grade finished) (grade total) before between told :=
        ⟨_, hlook.trans (.of_silent hrises rfl id)⟩
      cases active with
      | false => exact hstop
      | true =>
          have hactive : between.control.cancelled = false := by
            have hafter : before.look.2.control.cancelled = false :=
              not_cancelled_of_look (by rw [heq])
            rwa [heq] at hafter
          have hnext : finished < total := by omega
          simp only
          rcases scratch.evaluate probe.system probe.time perturbation move.coordinate
            move.distance with ⟨failure, moved⟩
          cases failure with
          | some cause => exact hstop
          | none =>
              rcases haccompanies.completed hnext hactive with ⟨told, htold⟩
              rcases ih (by omega) moved (supervisor.completed (finished + 1) total between)
                (haccompanies.rises hnext le_rfl) with ⟨more, hmore⟩
              have hall := (hlook.trans htold).trans hmore
              rcases hrest : Probe.sweep supervisor probe perturbation readOff (finished + 1) total
                moved rest (supervisor.completed (finished + 1) total between) with ⟨outcome, after⟩
              rw [hrest] at hall
              simp only [hrest]
              cases outcome with
              | ok others => exact ⟨_, hall⟩
              | error cause => exact ⟨_, hall⟩

omit [Graded α] in
theorem quiet_accompanies {percentage : α} (hself : percentage ≤ percentage) (total : Nat) :
    Accompanies react (quiet (α := α)) (fun _ => percentage) total where
  proceed_eq := rfl
  rises _ _ := hself
  completed _ _ := ⟨[], .of_silent hself rfl id⟩

omit [Graded α] in
theorem jacobianProgress_accompanies {columns done : Nat} (hcolumns : GradedColumns α columns)
    (hdone : done ≤ columns) :
    Accompanies react (jacobianProgress react done)
      (fun finished => columnPercentage columns (done + finished)) columns where
  proceed_eq := rfl
  rises hle hlast := hcolumns.rises (by omega) (by omega)
  completed {finished _} hnext hactive := by
    have htold : columnPercentage columns (done + (finished + 1)) =
        (40 + 40 * Scalar.ofNat (done + (finished + 1)) / Scalar.ofNat (2 * columns) : α) :=
      if_neg (Nat.succ_ne_zero _)
    have hrises := hcolumns.rises (Nat.le_succ (done + finished)) (by omega)
    have hself := hcolumns.rises (le_refl (done + finished + 1)) (by omega)
    rw [← add_assoc] at htold
    rw [htold] at hrises hself
    rw [← add_assoc, htold]
    exact ⟨_, stretch_tell hactive hrises hself hrises (by simp [AnalysisStage.early])⟩

theorem Runs.sensitivity {percentage : α} (hself : percentage ≤ percentage) (probe : Probe α)
    (perturbation : Perturbation α) (h : α) :
    Runs react percentage percentage
      (Analyzer.swept (probe.sensitivity quiet perturbation h)) := by
  refine .swept fun before => ?_
  unfold Probe.sensitivity
  cases probe.residual with
  | error cause => exact ⟨[], .of_silent hself rfl id⟩
  | ok base =>
      exact (quiet_accompanies hself probe.system.dimension).sweep probe perturbation _
        (by simp) _ before

theorem Runs.square (probe : Probe α) {base : List α} (hcolumns : GradedColumns α base.length)
    {done : Nat} (hdone : done ≤ base.length) (perturbation : Perturbation α) (h : α) :
    Runs react (columnPercentage base.length done)
      (columnPercentage base.length (done + base.length))
      (Analyzer.swept (probe.square (jacobianProgress react done) base perturbation h)) := by
  refine .swept fun before => ?_
  unfold Probe.square Probe.columns
  split
  · exact ⟨[], .of_silent (hcolumns.rises (by omega) (by omega)) rfl id⟩
  · have hmoves : 0 + ((List.range base.length).map fun j =>
        (⟨j, (List.replicate base.length h).getD j 0⟩ : Move α)).length = base.length := by
      simp
    rw [List.length_range]
    exact (jacobianProgress_accompanies hcolumns hdone).sweep probe perturbation _ hmoves _ before

/-! ## The stages -/

variable {probe : Probe α}

theorem Runs.jacobians
    (hprobe : ∀ {base}, probe.residual = .ok base → GradedColumns α base.length) (h : α) :
    Runs react 40 85 (Analyzer.jacobians react probe h) := by
  unfold Analyzer.jacobians
  cases hbase : probe.residual with
  | error cause => exact .pure (Graded.milestone (by decide) (by decide) (by decide)) _
  | ok base =>
      have hcolumns := hprobe hbase
      have hstart : (40 : α) ≤ columnPercentage base.length 0 :=
        Graded.milestone (by decide) (by decide) le_rfl
      have hhalf : (columnPercentage base.length (0 + base.length) : α) ≤ 85 :=
        Graded.trans (hcolumns.rises (by omega) le_rfl) hcolumns.last
      have hend : (columnPercentage base.length (base.length + base.length) : α) ≤ 85 :=
        Graded.trans (hcolumns.rises (by omega) le_rfl) hcolumns.last
      have hself : (85 : α) ≤ 85 := Graded.milestone (by decide) (by decide) le_rfl
      refine Runs.widen (.bind hhalf (.square probe hcolumns (Nat.zero_le _) .state h)
        fun states => ?_) hstart hself
      cases states with
      | error cause => exact .pure hhalf _
      | ok fy =>
          have hrates : Runs react (columnPercentage base.length (0 + base.length))
              (columnPercentage base.length (base.length + base.length))
              (Analyzer.swept
                (probe.square (jacobianProgress react base.length) base .derivative h)) := by
            rw [Nat.zero_add]
            exact .square probe hcolumns le_rfl .derivative h
          refine .bind hend hrates fun rates => ?_
          cases rates with
          | error cause => exact .pure hend _
          | ok fyp => exact .pure hend _

theorem Runs.spectrum (settings : AnalyzerSettings α)
    (hprobe : ∀ {base}, probe.residual = .ok base → GradedColumns α base.length)
    (algebraic : List Bool) :
    Runs react 40 85 (Analyzer.spectrum settings react probe algebraic) := by
  have hself : (85 : α) ≤ 85 := Graded.milestone (by decide) (by decide) le_rfl
  unfold Analyzer.spectrum
  refine .bind hself (.jacobians hprobe _) fun outcome => ?_
  cases outcome with
  | error cause => exact .pure hself _
  | ok columns =>
      rcases columns with ⟨fy, fyp⟩
      exact .bind hself (.enter hself (by decide)) fun _ => .pure hself _

omit [Graded α] in
/-- The events of an analysis that gets to its end. -/
def closing : List (AnalysisEvent α) :=
  [⟨.decomposition, 95, "Decomposing system structure"⟩, ⟨.complete, 100, "Analysis complete"⟩]

omit [Graded α] in
/-- An analysis fails and tells no more, or it has not been cancelled and gets to its
end. -/
inductive Ends (between : Observation α) :
    Except (AnalysisError α) (Analysis α) × Observation α → Prop where
  | failed (cause : AnalysisError α) : Ends between (.error cause, between)
  | completed (analysis : Analysis α) {after : Observation α}
      (hactive : between.control.cancelled = false)
      (hevents : after.events = between.events ++ closing) : Ends between (.ok analysis, after)

omit [Graded α] in
/-- From a percentage on, the events up to the end of an analysis. -/
def Finishes (react : AnalysisEvent α → Bool) (low : α) (part : Observed α (Analysis α)) : Prop :=
  ∀ before, ∃ between told, Stretch react low 85 before between told ∧
    Ends between (part.run.run before)

theorem Finishes.bind {part : Observed α β} {next : β → Observed α (Analysis α)}
    (hrises : middle ≤ 85) (hpart : Runs react low middle part)
    (hnext : ∀ result, Finishes react middle (next result)) :
    Finishes react low (part >>= next) := by
  intro before
  rcases hpart before with ⟨told, htold⟩
  rcases hran : part.run.run before with ⟨outcome, between⟩
  rw [hran] at htold
  rw [run_bind, hran]
  cases outcome with
  | ok result =>
      rcases hnext result between with ⟨last, more, hmore, hends⟩
      exact ⟨last, told ++ more, htold.trans hmore, hends⟩
  | error cause =>
      exact ⟨between, told ++ [], htold.trans (.of_silent hrises rfl id), .failed cause⟩

omit [Graded α] in
theorem finishes_closing (hself : (85 : α) ≤ 85) (analysis : Analysis α) :
    Finishes react 85 (do
      enter react .decomposition 95 "Decomposing system structure"
      tell react .complete 100 "Analysis complete"
      return analysis) := by
  intro before
  refine ⟨before.look.2, [], stretch_look hself, ?_⟩
  rw [run_bind, run_enter]
  by_cases hactive : before.look.1 = true
  · rw [if_pos hactive]
    refine .completed analysis (not_cancelled_of_look hactive) ?_
    exact List.append_assoc _ _ _
  · rw [if_neg hactive]
    exact .failed .cancelled

theorem stages_finishes (settings : AnalyzerSettings α)
    (hprobe : ∀ {base}, probe.residual = .ok base → GradedColumns α base.length) :
    Finishes react 0 (stages settings react probe) := by
  have hmilestone : ∀ {a b : Nat}, a ∈ milestones → b ∈ milestones → a ≤ b →
      (Scalar.ofNat a : α) ≤ Scalar.ofNat b := Graded.milestone
  have h0 : (0 : α) ≤ 0 := hmilestone (by decide) (by decide) (by decide)
  have h20 : (20 : α) ≤ 20 := hmilestone (by decide) (by decide) (by decide)
  have h30 : (30 : α) ≤ 30 := hmilestone (by decide) (by decide) (by decide)
  have h40 : (40 : α) ≤ 40 := hmilestone (by decide) (by decide) (by decide)
  have h85 : (85 : α) ≤ 85 := hmilestone (by decide) (by decide) (by decide)
  have to20 : (0 : α) ≤ 20 := hmilestone (by decide) (by decide) (by decide)
  have to30 : (20 : α) ≤ 30 := hmilestone (by decide) (by decide) (by decide)
  have to40 : (30 : α) ≤ 40 := hmilestone (by decide) (by decide) (by decide)
  have to85 : ∀ {a : Nat}, a ∈ milestones → a ≤ 85 → (Scalar.ofNat a : α) ≤ 85 :=
    fun ha hle => hmilestone ha (by decide) hle
  unfold stages
  refine .bind (to85 (by decide) (by decide)) (.enter h0 (by decide)) fun _ => ?_
  refine .bind (to85 (by decide) (by decide)) (.sensitivity h0 _ _ _) fun _ => ?_
  refine .bind (to85 (by decide) (by decide)) (.orThrow to20 _) fun _ => ?_
  refine .bind (to85 (by decide) (by decide)) (.enter h20 (by decide)) fun _ => ?_
  refine .bind (to85 (by decide) (by decide)) (.orThrow to30 _) fun algebraic => ?_
  refine .bind (to85 (by decide) (by decide)) (.enter h30 (by decide)) fun _ => ?_
  refine .bind (to85 (by decide) (by decide)) (.sensitivity h30 _ _ _) fun _ => ?_
  refine .bind (to85 (by decide) (by decide)) (.orThrow to40 _) fun _ => ?_
  refine .bind (to85 (by decide) (by decide)) (.enter h40 (by decide)) fun _ => ?_
  refine .bind h85 (.spectrum settings hprobe algebraic) ?_
  rintro ⟨conditioning, eigenvalues⟩
  exact finishes_closing h85 _

/-! ## The run of an analysis -/

omit [Graded α] in
/-- What the events of an analysis say, and what a cancellation does to it. -/
structure Reports (react : AnalysisEvent α → Bool) (control : Control)
    (outcome : Except (AnalysisError α) (Analysis α) × Observation α) : Prop where
  ascending : outcome.2.events.Pairwise fun earlier later => earlier.percentage ≤ later.percentage
  within : ∀ event ∈ outcome.2.events, 0 ≤ event.percentage ∧ event.percentage ≤ 100
  complete_iff : (∃ analysis, outcome.1 = .ok analysis) ↔
    ∃ message, outcome.2.events.getLast? = some ⟨.complete, 100, message⟩
  halts : control.cancelled = true →
    outcome.2.events = [] ∧ ∃ cause, outcome.1 = .error cause
  heeds : ∀ {earlier event later}, outcome.2.events = earlier ++ event :: later →
    event.stage ∈ AnalysisStage.early → react event = true →
    later = [] ∧ ∃ cause, outcome.1 = .error cause

omit [Graded α] in
theorem Reports.of_error {control : Control} (cause : AnalysisError α) :
    Reports react control (.error cause, ⟨control, []⟩) where
  ascending := .nil
  within := List.forall_mem_nil _
  complete_iff := by simp
  halts _ := ⟨rfl, cause, rfl⟩
  heeds heq := by simp at heq

omit [Graded α] in
theorem Stretch.before_complete (htold : Stretch react low high before after told)
    {message : String} : told.getLast? ≠ some ⟨.complete, 100, message⟩ := by
  intro hlast
  have hearly := htold.isEarly _ (List.mem_of_getLast? hlast)
  simp [AnalysisStage.early] at hearly

theorem Stretch.within_all (htold : Stretch react 0 85 before after told) :
    ∀ event ∈ told, 0 ≤ event.percentage ∧ event.percentage ≤ 100 := fun event hevent =>
  have hbounds := htold.within event hevent
  ⟨hbounds.1, Graded.trans hbounds.2 (Graded.milestone (by decide) (by decide) (by decide))⟩

theorem Reports.of_failed {control : Control}
    (htold : Stretch react 0 85 ⟨control, []⟩ after told) (cause : AnalysisError α) :
    Reports react control (.error cause, after) := by
  have hevents : after.events = told := htold.events_eq
  refine ⟨hevents ▸ htold.ascending, hevents ▸ htold.within_all, ⟨?_, ?_⟩, ?_, ?_⟩
  · rintro ⟨analysis, hok⟩
    cases hok
  · rintro ⟨message, hlast⟩
    exact (htold.before_complete (hevents ▸ hlast)).elim
  · intro hcancelled
    exact ⟨hevents.trans (htold.halts hcancelled).1, cause, rfl⟩
  · intro earlier event later heq _ hreact
    exact ⟨(htold.heeds (hevents ▸ heq) hreact).1, cause, rfl⟩

theorem mem_closing {event : AnalysisEvent α} (hevent : event ∈ closing) :
    85 ≤ event.percentage ∧ event.percentage ≤ 100 ∧ event.stage ∉ AnalysisStage.early := by
  have h95 : (85 : α) ≤ 95 := Graded.milestone (by decide) (by decide) (by decide)
  have h100 : (95 : α) ≤ 100 := Graded.milestone (by decide) (by decide) (by decide)
  have hself : (100 : α) ≤ 100 := Graded.milestone (by decide) (by decide) (by decide)
  rw [closing, List.mem_pair] at hevent
  rcases hevent with rfl | rfl
  · exact ⟨h95, h100, by simp [AnalysisStage.early]⟩
  · exact ⟨Graded.trans h95 h100, hself, by simp [AnalysisStage.early]⟩

/-- An early event is none of the last two, and nothing is told after it. -/
theorem Stretch.not_react (htold : Stretch react 0 85 before between told)
    (hactive : between.control.cancelled = false) {earlier later : List (AnalysisEvent α)}
    {event : AnalysisEvent α} (heq : told ++ closing = earlier ++ event :: later)
    (hearly : event.stage ∈ AnalysisStage.early) : react event ≠ true := by
  intro hreact
  have htail : event ∉ closing := fun hmem => (mem_closing hmem).2.2 hearly
  rcases List.append_eq_append_iff.mp heq with ⟨rest, -, hrest⟩ | ⟨rest, hrest, hlater⟩
  · exact htail (hrest ▸ List.mem_append_right rest List.mem_cons_self)
  · cases rest with
    | nil =>
        have hmem : event ∈ [] ++ closing := hlater ▸ List.mem_cons_self
        exact htail hmem
    | cons head rest =>
        obtain ⟨rfl, -⟩ := List.cons.inj hlater
        rw [(htold.heeds hrest hreact).2] at hactive
        cases hactive

theorem Reports.of_completed {control : Control}
    (htold : Stretch react 0 85 ⟨control, []⟩ between told)
    (hactive : between.control.cancelled = false) (hafter : after.events = between.events ++ closing)
    (analysis : Analysis α) : Reports react control (.ok analysis, after) := by
  have hevents : after.events = told ++ closing := by
    rw [hafter, htold.events_eq, List.nil_append]
  have h100 : (95 : α) ≤ 100 := Graded.milestone (by decide) (by decide) (by decide)
  refine ⟨?_, ?_, ⟨fun _ => ?_, fun _ => ⟨analysis, rfl⟩⟩, ?_, ?_⟩
  · rw [hevents, List.pairwise_append]
    refine ⟨htold.ascending, by simp [closing, h100], fun earlier hearlier later hlater => ?_⟩
    exact Graded.trans (htold.within earlier hearlier).2 (mem_closing hlater).1
  · intro event hevent
    rw [hevents, List.mem_append] at hevent
    rcases hevent with hmem | hmem
    · exact htold.within_all event hmem
    · exact ⟨Graded.trans htold.rises (mem_closing hmem).1, (mem_closing hmem).2.1⟩
  · exact ⟨"Analysis complete", by simp [hevents, closing]⟩
  · intro hcancelled
    rw [(htold.halts hcancelled).2] at hactive
    cases hactive
  · intro earlier event later heq hearly hreact
    exact (htold.not_react hactive (hevents ▸ heq) hearly hreact).elim

theorem Reports.of_finishes {control : Control} {part : Observed α (Analysis α)}
    (hpart : Finishes react 0 part) : Reports react control (part.run.run ⟨control, []⟩) := by
  rcases hpart ⟨control, []⟩ with ⟨between, told, htold, hends⟩
  generalize part.run.run ⟨control, []⟩ = outcome at hends
  cases hends with
  | failed cause => exact .of_failed htold cause
  | completed analysis hactive hafter => exact .of_completed htold hactive hafter analysis

/-- Nothing is assumed of the residual but that two Jacobians with as many columns as it
has rows have percentages in their order. -/
theorem run_reports (settings : AnalyzerSettings α) (system : ResidualSystem α) (state : List α)
    (time : α) (control : Control)
    (hsystem : ∀ {base}, state.length = system.dimension →
      system.evaluate time state (List.replicate system.dimension 0) = .ok base →
      GradedColumns α base.length) :
    Reports react control (run settings react system state time control) := by
  unfold run
  simp only
  split
  · exact .of_error _
  · split
    · exact .of_error _
    · next hlength => exact .of_finishes (stages_finishes settings (hsystem (not_not.mp hlength)))

end Analyzer

end ImplicitDynamics
