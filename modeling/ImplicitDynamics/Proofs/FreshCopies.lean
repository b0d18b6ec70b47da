import ImplicitDynamics.Proofs.CompiledSystems
import ImplicitDynamics.Proofs.Sweeps

/-!
# Differences from fresh copies

The moves of a sweep share one point and one buffer.  As each is taken back, and
a residual that succeeds has written every row anew, the sweep might as well
have copied the probed point for each of its moves and evaluated the residual
there.  This holds in every arithmetic, so not a bit of a column, of a pattern or
of a classification depends on what was done before.  A sweep ends at the first
move whose residual fails, after it has reported the moves before.
-/

namespace ImplicitDynamics

variable {α σ β : Type} [Scalar α]

namespace Probe

/-- A copy of a probe with one coordinate moved. -/
def displaced (probe : Probe α) (perturbation : Perturbation α) (move : Move α) : Probe α :=
  match perturbation with
  | .state => { probe with state := probe.state.modify move.coordinate (· + move.distance) }
  | .derivative =>
    { probe with derivatives := probe.derivatives.modify move.coordinate (· + move.distance) }
  | .combined weight =>
    { probe with
      state := probe.state.modify move.coordinate (· + move.distance)
      derivatives := probe.derivatives.modify move.coordinate (· + weight * move.distance) }

/-- What is read off each move, from a copy of its own. -/
def copies (probe : Probe α) (perturbation : Perturbation α) (readOff : Move α → List α → β)
    (moves : List (Move α)) : Except (EvalError α) (List β) :=
  moves.mapM fun move => (probe.displaced perturbation move).residual.map (readOff move)

/-- The number of moves before the first whose residual fails. -/
def passed (probe : Probe α) (perturbation : Perturbation α) (moves : List (Move α)) : Nat :=
  (moves.takeWhile fun move => (probe.displaced perturbation move).residual.isOk).length

end Probe

/-- A supervisor that lets a computation go on and hands over its reports. -/
def Supervisor.reporting (report : Nat → Nat → σ → σ) : Supervisor σ where
  proceed s := (true, s)
  completed := report

/-- The reports that so many of `total` moves are done, for these numbers. -/
def Supervisor.told (report : Nat → Nat → σ → σ) (total : Nat) (counts : List Nat) (s : σ) : σ :=
  counts.foldl (fun s done => report done total s) s

variable {probe : Probe α} {perturbation : Perturbation α} {readOff : Move α → List α → β}
  {report : Nat → Nat → σ → σ}

theorem ResidualSystem.IgnoresBuffer.outcome_written (hsystem : probe.system.IgnoresBuffer)
    (perturbation : Perturbation α) (move : Move α) {out : List α}
    (hout : out.length = probe.system.dimension) :
    (probe.written perturbation move out).outcome =
      (probe.displaced perturbation move).residual := by
  cases perturbation <;> exact hsystem.outcome hout

namespace Probe

theorem copies_cons_of_ok {move : Move α} {after : List α}
    (hafter : (probe.displaced perturbation move).residual = .ok after) (rest : List (Move α)) :
    probe.copies perturbation readOff (move :: rest) =
      (probe.copies perturbation readOff rest).map (readOff move after :: ·) := by
  unfold copies
  rw [List.mapM_cons, hafter]
  cases rest.mapM fun move => (probe.displaced perturbation move).residual.map (readOff move) <;>
    rfl

theorem copies_cons_of_error {move : Move α} {cause : EvalError α}
    (hcause : (probe.displaced perturbation move).residual = .error cause)
    (rest : List (Move α)) :
    probe.copies perturbation readOff (move :: rest) = .error cause := by
  rw [copies, List.mapM_cons, hcause]
  rfl

theorem passed_cons_of_ok {move : Move α} {after : List α}
    (hafter : (probe.displaced perturbation move).residual = .ok after) (rest : List (Move α)) :
    probe.passed perturbation (move :: rest) = probe.passed perturbation rest + 1 := by
  rw [passed, List.takeWhile_cons, hafter]
  rfl

theorem passed_cons_of_error {move : Move α} {cause : EvalError α}
    (hcause : (probe.displaced perturbation move).residual = .error cause)
    (rest : List (Move α)) : probe.passed perturbation (move :: rest) = 0 := by
  rw [passed, List.takeWhile_cons, hcause]
  rfl

theorem length_copies {moves : List (Move α)} {results : List β}
    (hcopies : probe.copies perturbation readOff moves = .ok results) :
    results.length = moves.length := by
  induction moves generalizing results with
  | nil =>
      cases hcopies
      rfl
  | cons move rest ih =>
      cases hresidual : (probe.displaced perturbation move).residual with
      | error cause =>
          rw [copies_cons_of_error hresidual] at hcopies
          cases hcopies
      | ok after =>
          rw [copies_cons_of_ok hresidual] at hcopies
          obtain ⟨others, hothers, rfl⟩ := map_eq_ok_iff.mp hcopies
          rw [List.length_cons, List.length_cons, ih hothers]

theorem copies_append_of_ok {first : List (Move α)} {results : List β}
    (hfirst : probe.copies perturbation readOff first = .ok results) (second : List (Move α)) :
    probe.copies perturbation readOff (first ++ second) =
        (probe.copies perturbation readOff second).map (results ++ ·) ∧
      probe.passed perturbation (first ++ second) =
        first.length + probe.passed perturbation second := by
  induction first generalizing results with
  | nil =>
      cases hfirst
      rw [List.nil_append]
      exact ⟨by cases probe.copies perturbation readOff second <;> rfl, (Nat.zero_add _).symm⟩
  | cons move rest ih =>
      cases hresidual : (probe.displaced perturbation move).residual with
      | error cause =>
          rw [copies_cons_of_error hresidual] at hfirst
          cases hfirst
      | ok after =>
          rw [copies_cons_of_ok hresidual] at hfirst
          obtain ⟨others, hothers, rfl⟩ := map_eq_ok_iff.mp hfirst
          obtain ⟨hcopies, hpassed⟩ := ih hothers
          rw [List.cons_append, copies_cons_of_ok hresidual, hcopies, passed_cons_of_ok hresidual,
            hpassed, List.length_cons]
          exact ⟨by cases probe.copies perturbation readOff second <;> rfl, by omega⟩

/-- A move from a scratch at the probed point gives what a copy gives, and the
scratch is at the probed point again. -/
theorem evaluate_copy (hsystem : probe.system.IgnoresBuffer) (perturbation : Perturbation α)
    (move : Move α) {out : List α} (hout : out.length = probe.system.dimension) :
    ∃ after, after.length = probe.system.dimension ∧
      ((probe.displaced perturbation move).residual = .ok after ∧
          (probe.on out).evaluate probe.system probe.time perturbation move.coordinate
            move.distance = (none, probe.on after) ∨
        ∃ cause, (probe.displaced perturbation move).residual = .error cause ∧
          (probe.on out).evaluate probe.system probe.time perturbation move.coordinate
            move.distance = (some cause, probe.on after)) := by
  have houtcome := hsystem.outcome_written perturbation move hout
  have hlength : (probe.written perturbation move out).out.length = probe.system.dimension :=
    (length_written hsystem.fillsBuffer move out).trans hout
  rw [evaluate_on]
  rcases hwritten : probe.written perturbation move out with ⟨after, _ | cause⟩ <;>
    rw [hwritten] at houtcome hlength
  · exact ⟨after, hlength, .inl ⟨houtcome.symm, rfl⟩⟩
  · exact ⟨after, hlength, .inr ⟨cause, houtcome.symm, rfl⟩⟩

/-- A sweep is as good as a copy of the probed point for each of its moves. -/
theorem sweep_eq_copies (hsystem : probe.system.IgnoresBuffer) (moves : List (Move α))
    {out : List α} (hout : out.length = probe.system.dimension) (finished total : Nat) (s : σ) :
    probe.sweep (.reporting report) perturbation readOff finished total (probe.on out) moves s =
      ((probe.copies perturbation readOff moves).mapError .evaluation,
        Supervisor.told report total
          (List.range' (finished + 1) (probe.passed perturbation moves)) s) := by
  induction moves generalizing out finished s with
  | nil => rfl
  | cons move rest ih =>
      obtain ⟨after, hafter, ⟨hok, hevaluate⟩ | ⟨cause, herror, hevaluate⟩⟩ :=
        evaluate_copy hsystem perturbation move hout
      · have hrest := ih hafter (finished + 1) (report (finished + 1) total s)
        rw [sweep, hevaluate]
        simp only [Supervisor.reporting] at hrest ⊢
        rw [hrest, copies_cons_of_ok hok, passed_cons_of_ok hok]
        cases probe.copies perturbation readOff rest <;> rfl
      · rw [sweep, hevaluate, copies_cons_of_error herror, passed_cons_of_error herror]
        rfl

/-- What the buffer holds at the start of a sweep does not matter. -/
theorem sweep_congr {supervisor : Supervisor σ} (hsystem : probe.system.IgnoresBuffer)
    (moves : List (Move α)) {out other : List α} (hout : out.length = probe.system.dimension)
    (hother : other.length = probe.system.dimension) (finished total : Nat) (s : σ) :
    probe.sweep supervisor perturbation readOff finished total (probe.on out) moves s =
      probe.sweep supervisor perturbation readOff finished total (probe.on other) moves s := by
  cases moves with
  | nil => rfl
  | cons move rest =>
      obtain ⟨after, -, hmoved⟩ := evaluate_copy hsystem perturbation move hout
      obtain ⟨after', -, hmoved'⟩ := evaluate_copy hsystem perturbation move hother
      rw [sweep, sweep]
      rcases hmoved with ⟨hok, hevaluate⟩ | ⟨cause, herror, hevaluate⟩ <;>
        rcases hmoved' with ⟨hok', hevaluate'⟩ | ⟨cause', herror', hevaluate'⟩
      · cases hok.symm.trans hok'
        rw [hevaluate, hevaluate']
      · cases hok.symm.trans herror'
      · cases herror.symm.trans hok'
      · cases herror.symm.trans herror'
        rw [hevaluate, hevaluate']

/-- A sweep may be interrupted and taken up again with another buffer. -/
theorem sweep_append {supervisor : Supervisor σ} (hsystem : probe.system.IgnoresBuffer)
    (first second : List (Move α)) {out other : List α}
    (hout : out.length = probe.system.dimension)
    (hother : other.length = probe.system.dimension) (finished total : Nat) (s : σ) :
    probe.sweep supervisor perturbation readOff finished total (probe.on out) (first ++ second) s =
      match probe.sweep supervisor perturbation readOff finished total (probe.on out) first s with
      | (.ok results, s) =>
        let swept := probe.sweep supervisor perturbation readOff (finished + first.length) total
          (probe.on other) second s
        (swept.1.map (results ++ ·), swept.2)
      | (.error cause, s) => (.error cause, s) := by
  induction first generalizing out finished s with
  | nil =>
      rw [List.nil_append, sweep_congr hsystem second hout hother, sweep]
      simp only [List.length_nil, Nat.add_zero]
      rcases probe.sweep supervisor perturbation readOff finished total (probe.on other) second s
        with ⟨_ | results, after⟩ <;> rfl
  | cons move rest ih =>
      obtain ⟨after, hafter, ⟨-, hevaluate⟩ | ⟨cause, -, hevaluate⟩⟩ :=
        evaluate_copy hsystem perturbation move hout <;> rw [List.cons_append, sweep, sweep]
      · rcases supervisor.proceed s with ⟨_ | _, looked⟩
        · rfl
        · simp only [hevaluate, ih hafter]
          rcases probe.sweep supervisor perturbation readOff (finished + 1) total (probe.on after)
            rest (supervisor.completed (finished + 1) total looked) with ⟨_ | results, told⟩
          · rfl
          · simp only [List.length_cons, Nat.add_assoc, Nat.add_comm 1]
            rcases probe.sweep supervisor perturbation readOff (finished + (rest.length + 1)) total
              (probe.on other) second told with ⟨_ | others, last⟩ <;> rfl
      · rcases supervisor.proceed s with ⟨_ | _, looked⟩
        · rfl
        · simp only [hevaluate]

theorem algebraicFlags_eq_copies (hsystem : probe.system.IgnoresBuffer) (base : List α) (h : α)
    (coordinates : List Nat) {out : List α} (hout : out.length = probe.system.dimension) :
    probe.algebraicFlags base h (probe.on out) coordinates =
      probe.copies .derivative (fun _ => unmoved base h) (coordinates.map fun j => ⟨j, h⟩) := by
  induction coordinates generalizing out with
  | nil => rfl
  | cons j rest ih =>
      rw [algebraicFlags, List.map_cons]
      obtain ⟨after, hafter, ⟨hok, hevaluate⟩ | ⟨cause, herror, hevaluate⟩⟩ :=
        evaluate_copy hsystem .derivative ⟨j, h⟩ hout
      · rw [hevaluate, copies_cons_of_ok hok, ← ih hafter]
        rfl
      · rw [hevaluate, copies_cons_of_error herror]

end Probe

end ImplicitDynamics
