import ImplicitDynamics.Proofs.Exact
import ImplicitDynamics.Proofs.SweepSchedules

/-!
# Columns, patterns and flags by several workers

However a sweep is divided and whoever does which part of it when, what it gives
is what copies of the probed point give.  Only a failure depends on the schedule:
each worker comes to the first failing move of its own share, and any of these
errors may be passed on, while reports tell how many moves are done and not
which.  Where the moves are too few to be divided, or are done from left to
right, the first failing move of all decides.
-/

namespace ImplicitDynamics

variable {α β σ : Type} [Scalar α]

namespace Probe

variable {probe : Probe α} {perturbation : Perturbation α} {readOff : Move α → List α → β}

end Probe

namespace Sweep

variable {sweep : Sweep α β} {supervisor : Supervisor σ} {schedule : Schedule α}
  {parts : List (List (Move α))} {answer : Except (JacobianError α) (List β)} {s s' : σ}

theorem EndsBy.copies_of_ok {results : List β} (hregular : sweep.Regular)
    (hends : sweep.EndsBy supervisor schedule s (.ok results) s') :
    sweep.copies sweep.moves = .ok results := by
  obtain ⟨⟨hflatten, -⟩, hfinished, hanswer, -⟩ := hends
  have hsound := Pool.sound_run hregular supervisor schedule.shares schedule.turns s
  obtain ⟨hnone, rfl⟩ := Pool.ok_mem_answers_iff.mp hanswer
  have hcopies := Pool.copies_flatten fun share hshare =>
    (hsound.shares share hshare).copies_of_exhausted
      (hsound.exhausted hfinished hnone share hshare)
  rwa [hsound.moves, hflatten] at hcopies

theorem EndsBy.refused (hregular : sweep.Regular)
    (hends : sweep.EndsBy supervisor schedule s (.error .cancelled) s') :
    ∃ s, (supervisor.proceed s).1 = false := by
  obtain ⟨-, -, hanswer, -⟩ := hends
  have hsound := Pool.sound_run hregular supervisor schedule.shares schedule.turns s
  obtain ⟨share, hshare, hphase⟩ := Pool.mem_errors_iff.mp (Pool.error_mem_answers_iff.mp hanswer)
  exact (hsound.shares share hshare).cancelled hphase

/-- The reports number the moves done, each number once, and there are no more of
them than moves before the failing ones. -/
theorem EndsBy.told {report : Nat → Nat → σ → σ} (hregular : sweep.Regular)
    (hends : sweep.EndsBy (.reporting report) schedule s answer s') :
    ∃ counts, counts.Perm (List.range' 1 counts.length) ∧
      s' = Supervisor.told report sweep.moves.length counts s ∧
      counts.length ≤ (schedule.shares.map sweep.passed).sum ∧
      ∀ results, answer = .ok results → counts.length = sweep.moves.length := by
  obtain ⟨-, hfinished, hanswer, rfl⟩ := id hends
  have hsound := Pool.sound_run hregular (.reporting report) schedule.shares schedule.turns s
  obtain ⟨counts, hperm, htold⟩ :=
    Pool.told_of_finished sweep schedule.shares schedule.turns report s hfinished
  have hlength := hperm.length_eq
  rw [List.length_range'] at hlength
  refine ⟨counts, by rwa [hlength], htold, ?_, ?_⟩
  · have hbound := List.sum_le_sum fun share hshare =>
      (hsound.shares share hshare).length_read_le
    rw [← Function.comp_def sweep.passed, ← List.map_map, hsound.moves] at hbound
    rwa [hlength]
  · rintro results rfl
    obtain ⟨-, hresults⟩ := Pool.ok_mem_answers_iff.mp hanswer
    have hmoves := Probe.length_copies (hends.copies_of_ok hregular)
    rw [hlength, ← hmoves, hresults, List.length_flatMap]

end Sweep

namespace Probe

variable {probe : Probe α}

/-- From left to right, and for any supervisor, the columns are those of the
sequential loop. -/
theorem ColumnsEnd.eq_columns {base increments : List α} {columns : List Nat}
    {perturbation : Perturbation α} {supervisor : Supervisor σ} {schedule : Schedule α} {s s' : σ}
    {answer : Except (JacobianError α) (List (List α))} (hsystem : probe.system.IgnoresBuffer)
    (hbase : base.length = probe.system.dimension)
    (hends : probe.ColumnsEnd base columns perturbation increments supervisor schedule s answer s')
    (horder : (probe.columnSweep base columns perturbation increments).InOrder supervisor schedule
      s) : probe.columns supervisor base columns perturbation increments s = (answer, s') := by
  unfold ColumnsEnd at hends
  unfold Probe.columns
  split at hends
  · next hnil =>
    rw [if_pos hnil, hends.1, hends.2]
  · next hbase' =>
    rw [if_neg hbase']
    have hregular : (probe.columnSweep base columns perturbation increments).Regular :=
      ⟨hsystem, hbase⟩
    have hswept := hends.eq_sweep hregular horder
    rw [← hswept, columnSweep, List.length_map]

theorem SensitivityEnds.eq_sensitivity {perturbation : Perturbation α} {h : α}
    {supervisor : Supervisor σ} {schedule : Schedule α} {s s' : σ} {base : List α}
    {answer : Except (JacobianError α) (List (List Bool))} (hsystem : probe.system.IgnoresBuffer)
    (hbase : probe.residual = .ok base)
    (hends : probe.SensitivityEnds perturbation h supervisor schedule s answer s')
    (horder : (probe.patternSweep base perturbation h).InOrder supervisor schedule s) :
    probe.sensitivity supervisor perturbation h s = (answer, s') := by
  rw [SensitivityEnds, hbase] at hends
  have hregular : (probe.patternSweep base perturbation h).Regular := ⟨hsystem, rfl⟩
  have hswept := hends.eq_sweep hregular horder
  rw [← hswept, sensitivity, hbase, patternSweep, length_allMoves]

theorem ClassifyEnds.eq_classify {h : α} {schedule : Schedule α} {base : List α}
    {flags : Except (EvalError α) (List Bool)} (hsystem : probe.system.IgnoresBuffer)
    (hbase : probe.residual = .ok base) (hends : probe.ClassifyEnds h schedule flags)
    (horder : (probe.flagSweep base h).InOrder ⟨fun s => (true, s), fun _ _ s => s⟩ schedule ()) :
    probe.classify h = flags := by
  rw [ClassifyEnds, hbase] at hends
  have hregular : (probe.flagSweep base h).Regular := ⟨hsystem, rfl⟩
  have hswept : ((probe.flagSweep base h).copies (probe.allMoves h)).mapError
      JacobianError.evaluation = flags.mapError JacobianError.evaluation :=
    congrArg Prod.fst ((hregular.sweep_eq_copies (fun _ _ s => s) _ ()).symm.trans
      (hends.eq_sweep hregular horder))
  have hflags : probe.classify h = (probe.flagSweep base h).copies (probe.allMoves h) := by
    rw [classify, hbase]
    exact algebraicFlags_eq_copies hsystem base h _ List.length_replicate
  rw [hflags]
  match (probe.flagSweep base h).copies (probe.allMoves h), flags, hswept with
  | .ok _, .ok _, rfl => rfl
  | .error _, .error _, rfl => rfl

end Probe

end ImplicitDynamics
