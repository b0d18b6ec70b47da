import ImplicitDynamics.Proofs.FreshCopies
import ImplicitDynamics.SharedSweep

/-!
# Workers of a shared sweep

What a worker does in one turn is said once, and what holds of a pool whatever
the schedule follows by induction over the turns.  What a worker has read off is
what copies of the probed point give for the moves that it has passed, and its
failure is that of the move after them.  The counts that have been reported or
are about to be are the first natural numbers.
-/

namespace ImplicitDynamics

variable {α β σ : Type}

namespace Share

variable {share : Share α β} {cause : JacobianError α}

theorem error?_eq_some_iff : share.error? = some cause ↔ share.phase = .failed cause := by
  unfold error?
  split
  · next hphase => rw [hphase, Option.some.injEq, Phase.failed.injEq]
  · next hphase => exact ⟨nofun, fun h => absurd h (hphase cause)⟩

theorem atRest_of_error (herror : share.error? = some cause) : share.AtRest :=
  .inr (.inl (Option.isSome_of_eq_some herror))

/-- A worker that has neither failed nor stopped is at rest only at the end of its
share. -/
theorem AtRest.exhausted (hrest : share.AtRest) (herror : share.error? = none)
    (hstopped : share.phase ≠ .stopped) : share.Exhausted := by
  rcases hrest with hexhausted | hsome | hphase
  · exact hexhausted
  · rw [herror] at hsome
    cases hsome
  · exact absurd hphase hstopped

theorem Exhausted.error?_eq_none (hshare : share.Exhausted) : share.error? = none := by
  rw [error?, hshare.1]

theorem split_of_current {move : Move α} (hmove : share.current? = some move) :
    ∃ rest, share.moves = share.moves.take share.read.length ++ move :: rest ∧
      share.moves.take (share.read.length + 1) =
        share.moves.take share.read.length ++ [move] := by
  obtain ⟨hlt, rfl⟩ := List.getElem?_eq_some_iff.mp hmove
  exact ⟨share.moves.drop (share.read.length + 1), by simp, by simp⟩

theorem stop_cases (share : Share α β) : share.stop = share ∨
    share.phase = .idle ∧ share.stop = { share with phase := .stopped } := by
  unfold stop
  split
  · next hphase _ => exact .inr ⟨hphase, rfl⟩
  · exact .inl rfl

variable [Scalar α] {sweep : Sweep α β} {supervisor : Supervisor σ} {ledger : Ledger σ}

/-- What a worker that is not at rest does in its turn. -/
inductive Step (sweep : Sweep α β) (supervisor : Supervisor σ) (share : Share α β)
    (ledger : Ledger σ) : Share α β → Ledger σ → Prop where
  | enter {move : Move α} {s : σ} (hphase : share.phase = .idle)
      (hmove : share.current? = some move)
      (hproceed : supervisor.proceed ledger.observer = (true, s)) :
      Step sweep supervisor share ledger { share with phase := .admitted move }
        { ledger with observer := s }
  | refuse {move : Move α} {s : σ} (hphase : share.phase = .idle)
      (hmove : share.current? = some move)
      (hproceed : supervisor.proceed ledger.observer = (false, s)) :
      Step sweep supervisor share ledger { share with phase := .failed .cancelled }
        { ledger with observer := s }
  | fail {move : Move α} {cause : EvalError α} {scratch : Scratch α}
      (hphase : share.phase = .admitted move)
      (hevaluate : share.scratch.evaluate sweep.probe.system sweep.probe.time
        sweep.perturbation move.coordinate move.distance = (some cause, scratch)) :
      Step sweep supervisor share ledger
        { share with scratch, phase := .failed (.evaluation cause) } ledger
  | evaluate {move : Move α} {scratch : Scratch α} (hphase : share.phase = .admitted move)
      (hevaluate : share.scratch.evaluate sweep.probe.system sweep.probe.time
        sweep.perturbation move.coordinate move.distance = (none, scratch)) :
      Step sweep supervisor share ledger
        { share with
          scratch
          read := share.read ++ [sweep.readOff move scratch.out]
          phase := .evaluated } ledger
  | count (hphase : share.phase = .evaluated) :
      Step sweep supervisor share ledger
        { share with phase := .counted (ledger.completed + 1) }
        { ledger with completed := ledger.completed + 1 }
  | report {done : Nat} (hphase : share.phase = .counted done) :
      Step sweep supervisor share ledger { share with phase := .idle }
        { ledger with
          observer := supervisor.completed done sweep.moves.length ledger.observer }

theorem work_of_atRest (hrest : share.AtRest) :
    share.work sweep supervisor ledger = (share, ledger) := by
  rcases hrest with ⟨hphase, hnone⟩ | herror | hphase
  · simp only [work, hphase, hnone]
  · obtain ⟨cause, hcause⟩ := Option.isSome_iff_exists.mp herror
    simp only [work, error?_eq_some_iff.mp hcause]
  · simp only [work, hphase]

theorem work_step (sweep : Sweep α β) (supervisor : Supervisor σ) (ledger : Ledger σ)
    (hwork : ¬ share.AtRest) :
    Step sweep supervisor share ledger (share.work sweep supervisor ledger).1
      (share.work sweep supervisor ledger).2 := by
  unfold work
  cases hphase : share.phase with
  | idle =>
      cases hmove : share.current? with
      | none => exact absurd (.inl ⟨hphase, hmove⟩) hwork
      | some move =>
          rcases hproceed : supervisor.proceed ledger.observer with ⟨_ | _, s⟩
          · exact .refuse hphase hmove hproceed
          · exact .enter hphase hmove hproceed
  | admitted move =>
      rcases hevaluate : share.scratch.evaluate sweep.probe.system sweep.probe.time
        sweep.perturbation move.coordinate move.distance with ⟨_ | cause, scratch⟩ <;>
        simp only [hevaluate]
      · exact .evaluate hphase hevaluate
      · exact .fail hphase hevaluate
  | evaluated => exact .count hphase
  | counted done => exact .report hphase
  | failed cause => exact absurd (atRest_of_error (error?_eq_some_iff.mpr hphase)) hwork
  | stopped => exact absurd (.inr (.inr hphase)) hwork

end Share

theorem exists_split {γ : Type} {items : List γ} {i : Nat} {item : γ}
    (hi : items[i]? = some item) :
    ∃ before after, items = before ++ item :: after ∧ before.length = i := by
  obtain ⟨hlt, rfl⟩ := List.getElem?_eq_some_iff.mp hi
  exact ⟨items.take i, items.drop (i + 1), by simp, by simp [hlt.le]⟩

namespace Pool

variable {pool : Pool σ α β} {cause : JacobianError α} {before after : List (Share α β)}
  {share : Share α β} {ledger : Ledger σ}

theorem mem_errors_iff :
    cause ∈ pool.errors ↔ ∃ share ∈ pool.shares, share.phase = .failed cause := by
  simp only [errors, List.mem_filterMap, Share.error?_eq_some_iff]

theorem ok_mem_answers_iff {results : List β} : .ok results ∈ pool.answers ↔
    pool.errors = [] ∧ results = pool.shares.flatMap (·.read) := by
  unfold answers
  split
  · next herrors => simp [herrors]
  · next hsome =>
    simp only [List.mem_map, reduceCtorEq, and_false, exists_false, false_iff, not_and]
    exact fun hnone => absurd hnone hsome

theorem error_mem_answers_iff : .error cause ∈ pool.answers ↔ cause ∈ pool.errors := by
  unfold answers
  split
  · next herrors => simp [herrors]
  · simp

theorem errors_split : errors (σ := σ) ⟨before ++ share :: after, ledger⟩ =
    before.filterMap Share.error? ++ share.error?.toList ++ after.filterMap Share.error? := by
  rw [errors, List.filterMap_append, List.filterMap_cons]
  cases share.error? <;> simp

variable [Scalar α] {sweep : Sweep α β} {supervisor : Supervisor σ}

/-- What a turn changes, if it changes anything. -/
inductive Step (sweep : Sweep α β) (supervisor : Supervisor σ) :
    Pool σ α β → Pool σ α β → Prop where
  | work (before : List (Share α β)) {share next : Share α β} (after : List (Share α β))
      {ledger ledger' : Ledger σ}
      (hstep : share.Step sweep supervisor ledger next ledger') :
      Step sweep supervisor ⟨before ++ share :: after, ledger⟩ ⟨before ++ next :: after, ledger'⟩
  | stop (before : List (Share α β)) {share : Share α β} (after : List (Share α β))
      {ledger : Ledger σ} (hphase : share.phase = .idle)
      (hfailed : errors (σ := σ) ⟨before ++ share :: after, ledger⟩ ≠ []) :
      Step sweep supervisor ⟨before ++ share :: after, ledger⟩
        ⟨before ++ { share with phase := .stopped } :: after, ledger⟩

theorem act_work (before : List (Share α β)) (share : Share α β) (after : List (Share α β))
    (ledger : Ledger σ) :
    act sweep supervisor ⟨before ++ share :: after, ledger⟩ (.work before.length) =
      ⟨before ++ (share.work sweep supervisor ledger).1 :: after,
        (share.work sweep supervisor ledger).2⟩ := by
  simp [act]

theorem act_stop (before : List (Share α β)) (share : Share α β) (after : List (Share α β))
    (ledger : Ledger σ) :
    act sweep supervisor ⟨before ++ share :: after, ledger⟩ (.stop before.length) =
      if (errors (σ := σ) ⟨before ++ share :: after, ledger⟩).isEmpty then
        ⟨before ++ share :: after, ledger⟩
      else ⟨before ++ share.stop :: after, ledger⟩ := by
  simp [act]

theorem act_step (pool : Pool σ α β) (turn : Turn) :
    pool.act sweep supervisor turn = pool ∨
      Step sweep supervisor pool (pool.act sweep supervisor turn) := by
  rcases pool with ⟨shares, ledger⟩
  cases turn with
  | work i =>
      cases hi : shares[i]? with
      | none => exact .inl (by simp only [act, hi])
      | some share =>
          obtain ⟨before, after, rfl, rfl⟩ := exists_split hi
          rw [act_work]
          by_cases hrest : share.AtRest
          · exact .inl (by rw [Share.work_of_atRest hrest])
          · exact .inr (.work before after (Share.work_step sweep supervisor ledger hrest))
  | stop i =>
      cases hi : shares[i]? with
      | none => exact .inl (by simp only [act, hi])
      | some share =>
          obtain ⟨before, after, rfl, rfl⟩ := exists_split hi
          rw [act_stop]
          split
          · exact .inl rfl
          · next hfailed =>
            rcases share.stop_cases with hsame | ⟨hphase, hstop⟩
            · exact .inl (by rw [hsame])
            · rw [hstop]
              exact .inr (.stop before after hphase (by rwa [List.isEmpty_iff] at hfailed))

/-- What every turn keeps, a run keeps. -/
theorem run_keeps {P : Pool σ α β → Prop}
    (hstep : ∀ {pool next}, P pool → Step sweep supervisor pool next → P next)
    {pool : Pool σ α β} (hpool : P pool) (turns : List Turn) :
    P (pool.run sweep supervisor turns) := by
  induction turns generalizing pool with
  | nil => exact hpool
  | cons turn rest ih =>
      refine ih ?_
      rcases pool.act_step turn with hsame | hnext
      · rwa [hsame]
      · exact hstep hpool hnext

end Pool

namespace Sweep

variable [Scalar α]

/-- What copies of the probed point give for some of the moves. -/
def copies (sweep : Sweep α β) (moves : List (Move α)) : Except (EvalError α) (List β) :=
  sweep.probe.copies sweep.perturbation sweep.readOff moves

/-- The number of moves before the first that fails. -/
def passed (sweep : Sweep α β) (moves : List (Move α)) : Nat :=
  sweep.probe.passed sweep.perturbation moves

/-- The buffers have the length of the residual, and what they hold does not
matter to it. -/
structure Regular (sweep : Sweep α β) : Prop where
  ignoresBuffer : sweep.probe.system.IgnoresBuffer
  height_eq : sweep.height = sweep.probe.system.dimension

theorem Regular.length_buffer {sweep : Sweep α β} (hregular : sweep.Regular) :
    (List.replicate sweep.height (0 : α)).length = sweep.probe.system.dimension :=
  List.length_replicate.trans hregular.height_eq

/-- What one worker does that has some of the moves to itself. -/
theorem Regular.sweep_eq_copies {sweep : Sweep α β} (hregular : sweep.Regular)
    (report : Nat → Nat → σ → σ) (moves : List (Move α)) (s : σ) :
    sweep.probe.sweep (.reporting report) sweep.perturbation sweep.readOff 0 sweep.moves.length
        (sweep.probe.scratch sweep.height) moves s =
      ((sweep.copies moves).mapError .evaluation,
        Supervisor.told report sweep.moves.length (List.range' 1 (sweep.passed moves)) s) :=
  Probe.sweep_eq_copies hregular.ignoresBuffer moves hregular.length_buffer 0 sweep.moves.length s

end Sweep

namespace Share

variable [Scalar α] {sweep : Sweep α β} {supervisor : Supervisor σ} {share next : Share α β}
  {ledger ledger' : Ledger σ}

/-- A worker is with the move after those that it has read off, and its scratch is
where it was. -/
structure Sound (sweep : Sweep α β) (supervisor : Supervisor σ) (share : Share α β) : Prop where
  scratch : ∃ out, out.length = sweep.probe.system.dimension ∧
    share.scratch = sweep.probe.on out
  read : sweep.copies (share.moves.take share.read.length) = .ok share.read
  admitted : ∀ move, share.phase = .admitted move → share.current? = some move
  failed : ∀ cause, share.phase = .failed (.evaluation cause) →
    sweep.copies share.moves = .error cause
  cancelled : share.phase = .failed .cancelled → ∃ s, (supervisor.proceed s).1 = false

theorem Sound.of_idle (hphase : share.phase = .idle)
    (hscratch : ∃ out, out.length = sweep.probe.system.dimension ∧
      share.scratch = sweep.probe.on out)
    (hread : sweep.copies (share.moves.take share.read.length) = .ok share.read) :
    share.Sound sweep supervisor where
  scratch := hscratch
  read := hread
  admitted := by simp [hphase]
  failed := by simp [hphase]
  cancelled := by simp [hphase]

theorem Sound.step (hregular : sweep.Regular) (hshare : share.Sound sweep supervisor)
    (hstep : share.Step sweep supervisor ledger next ledger') : next.Sound sweep supervisor := by
  cases hstep with
  | enter hphase hmove hproceed =>
      exact ⟨hshare.scratch, hshare.read, fun _ h => (Phase.admitted.inj h) ▸ hmove, nofun, nofun⟩
  | refuse hphase hmove hproceed =>
      exact ⟨hshare.scratch, hshare.read, nofun, nofun,
        fun _ => ⟨ledger.observer, congrArg Prod.fst hproceed⟩⟩
  | @fail move cause scratch hphase hevaluate =>
      obtain ⟨out, hout, hscratch⟩ := hshare.scratch
      rw [hscratch] at hevaluate
      obtain ⟨after, hafter, ⟨-, hgood⟩ | ⟨other, hbad, hother⟩⟩ :=
        Probe.evaluate_copy hregular.ignoresBuffer sweep.perturbation move hout
      · cases hgood.symm.trans hevaluate
      · cases hother.symm.trans hevaluate
        refine ⟨⟨after, hafter, rfl⟩, hshare.read, nofun, fun _ h => ?_, nofun⟩
        cases h
        obtain ⟨rest, hmoves, -⟩ := split_of_current (hshare.admitted move hphase)
        have hcopies := (Probe.copies_append_of_ok hshare.read (move :: rest)).1
        rw [← hmoves, Probe.copies_cons_of_error hbad] at hcopies
        exact hcopies
  | @evaluate move scratch hphase hevaluate =>
      obtain ⟨out, hout, hscratch⟩ := hshare.scratch
      rw [hscratch] at hevaluate
      obtain ⟨after, hafter, ⟨hgood, hnone⟩ | ⟨other, -, hother⟩⟩ :=
        Probe.evaluate_copy hregular.ignoresBuffer sweep.perturbation move hout
      · cases hnone.symm.trans hevaluate
        refine ⟨⟨after, hafter, rfl⟩, ?_, nofun, nofun, nofun⟩
        obtain ⟨-, -, htake⟩ := split_of_current (hshare.admitted move hphase)
        have hcopies := (Probe.copies_append_of_ok hshare.read [move]).1
        rw [Probe.copies_cons_of_ok hgood] at hcopies
        rw [List.length_append, List.length_singleton, htake]
        exact hcopies
      · cases hother.symm.trans hevaluate
  | count hphase => exact ⟨hshare.scratch, hshare.read, nofun, nofun, nofun⟩
  | report hphase => exact .of_idle rfl hshare.scratch hshare.read

theorem Sound.copies_of_exhausted (hshare : share.Sound sweep supervisor)
    (hexhausted : share.Exhausted) : sweep.copies share.moves = .ok share.read := by
  have hread := hshare.read
  rwa [List.take_of_length_le (List.getElem?_eq_none_iff.mp hexhausted.2)] at hread

theorem Sound.length_read_le (hshare : share.Sound sweep supervisor) :
    share.read.length ≤ sweep.passed share.moves := by
  have hpassed := (Probe.copies_append_of_ok hshare.read (share.moves.drop share.read.length)).2
  have hlength := Probe.length_copies hshare.read
  rw [List.take_append_drop] at hpassed
  rw [Sweep.passed, hpassed, ← hlength]
  exact Nat.le_add_right _ _

theorem Step.moves_eq (hstep : share.Step sweep supervisor ledger next ledger') :
    next.moves = share.moves := by
  cases hstep <;> rfl

theorem Step.error?_eq_none (hstep : share.Step sweep supervisor ledger next ledger') :
    share.error? = none := by
  cases hstep <;> simp [error?, *]

theorem Step.not_stopped (hstep : share.Step sweep supervisor ledger next ledger') :
    next.phase ≠ .stopped := by
  cases hstep <;> nofun

end Share

namespace Pool

variable [Scalar α] {sweep : Sweep α β} {supervisor : Supervisor σ} {pool next : Pool σ α β}
  {parts : List (List (Move α))}

/-- Every worker is in a sound state and has its part, and one that has stopped
has a reason. -/
structure Sound (sweep : Sweep α β) (supervisor : Supervisor σ) (parts : List (List (Move α)))
    (pool : Pool σ α β) : Prop where
  moves : pool.shares.map (·.moves) = parts
  shares : ∀ share ∈ pool.shares, share.Sound sweep supervisor
  stopped : ∀ share ∈ pool.shares, share.phase = .stopped → pool.errors ≠ []

theorem sound_begin (hregular : sweep.Regular) (parts : List (List (Move α))) (s : σ) :
    (sweep.begin parts s).Sound sweep supervisor parts := by
  refine ⟨(List.map_map ..).trans (List.map_id parts), ?_, by simp [Sweep.begin, Sweep.fresh]⟩
  simp only [Sweep.begin, List.forall_mem_map]
  intro moves _
  exact .of_idle rfl ⟨List.replicate sweep.height 0, hregular.length_buffer, rfl⟩ rfl

theorem Step.errors_ne_nil (hstep : Step sweep supervisor pool next) (hpool : pool.errors ≠ []) :
    next.errors ≠ [] := by
  cases hstep with
  | work before after hwork =>
      rw [errors_split, hwork.error?_eq_none] at hpool
      rw [errors_split]
      simp only [Option.toList_none, List.append_nil, ne_eq, List.append_eq_nil_iff] at hpool ⊢
      exact fun hnone => hpool ⟨hnone.1.1, hnone.2⟩
  | stop before after hphase hfailed =>
      rw [errors_split, Share.error?, hphase] at hpool
      rwa [errors_split]

theorem Sound.step (hregular : sweep.Regular) (hpool : pool.Sound sweep supervisor parts)
    (hstep : Step sweep supervisor pool next) : next.Sound sweep supervisor parts := by
  obtain ⟨hmoves, hshares, hstopped⟩ := hpool
  have herrors := hstep.errors_ne_nil
  cases hstep with
  | work before after hwork =>
      rw [List.forall_mem_append, List.forall_mem_cons] at hshares hstopped
      refine ⟨?_, ?_, ?_⟩
      · simpa [hwork.moves_eq] using hmoves
      · rw [List.forall_mem_append, List.forall_mem_cons]
        exact ⟨hshares.1, hshares.2.1.step hregular hwork, hshares.2.2⟩
      · rw [List.forall_mem_append, List.forall_mem_cons]
        exact ⟨fun share hshare h => herrors (hstopped.1 share hshare h),
          fun h => absurd h hwork.not_stopped,
          fun share hshare h => herrors (hstopped.2.2 share hshare h)⟩
  | stop before after hphase hfailed =>
      rw [List.forall_mem_append, List.forall_mem_cons] at hshares
      refine ⟨?_, ?_, fun _ _ _ => herrors hfailed⟩
      · simpa using hmoves
      · rw [List.forall_mem_append, List.forall_mem_cons]
        exact ⟨hshares.1, ⟨hshares.2.1.scratch, hshares.2.1.read, nofun, nofun, nofun⟩,
          hshares.2.2⟩

theorem sound_run (hregular : sweep.Regular) (supervisor : Supervisor σ)
    (parts : List (List (Move α))) (turns : List Turn) (s : σ) :
    ((sweep.begin parts s).run sweep supervisor turns).Sound sweep supervisor parts :=
  run_keeps (fun hpool hstep => hpool.step hregular hstep) (sound_begin hregular parts s) turns

/-- Without a failure all are exhausted when they are at rest. -/
theorem Sound.exhausted (hpool : pool.Sound sweep supervisor parts) (hfinished : pool.Finished)
    (herrors : pool.errors = []) : ∀ share ∈ pool.shares, share.Exhausted := by
  intro share hshare
  exact (hfinished share hshare).exhausted (List.filterMap_eq_nil_iff.mp herrors share hshare)
    fun hstopped => hpool.stopped share hshare hstopped herrors

theorem copies_flatten {shares : List (Share α β)}
    (hshares : ∀ share ∈ shares, sweep.copies share.moves = .ok share.read) :
    sweep.copies (shares.map (·.moves)).flatten = .ok (shares.flatMap (·.read)) := by
  induction shares with
  | nil => rfl
  | cons share rest ih =>
      rw [List.forall_mem_cons] at hshares
      have hcopies := (Probe.copies_append_of_ok hshares.1 (rest.map (·.moves)).flatten).1
      rw [List.map_cons, List.flatten_cons, List.flatMap_cons]
      refine hcopies.trans ?_
      have hrest := ih hshares.2
      rw [Sweep.copies] at hrest
      rw [hrest]
      rfl

end Pool

/-- The count that the worker has made and not yet reported. -/
def Share.due (share : Share α β) : List Nat :=
  match share.phase with
  | .counted done => [done]
  | _ => []

/-- One if the worker has still to count its last move. -/
def Share.uncounted (share : Share α β) : Nat :=
  match share.phase with
  | .evaluated => 1
  | _ => 0

theorem Share.AtRest.nothing_due {share : Share α β} (hrest : share.AtRest) :
    share.due = [] ∧ share.uncounted = 0 := by
  rcases hrest with ⟨hphase, -⟩ | herror | hphase
  · simp [due, uncounted, hphase]
  · obtain ⟨cause, hcause⟩ := Option.isSome_iff_exists.mp herror
    simp [due, uncounted, error?_eq_some_iff.mp hcause]
  · simp [due, uncounted, hphase]

namespace Pool

/-- The counts reported and those that are due are the first natural numbers, and
every move that has been read off has been counted or soon will be. -/
structure Counted (report : Nat → Nat → σ → σ) (total : Nat) (s : σ) (pool : Pool σ α β) :
    Prop where
  told : ∃ counts, (counts ++ pool.shares.flatMap Share.due).Perm
      (List.range' 1 pool.ledger.completed) ∧
    pool.ledger.observer = Supervisor.told report total counts s
  read : pool.ledger.completed + (pool.shares.map Share.uncounted).sum =
    (pool.shares.map (·.read.length)).sum

variable [Scalar α] {sweep : Sweep α β} {pool next : Pool σ α β} {report : Nat → Nat → σ → σ}
  {s : σ}

theorem counted_begin (sweep : Sweep α β) (parts : List (List (Move α))) (s : σ) :
    (sweep.begin parts s).Counted report sweep.moves.length s := by
  refine ⟨⟨[], ?_, rfl⟩, ?_⟩
  · simp [Sweep.begin, Sweep.fresh, Share.due, List.flatMap_map]
  · simp [Sweep.begin, Sweep.fresh, Share.uncounted, Function.comp_def]

theorem Counted.step (hpool : pool.Counted report sweep.moves.length s)
    (hstep : Step sweep (.reporting report) pool next) :
    next.Counted report sweep.moves.length s := by
  obtain ⟨⟨counts, hperm, htold⟩, hread⟩ := hpool
  cases hstep with
  | stop before after hphase hfailed =>
      refine ⟨⟨counts, ?_, htold⟩, ?_⟩
      · simpa [Share.due, hphase] using hperm
      · simpa [Share.uncounted, hphase] using hread
  | @work before share worked after ledger ledger' hwork =>
      cases hwork with
      | enter hphase hmove hproceed =>
          cases hproceed
          refine ⟨⟨counts, ?_, htold⟩, ?_⟩
          · simpa [Share.due, hphase] using hperm
          · simpa [Share.uncounted, hphase] using hread
      | refuse hphase hmove hproceed => cases hproceed
      | fail hphase hevaluate =>
          refine ⟨⟨counts, ?_, htold⟩, ?_⟩
          · simpa [Share.due, hphase] using hperm
          · simpa [Share.uncounted, hphase] using hread
      | evaluate hphase hevaluate =>
          refine ⟨⟨counts, ?_, htold⟩, ?_⟩
          · simpa [Share.due, hphase] using hperm
          · simp only [Share.uncounted, hphase, List.map_append, List.map_cons, List.sum_append,
              List.sum_cons, List.length_append, List.length_singleton] at hread ⊢
            omega
      | count hphase =>
          refine ⟨⟨counts, ?_, htold⟩, ?_⟩
          · simp only [Share.due, hphase, List.flatMap_append, List.flatMap_cons,
              List.nil_append, List.singleton_append, ← List.append_assoc] at hperm ⊢
            rw [List.range'_1_concat, Nat.add_comm 1]
            exact List.perm_middle.trans
              ((hperm.cons _).trans (List.perm_append_singleton _ _).symm)
          · simp only [Share.uncounted, hphase, List.map_append, List.map_cons, List.sum_append,
              List.sum_cons] at hread ⊢
            omega
      | @report done hphase =>
          refine ⟨⟨counts ++ [done], ?_, ?_⟩, ?_⟩
          · simp only [Share.due, hphase, List.flatMap_append, List.flatMap_cons,
              List.nil_append, List.singleton_append] at hperm ⊢
            rw [List.append_assoc, List.singleton_append]
            exact (List.perm_middle.symm.append_left counts).trans hperm
          · rw [Supervisor.told, List.foldl_append]
            exact congrArg (report done sweep.moves.length) htold
          · simpa [Share.uncounted, hphase] using hread

/-- At the end each number up to that of the moves read off has been reported
once. -/
theorem told_of_finished (sweep : Sweep α β) (parts : List (List (Move α))) (turns : List Turn)
    (report : Nat → Nat → σ → σ) (s : σ)
    (hfinished : ((sweep.begin parts s).run sweep (.reporting report) turns).Finished) :
    let pool := (sweep.begin parts s).run sweep (.reporting report) turns
    ∃ counts, counts.Perm (List.range' 1 (pool.shares.map (·.read.length)).sum) ∧
      pool.ledger.observer = Supervisor.told report sweep.moves.length counts s := by
  intro pool
  obtain ⟨⟨counts, hperm, htold⟩, hread⟩ : pool.Counted report sweep.moves.length s :=
    run_keeps Counted.step (counted_begin sweep parts s) turns
  have hdue : pool.shares.flatMap Share.due = [] :=
    List.flatMap_eq_nil_iff.mpr fun share hshare => (hfinished share hshare).nothing_due.1
  have hcounted : (pool.shares.map Share.uncounted).sum = 0 := by
    rw [List.sum_eq_zero_iff, List.forall_mem_map]
    exact fun share hshare => (hfinished share hshare).nothing_due.2
  rw [hdue, List.append_nil] at hperm
  rw [hcounted, Nat.add_zero] at hread
  exact ⟨counts, hread ▸ hperm, htold⟩

end Pool

end ImplicitDynamics
