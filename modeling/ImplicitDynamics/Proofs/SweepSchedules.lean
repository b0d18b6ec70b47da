import ImplicitDynamics.Proofs.SharedSweeps

/-!
# Schedules of a shared sweep

A worker that gets all the turns comes to rest, having done what a sweep over its
share does, so no schedule keeps a pool from coming to an end.  If the turns go
from left to right, the outcome is that of the sweep over all moves, whoever
supervises it; and each worker whose share has a failing move may be the one
whose error is passed on.
-/

namespace ImplicitDynamics

variable {α β σ : Type}

namespace Share

variable [Scalar α] {sweep : Sweep α β} {supervisor : Supervisor σ} {share next : Share α β}
  {ledger ledger' : Ledger σ}

/-- Where a worker comes to rest when it gets all the turns. -/
inductive Settles (sweep : Sweep α β) (supervisor : Supervisor σ) :
    Share α β → Ledger σ → Share α β → Ledger σ → Prop where
  | rest {share : Share α β} {ledger : Ledger σ} (hrest : share.AtRest) :
      Settles sweep supervisor share ledger share ledger
  | work {share next final : Share α β} {ledger ledger' last : Ledger σ}
      (hwork : share.work sweep supervisor ledger = (next, ledger'))
      (hsettles : Settles sweep supervisor next ledger' final last) :
      Settles sweep supervisor share ledger final last

theorem Settles.atRest (hsettles : share.Settles sweep supervisor ledger next ledger') :
    next.AtRest := by
  induction hsettles with
  | rest hrest => exact hrest
  | work _ _ ih => exact ih

theorem Settles.of_atRest (hsettles : share.Settles sweep supervisor ledger next ledger')
    (hrest : share.AtRest) : next = share ∧ ledger' = ledger := by
  induction hsettles with
  | rest _ => exact ⟨rfl, rfl⟩
  | work hwork _ ih =>
      rw [work_of_atRest hrest] at hwork
      cases hwork
      exact ih hrest

theorem Settles.after_work (hsettles : share.Settles sweep supervisor ledger next ledger') :
    (share.work sweep supervisor ledger).1.Settles sweep supervisor
      (share.work sweep supervisor ledger).2 next ledger' := by
  cases hsettles with
  | rest hrest =>
      rw [work_of_atRest hrest]
      exact .rest hrest
  | work hwork hnext => rwa [hwork]

theorem Settles.of_counted {done : Nat} (hphase : share.phase = .counted done)
    (hsettles : { share with phase := .idle }.Settles sweep supervisor
      { ledger with
        observer := supervisor.completed done sweep.moves.length ledger.observer } next ledger') :
    share.Settles sweep supervisor ledger next ledger' := by
  refine .work ?_ hsettles
  simp only [Share.work, hphase]

theorem Settles.of_evaluated (hphase : share.phase = .evaluated)
    (hsettles : { share with phase := .idle }.Settles sweep supervisor
      ⟨ledger.completed + 1,
        supervisor.completed (ledger.completed + 1) sweep.moves.length ledger.observer⟩ next
      ledger') :
    share.Settles sweep supervisor ledger next ledger' := by
  have hwork : share.work sweep supervisor ledger =
      ({ share with phase := .counted (ledger.completed + 1) },
        { ledger with completed := ledger.completed + 1 }) := by
    simp only [Share.work, hphase]
  exact .work hwork (.of_counted rfl hsettles)

theorem Settles.of_passed {move : Move α} {scratch : Scratch α}
    (hphase : share.phase = .admitted move)
    (hevaluate : share.scratch.evaluate sweep.probe.system sweep.probe.time sweep.perturbation
      move.coordinate move.distance = (none, scratch))
    (hsettles : Settles sweep supervisor
      { share with
        scratch
        read := share.read ++ [sweep.readOff move scratch.out]
        phase := .idle }
      ⟨ledger.completed + 1,
        supervisor.completed (ledger.completed + 1) sweep.moves.length ledger.observer⟩ next
      ledger') :
    share.Settles sweep supervisor ledger next ledger' := by
  have hwork : share.work sweep supervisor ledger =
      ({ share with
          scratch
          read := share.read ++ [sweep.readOff move scratch.out]
          phase := .evaluated }, ledger) := by
    simp only [Share.work, hphase, hevaluate]
  exact .work hwork (.of_evaluated rfl hsettles)

theorem settles_of_failed {move : Move α} {cause : EvalError α} {scratch : Scratch α}
    (hphase : share.phase = .admitted move)
    (hevaluate : share.scratch.evaluate sweep.probe.system sweep.probe.time sweep.perturbation
      move.coordinate move.distance = (some cause, scratch)) :
    share.Settles sweep supervisor ledger
      { share with scratch, phase := .failed (.evaluation cause) } ledger := by
  refine .work ?_ (.rest (atRest_of_error rfl))
  simp only [work, hphase, hevaluate]

/-- A worker between two moves that gets all the turns does what a sweep does. -/
theorem exists_settles (sweep : Sweep α β) (supervisor : Supervisor σ) (share : Share α β)
    (ledger : Ledger σ) (hphase : share.phase = .idle) :
    let swept := sweep.probe.sweep supervisor sweep.perturbation sweep.readOff ledger.completed
      sweep.moves.length share.scratch (share.moves.drop share.read.length) ledger.observer
    ∃ next ledger', share.Settles sweep supervisor ledger next ledger' ∧
      ledger'.observer = swept.2 ∧
      ((∃ results, swept.1 = .ok results ∧ next.Exhausted ∧ next.read = share.read ++ results ∧
          ledger'.completed = ledger.completed + (share.moves.drop share.read.length).length) ∨
        ∃ cause, swept.1 = .error cause ∧ next.error? = some cause) := by
  generalize htodo : share.moves.drop share.read.length = todo
  induction todo generalizing share ledger with
  | nil =>
      have hexhausted : share.Exhausted :=
        ⟨hphase, List.getElem?_eq_none_iff.mpr (List.drop_eq_nil_iff.mp htodo)⟩
      exact ⟨share, ledger, .rest (.inl hexhausted), rfl,
        .inl ⟨[], rfl, hexhausted, (List.append_nil _).symm, rfl⟩⟩
  | cons move rest ih =>
      have hmove : share.current? = some move := by
        rw [current?, ← List.head?_drop, htodo, List.head?_cons]
      rw [Probe.sweep]
      rcases hproceed : supervisor.proceed ledger.observer with ⟨_ | _, looked⟩
      · refine ⟨{ share with phase := .failed .cancelled }, { ledger with observer := looked },
          .work (by simp only [work, hphase, hmove, hproceed]) (.rest (atRest_of_error rfl)), rfl,
          .inr ⟨.cancelled, rfl, rfl⟩⟩
      · have hadmit : share.work sweep supervisor ledger =
            ({ share with phase := .admitted move }, { ledger with observer := looked }) := by
          simp only [work, hphase, hmove, hproceed]
        rcases hevaluate : share.scratch.evaluate sweep.probe.system sweep.probe.time
          sweep.perturbation move.coordinate move.distance with ⟨_ | cause, scratch⟩
        · let read := share.read ++ [sweep.readOff move scratch.out]
          let told := supervisor.completed (ledger.completed + 1) sweep.moves.length looked
          have hrest : share.moves.drop read.length = rest := by
            have htail := congrArg List.tail htodo
            rwa [List.tail_drop, ← List.length_singleton, ← List.length_append] at htail
          obtain ⟨next, last, hsettles, hobserver, hends⟩ :=
            ih { share with scratch, read, phase := .idle } ⟨ledger.completed + 1, told⟩ rfl hrest
          refine ⟨next, last, .work hadmit (.of_passed rfl hevaluate hsettles), ?_⟩
          simp only [told] at hobserver hends
          rcases hswept : sweep.probe.sweep supervisor sweep.perturbation sweep.readOff
            (ledger.completed + 1) sweep.moves.length scratch rest
            (supervisor.completed (ledger.completed + 1) sweep.moves.length looked) with
            ⟨_ | results, after⟩ <;>
            simp only [hswept] at hobserver hends ⊢
          · obtain ⟨results, hresults, -⟩ | ⟨cause, hcause, herror⟩ := hends
            · cases hresults
            · exact ⟨hobserver, .inr ⟨cause, hcause, herror⟩⟩
          · obtain ⟨others, hothers, hexhausted, hread, hcompleted⟩ | ⟨cause, hcause, -⟩ := hends
            · cases hothers
              refine ⟨hobserver, .inl ⟨_, rfl, hexhausted, ?_, ?_⟩⟩
              · rw [hread, List.append_assoc, List.singleton_append]
              · rw [hcompleted, List.length_cons]
                omega
            · cases hcause
        · exact ⟨_, _, .work hadmit (settles_of_failed rfl hevaluate), rfl,
            .inr ⟨.evaluation cause, rfl, rfl⟩⟩

theorem settles_fresh (sweep : Sweep α β) (supervisor : Supervisor σ) (moves : List (Move α))
    (finished : Nat) (s : σ) :
    let swept := sweep.probe.sweep supervisor sweep.perturbation sweep.readOff finished
      sweep.moves.length (sweep.probe.scratch sweep.height) moves s
    ∃ next ledger', (sweep.fresh moves).Settles sweep supervisor ⟨finished, s⟩ next ledger' ∧
      ledger'.observer = swept.2 ∧
      ((∃ results, swept.1 = .ok results ∧ next.Exhausted ∧ next.read = results ∧
          ledger'.completed = finished + moves.length) ∨
        ∃ cause, swept.1 = .error cause ∧ next.error? = some cause) :=
  exists_settles sweep supervisor (sweep.fresh moves) ⟨finished, s⟩ rfl

end Share

namespace Pool

variable [Scalar α] {sweep : Sweep α β} {supervisor : Supervisor σ}

theorem Step.length_eq {pool next : Pool σ α β} (hstep : Step sweep supervisor pool next) :
    next.shares.length = pool.shares.length := by
  cases hstep <;> simp

theorem InOrder.append {pool : Pool σ α β} {turns more : List Turn}
    (hturns : pool.InOrder sweep supervisor turns)
    (hmore : (pool.run sweep supervisor turns).InOrder sweep supervisor more) :
    pool.InOrder sweep supervisor (turns ++ more) := by
  induction turns generalizing pool with
  | nil => exact hmore
  | cons turn rest ih => exact ⟨hturns.1, ih hturns.2 hmore⟩

theorem errors_fresh (sweep : Sweep α β) (parts : List (List (Move α))) :
    (parts.map sweep.fresh).filterMap Share.error? = [] :=
  List.filterMap_eq_nil_iff.mpr (List.forall_mem_map.mpr fun _ _ => rfl)

/-- What the shares come to when they are done one after the other, the first
failure being the end. -/
inductive OneByOne (sweep : Sweep α β) (supervisor : Supervisor σ) :
    List (Share α β) → Ledger σ → Except (JacobianError α) (List β) → σ → Prop where
  | nil {ledger : Ledger σ} : OneByOne sweep supervisor [] ledger (.ok []) ledger.observer
  | done {share next : Share α β} {rest : List (Share α β)} {ledger ledger' : Ledger σ}
      {answer : Except (JacobianError α) (List β)} {s : σ}
      (hsettles : share.Settles sweep supervisor ledger next ledger') (hnext : next.Exhausted)
      (hrest : OneByOne sweep supervisor rest ledger' answer s) :
      OneByOne sweep supervisor (share :: rest) ledger (answer.map (next.read ++ ·)) s
  | failed {share next : Share α β} {rest : List (Share α β)} {ledger ledger' : Ledger σ}
      {cause : JacobianError α}
      (hsettles : share.Settles sweep supervisor ledger next ledger')
      (herror : next.error? = some cause) :
      OneByOne sweep supervisor (share :: rest) ledger (.error cause) ledger'.observer

variable {before after : List (Share α β)} {share next : Share α β} {ledger : Ledger σ}
  {answer : Except (JacobianError α) (List β)} {s : σ}

/-- A turn of the first worker that is not exhausted does not change what the
shares come to. -/
theorem OneByOne.work
    (hdone : OneByOne sweep supervisor (before ++ share :: after) ledger answer s)
    (hbefore : ∀ earlier ∈ before, earlier.Exhausted) :
    OneByOne sweep supervisor (before ++ (share.work sweep supervisor ledger).1 :: after)
      (share.work sweep supervisor ledger).2 answer s := by
  induction before generalizing answer with
  | nil =>
      cases hdone with
      | done hsettles hnext hrest => exact .done hsettles.after_work hnext hrest
      | failed hsettles herror => exact .failed hsettles.after_work herror
  | cons earlier before ih =>
      rw [List.forall_mem_cons] at hbefore
      cases hdone with
      | done hsettles hnext hrest =>
          obtain ⟨rfl, rfl⟩ := hsettles.of_atRest (.inl hbefore.1)
          exact .done (.rest (.inl hbefore.1)) hnext (ih hrest hbefore.2)
      | failed hsettles herror =>
          obtain ⟨rfl, rfl⟩ := hsettles.of_atRest (.inl hbefore.1)
          rw [hbefore.1.error?_eq_none] at herror
          cases herror

theorem OneByOne.of_failed {cause : JacobianError α}
    (hdone : OneByOne sweep supervisor (before ++ share :: after) ledger answer s)
    (hbefore : ∀ earlier ∈ before, earlier.Exhausted) (herror : share.error? = some cause) :
    answer = .error cause ∧ ledger.observer = s := by
  induction before generalizing answer with
  | nil =>
      cases hdone with
      | done hsettles hnext hrest =>
          obtain ⟨rfl, rfl⟩ := hsettles.of_atRest (Share.atRest_of_error herror)
          rw [hnext.error?_eq_none] at herror
          cases herror
      | failed hsettles hother =>
          obtain ⟨rfl, rfl⟩ := hsettles.of_atRest (Share.atRest_of_error herror)
          cases hother.symm.trans herror
          exact ⟨rfl, rfl⟩
  | cons earlier before ih =>
      rw [List.forall_mem_cons] at hbefore
      cases hdone with
      | done hsettles hnext hrest =>
          obtain ⟨rfl, rfl⟩ := hsettles.of_atRest (.inl hbefore.1)
          obtain ⟨rfl, hobserver⟩ := ih hrest hbefore.2
          exact ⟨rfl, hobserver⟩
      | failed hsettles hother =>
          obtain ⟨rfl, rfl⟩ := hsettles.of_atRest (.inl hbefore.1)
          rw [hbefore.1.error?_eq_none] at hother
          cases hother

theorem OneByOne.of_exhausted {shares : List (Share α β)}
    (hdone : OneByOne sweep supervisor shares ledger answer s)
    (hshares : ∀ share ∈ shares, share.Exhausted) :
    answer = .ok (shares.flatMap (·.read)) ∧ ledger.observer = s := by
  induction hdone with
  | nil => exact ⟨rfl, rfl⟩
  | done hsettles hnext hrest ih =>
      rw [List.forall_mem_cons] at hshares
      obtain ⟨rfl, rfl⟩ := hsettles.of_atRest (.inl hshares.1)
      obtain ⟨rfl, hobserver⟩ := ih hshares.2
      exact ⟨rfl, hobserver⟩
  | failed hsettles herror =>
      rw [List.forall_mem_cons] at hshares
      obtain ⟨rfl, rfl⟩ := hsettles.of_atRest (.inl hshares.1)
      rw [hshares.1.error?_eq_none] at herror
      cases herror

/-- From left to right: no worker has failed so far and what is left to do comes to
the answer, or one has failed and this is the answer. -/
def Orderly (sweep : Sweep α β) (supervisor : Supervisor σ)
    (answer : Except (JacobianError α) (List β)) (s : σ) (pool : Pool σ α β) : Prop :=
  pool.errors = [] ∧ (∀ share ∈ pool.shares, share.phase ≠ .stopped) ∧
      OneByOne sweep supervisor pool.shares pool.ledger answer s ∨
    ∃ cause, pool.errors = [cause] ∧ answer = .error cause ∧ pool.ledger.observer = s

theorem Orderly.act {pool : Pool σ α β} (hpool : pool.Orderly sweep supervisor answer s)
    {turn : Turn} (hturn : pool.Allows turn) :
    (pool.act sweep supervisor turn).Orderly sweep supervisor answer s := by
  rcases pool with ⟨shares, ledger⟩
  cases turn with
  | work i =>
      cases hi : shares[i]? with
      | none => simpa only [Pool.act, hi] using hpool
      | some share =>
          have hallows := hturn share hi
          obtain ⟨before, after, rfl, rfl⟩ := exists_split hi
          rw [act_work]
          by_cases hrest : share.AtRest
          · rwa [Share.work_of_atRest hrest]
          obtain ⟨hnone, hearlier⟩ := hallows.resolve_left hrest
          obtain ⟨-, hstopped, hdone⟩ | ⟨cause, hcause, -⟩ := hpool
          · have hwork := Share.work_step sweep supervisor ledger hrest
            rw [errors_split, hwork.error?_eq_none] at hnone
            simp only [Option.toList_none, List.append_nil, List.append_eq_nil_iff] at hnone
            rw [List.forall_mem_append, List.forall_mem_cons] at hstopped
            have hbefore : ∀ earlier ∈ before, earlier.Exhausted := by
              intro earlier hmem
              exact (hearlier earlier (by simpa using hmem)).exhausted
                (List.filterMap_eq_nil_iff.mp hnone.1 earlier hmem) (hstopped.1 earlier hmem)
            have hafter := hdone.work hbefore
            cases herror : (share.work sweep supervisor ledger).1.error? with
            | none =>
                refine .inl ⟨?_, ?_, hafter⟩
                · rw [errors_split, hnone.1, hnone.2, herror]
                  rfl
                · rw [List.forall_mem_append, List.forall_mem_cons]
                  exact ⟨hstopped.1, hwork.not_stopped, hstopped.2.2⟩
            | some cause =>
                refine .inr ⟨cause, ?_, hafter.of_failed hbefore herror⟩
                rw [errors_split, hnone.1, hnone.2, herror]
                rfl
          · rw [hnone] at hcause
            cases hcause
  | stop i =>
      cases hi : shares[i]? with
      | none => simpa only [Pool.act, hi] using hpool
      | some share =>
          obtain ⟨before, after, rfl, rfl⟩ := exists_split hi
          rw [act_stop]
          obtain ⟨hnone, hrest⟩ | ⟨cause, hcause, hanswer⟩ := hpool
          · rw [hnone, List.isEmpty_nil, if_pos rfl]
            exact .inl ⟨hnone, hrest⟩
          · rw [hcause, List.isEmpty_cons, if_neg Bool.false_ne_true]
            refine .inr ⟨cause, ?_, hanswer⟩
            rcases share.stop_cases with hsame | ⟨hphase, hstop⟩
            · rwa [hsame]
            · rw [errors_split, Share.error?, hphase] at hcause
              rwa [hstop, errors_split]

theorem Orderly.run {pool : Pool σ α β} (hpool : pool.Orderly sweep supervisor answer s)
    {turns : List Turn} (hturns : pool.InOrder sweep supervisor turns) :
    (pool.run sweep supervisor turns).Orderly sweep supervisor answer s := by
  induction turns generalizing pool with
  | nil => exact hpool
  | cons turn rest ih => exact ih (hpool.act hturns.1) hturns.2

theorem Orderly.answers {pool : Pool σ α β} (hpool : pool.Orderly sweep supervisor answer s)
    (hfinished : pool.Finished) : pool.answers = [answer] ∧ pool.ledger.observer = s := by
  obtain ⟨hnone, hstopped, hdone⟩ | ⟨cause, hcause, rfl, hobserver⟩ := hpool
  · have hexhausted : ∀ share ∈ pool.shares, share.Exhausted := by
      intro share hmem
      exact (hfinished share hmem).exhausted (List.filterMap_eq_nil_iff.mp hnone share hmem)
        (hstopped share hmem)
    obtain ⟨rfl, hobserver⟩ := hdone.of_exhausted hexhausted
    exact ⟨by rw [Pool.answers, hnone], hobserver⟩
  · exact ⟨by rw [Pool.answers, hcause]; rfl, hobserver⟩

/-- The shares one after the other are the sweep. -/
theorem oneByOne_begin (hregular : sweep.Regular) (supervisor : Supervisor σ)
    (parts : List (List (Move α))) (finished : Nat) (s : σ) :
    let swept := sweep.probe.sweep supervisor sweep.perturbation sweep.readOff finished
      sweep.moves.length (sweep.probe.scratch sweep.height) parts.flatten s
    OneByOne sweep supervisor (parts.map sweep.fresh) ⟨finished, s⟩ swept.1 swept.2 := by
  have hheight := hregular.length_buffer
  induction parts generalizing finished s with
  | nil => exact .nil
  | cons part rest ih =>
      obtain ⟨next, ⟨completed, observer⟩, hsettles, hobserver, hends⟩ :=
        Share.settles_fresh sweep supervisor part finished s
      intro swept
      have hswept : swept = _ := Probe.sweep_append hregular.ignoresBuffer part rest.flatten hheight
        hheight finished sweep.moves.length s
      rw [List.map_cons, hswept]
      simp only [Probe.scratch, Probe.on] at hobserver hends ⊢
      rcases hfirst : sweep.probe.sweep supervisor sweep.perturbation sweep.readOff finished
        sweep.moves.length
        ⟨sweep.probe.state, sweep.probe.derivatives, List.replicate sweep.height 0⟩ part s with
        ⟨_ | results, after⟩ <;> simp only [hfirst] at hobserver hends ⊢
      · obtain ⟨results, hresults, -⟩ | ⟨cause, hcause, herror⟩ := hends
        · cases hresults
        · cases hcause
          rw [← hobserver]
          exact .failed hsettles herror
      · obtain ⟨others, hothers, hexhausted, rfl, hcompleted⟩ | ⟨cause, hcause, -⟩ := hends
        · cases hothers
          subst hobserver hcompleted
          exact .done hsettles hexhausted (ih _ _)
        · cases hcause

end Pool

namespace Sweep

variable [Scalar α] {sweep : Sweep α β} {supervisor : Supervisor σ} {schedule : Schedule α}
  {parts : List (List (Move α))} {answer : Except (JacobianError α) (List β)} {s s' : σ}

theorem orderly_of_inOrder (hregular : sweep.Regular) (hdivides : sweep.Divides schedule.shares)
    (horder : sweep.InOrder supervisor schedule s) :
    let swept := sweep.probe.sweep supervisor sweep.perturbation sweep.readOff 0
      sweep.moves.length (sweep.probe.scratch sweep.height) sweep.moves s
    ((sweep.begin schedule.shares s).run sweep supervisor schedule.turns).Orderly sweep supervisor
      swept.1 swept.2 := by
  refine Pool.Orderly.run (.inl ⟨?_, ?_, ?_⟩) horder
  · exact Pool.errors_fresh sweep schedule.shares
  · exact List.forall_mem_map.mpr fun _ _ => nofun
  · have hbegin := Pool.oneByOne_begin hregular supervisor schedule.shares 0 s
    rwa [hdivides.1] at hbegin

/-- From left to right, workers do what a sweep does. -/
theorem EndsBy.eq_sweep (hregular : sweep.Regular)
    (hends : sweep.EndsBy supervisor schedule s answer s')
    (horder : sweep.InOrder supervisor schedule s) :
    sweep.probe.sweep supervisor sweep.perturbation sweep.readOff 0 sweep.moves.length
      (sweep.probe.scratch sweep.height) sweep.moves s = (answer, s') := by
  obtain ⟨hdivides, hfinished, hanswer, hobserver⟩ := hends
  obtain ⟨hanswers, hlast⟩ := (orderly_of_inOrder hregular hdivides horder).answers hfinished
  rw [hanswers, List.mem_singleton] at hanswer
  rw [hanswer, ← hobserver, hlast]

end Sweep

end ImplicitDynamics
