import ImplicitDynamics.FiniteDifference

/-!
# Sweeps shared out among workers

The moves of a sweep do not wait for one another.  They are divided into shares
of consecutive moves, and each share has a worker, who goes through it from left
to right on a scratch of its own.  The workers have in common only the count of
the moves done and the supervisor.

They take turns in any order, and a move takes four of them: a look at the
supervisor, the evaluation, the count and the report.  A worker whose move fails
ends there; another one may notice it before its next move and stop.  When all
have come to rest, the answer is what they have read off, or the error of any of
those that failed.
-/

namespace ImplicitDynamics

/-- A sweep as a whole.  The buffers have length `height`. -/
structure Sweep (α β : Type) where
  probe : Probe α
  perturbation : Perturbation α
  readOff : Move α → List α → β
  height : Nat
  moves : List (Move α)

/-- Where a worker stands. -/
inductive Phase (α : Type) where
  | idle
  | admitted (move : Move α)
  | evaluated
  | counted (done : Nat)
  | failed (cause : JacobianError α)
  | stopped

/-- The part of a sweep that one worker does, and what it has read off so far. -/
structure Share (α β : Type) where
  moves : List (Move α)
  scratch : Scratch α
  read : List β
  phase : Phase α

/-- What the workers have in common. -/
structure Ledger (σ : Type) where
  completed : Nat
  observer : σ

structure Pool (σ α β : Type) where
  shares : List (Share α β)
  ledger : Ledger σ

/-- The worker of a share goes on, or it stops because another one has failed. -/
inductive Turn where
  | work (share : Nat)
  | stop (share : Nat)

/-- How a sweep is divided into shares, and whose turn it is when. -/
structure Schedule (α : Type) where
  shares : List (List (Move α))
  turns : List Turn

variable {α β σ : Type}

namespace Share

/-- The move that is next, or under way. -/
def current? (share : Share α β) : Option (Move α) :=
  share.moves[share.read.length]?

def error? (share : Share α β) : Option (JacobianError α) :=
  match share.phase with
  | .failed cause => some cause
  | _ => none

def Exhausted (share : Share α β) : Prop :=
  share.phase = .idle ∧ share.current? = none

def AtRest (share : Share α β) : Prop :=
  share.Exhausted ∨ share.error?.isSome ∨ share.phase = .stopped

/-- A worker stops only between two moves. -/
def stop (share : Share α β) : Share α β :=
  match share.phase, share.current? with
  | .idle, some _ => { share with phase := .stopped }
  | _, _ => share

variable [Scalar α]

/-- A turn of the worker. -/
def work (share : Share α β) (sweep : Sweep α β) (supervisor : Supervisor σ)
    (ledger : Ledger σ) : Share α β × Ledger σ :=
  match share.phase with
  | .idle =>
    match share.current? with
    | none => (share, ledger)
    | some move =>
      match supervisor.proceed ledger.observer with
      | (true, s) => ({ share with phase := .admitted move }, { ledger with observer := s })
      | (false, s) => ({ share with phase := .failed .cancelled }, { ledger with observer := s })
  | .admitted move =>
    match share.scratch.evaluate sweep.probe.system sweep.probe.time sweep.perturbation
        move.coordinate move.distance with
    | (some cause, scratch) =>
      ({ share with scratch, phase := .failed (.evaluation cause) }, ledger)
    | (none, scratch) =>
      let read := share.read ++ [sweep.readOff move scratch.out]
      ({ share with scratch, read, phase := .evaluated }, ledger)
  | .evaluated =>
    let done := ledger.completed + 1
    ({ share with phase := .counted done }, { ledger with completed := done })
  | .counted done =>
    let observer := supervisor.completed done sweep.moves.length ledger.observer
    ({ share with phase := .idle }, { ledger with observer })
  | .failed _ | .stopped => (share, ledger)

end Share

namespace Pool

def errors (pool : Pool σ α β) : List (JacobianError α) :=
  pool.shares.filterMap Share.error?

def Finished (pool : Pool σ α β) : Prop :=
  ∀ share ∈ pool.shares, share.AtRest

/-- The answers of a pool that is finished.  If several workers have failed, it
is open whose error is passed on. -/
def answers (pool : Pool σ α β) : List (Except (JacobianError α) (List β)) :=
  match pool.errors with
  | [] => [.ok (pool.shares.flatMap (·.read))]
  | errors => errors.map .error

/-- A turn keeps to the order from left to right if it changes nothing, or if
all shares before are exhausted and none has failed. -/
def Allows (pool : Pool σ α β) : Turn → Prop
  | .work i => ∀ share, pool.shares[i]? = some share → share.AtRest ∨
      pool.errors = [] ∧ ∀ earlier ∈ pool.shares.take i, earlier.AtRest
  | .stop _ => True

variable [Scalar α]

def act (sweep : Sweep α β) (supervisor : Supervisor σ) (pool : Pool σ α β) :
    Turn → Pool σ α β
  | .work i =>
    match pool.shares[i]? with
    | none => pool
    | some share =>
      let (share, ledger) := share.work sweep supervisor pool.ledger
      ⟨pool.shares.set i share, ledger⟩
  | .stop i =>
    match pool.shares[i]? with
    | none => pool
    | some share =>
      if pool.errors.isEmpty then pool else ⟨pool.shares.set i share.stop, pool.ledger⟩

def run (sweep : Sweep α β) (supervisor : Supervisor σ) (turns : List Turn)
    (pool : Pool σ α β) : Pool σ α β :=
  turns.foldl (act sweep supervisor) pool

/-- The turns go through the moves from left to right, as those of a single
worker do. -/
def InOrder (sweep : Sweep α β) (supervisor : Supervisor σ) :
    List Turn → Pool σ α β → Prop
  | [], _ => True
  | turn :: rest, pool =>
    pool.Allows turn ∧ InOrder sweep supervisor rest (pool.act sweep supervisor turn)

end Pool

namespace Sweep

/-- Fewer moves than this are not worth a worker. -/
def minShare : Nat := 4

/-- A sweep is divided into shares of some size, unless one worker does it
all. -/
def Divides (sweep : Sweep α β) (shares : List (List (Move α))) : Prop :=
  shares.flatten = sweep.moves ∧
    (shares.length ≤ 1 ∨ ∀ moves ∈ shares, minShare ≤ moves.length)

variable [Scalar α]

/-- A share of which nothing has been done. -/
def fresh (sweep : Sweep α β) (moves : List (Move α)) : Share α β where
  moves := moves
  scratch := sweep.probe.scratch sweep.height
  read := []
  phase := .idle

def begin (sweep : Sweep α β) (shares : List (List (Move α))) (s : σ) : Pool σ α β :=
  ⟨shares.map sweep.fresh, ⟨0, s⟩⟩

/-- The workers follow the schedule from left to right. -/
def InOrder (sweep : Sweep α β) (supervisor : Supervisor σ) (schedule : Schedule α) (s : σ) :
    Prop :=
  (sweep.begin schedule.shares s).InOrder sweep supervisor schedule.turns

/-- A sweep may end like this when its workers follow the schedule. -/
def EndsBy (sweep : Sweep α β) (supervisor : Supervisor σ) (schedule : Schedule α) (s : σ)
    (answer : Except (JacobianError α) (List β)) (s' : σ) : Prop :=
  let pool := (sweep.begin schedule.shares s).run sweep supervisor schedule.turns
  sweep.Divides schedule.shares ∧ pool.Finished ∧ answer ∈ pool.answers ∧
    pool.ledger.observer = s'

end Sweep

namespace Probe

variable [Scalar α]

def columnSweep (probe : Probe α) (base : List α) (columns : List Nat)
    (perturbation : Perturbation α) (increments : List α) : Sweep α (List α) where
  probe := probe
  perturbation := perturbation
  readOff := quotients base
  height := base.length
  moves := columns.map fun j => ⟨j, increments.getD j 0⟩

def patternSweep (probe : Probe α) (base : List α) (perturbation : Perturbation α) (h : α) :
    Sweep α (List Bool) where
  probe := probe
  perturbation := perturbation
  readOff _ := reacting base h
  height := probe.system.dimension
  moves := probe.allMoves h

def flagSweep (probe : Probe α) (base : List α) (h : α) : Sweep α Bool where
  probe := probe
  perturbation := .derivative
  readOff _ := unmoved base h
  height := probe.system.dimension
  moves := probe.allMoves h

/-- How `columns` may come out when the columns are shared out. -/
def ColumnsEnd (probe : Probe α) (base : List α) (columns : List Nat)
    (perturbation : Perturbation α) (increments : List α) (supervisor : Supervisor σ)
    (schedule : Schedule α) (s : σ) (answer : Except (JacobianError α) (List (List α)))
    (s' : σ) : Prop :=
  if base.isEmpty then answer = .ok (columns.map fun _ => []) ∧ s' = s
  else
    (probe.columnSweep base columns perturbation increments).EndsBy supervisor schedule s answer
      s'

/-- How `sensitivity` may come out when the coordinates are shared out. -/
def SensitivityEnds (probe : Probe α) (perturbation : Perturbation α) (h : α)
    (supervisor : Supervisor σ) (schedule : Schedule α) (s : σ)
    (answer : Except (JacobianError α) (List (List Bool))) (s' : σ) : Prop :=
  match probe.residual with
  | .error cause => answer = .error (.evaluation cause) ∧ s' = s
  | .ok base => (probe.patternSweep base perturbation h).EndsBy supervisor schedule s answer s'

/-- How `classify` may come out when the variables are shared out; nobody is
asked or told. -/
def ClassifyEnds (probe : Probe α) (h : α) (schedule : Schedule α)
    (answer : Except (EvalError α) (List Bool)) : Prop :=
  match probe.residual with
  | .error cause => answer = .error cause
  | .ok base =>
    (probe.flagSweep base h).EndsBy ⟨fun s => (true, s), fun _ _ s => s⟩ schedule ()
      (answer.mapError .evaluation) ()

end Probe

end ImplicitDynamics
