/-!
# Control of a running computation

Whoever starts a computation can pause it, resume it and cancel it.  The
computation looks at its control at certain points and stops at the first of
them that finds it cancelled; a pause makes it wait there and leaves no other
trace.

A cancellation may also arrive from outside while the computation runs.  It is
described by the number of looks that still pass before it.
-/

namespace ImplicitDynamics

structure Control where
  paused : Bool
  cancelled : Bool
  arriving : Option Nat
  deriving Repr, DecidableEq

/-- What a look at a control that waits for the end of a pause finds. -/
inductive Checkpoint where
  | passed
  | cancelled
  | blocked
  deriving Repr, DecidableEq

namespace Control

/-- Neither paused nor cancelled, and no cancellation on its way. -/
def fresh : Control := ⟨false, false, none⟩

def pause (control : Control) : Control := { control with paused := true }

def resume (control : Control) : Control := { control with paused := false }

def cancel (control : Control) : Control := { control with cancelled := true }

/-- A look without waiting: whether the computation may go on. -/
def look (control : Control) : Bool × Control :=
  if control.cancelled then (false, control)
  else
    match control.arriving with
    | none => (true, control)
    | some 0 => (false, control.cancel)
    | some (looks + 1) => (true, { control with arriving := some looks })

/-- A look that waits while the computation is paused. -/
def checkpoint (control : Control) : Checkpoint :=
  if control.cancelled then .cancelled
  else if control.paused then .blocked
  else .passed

end Control

/-- How a computation is accompanied: `proceed` is asked before each unit of
work, and `completed` is told after it how many of how many are done. -/
structure Supervisor (σ : Type) where
  proceed : σ → Bool × σ
  completed : Nat → Nat → σ → σ

def Supervisor.controlled : Supervisor Control where
  proceed := Control.look
  completed _ _ control := control

end ImplicitDynamics
