import ImplicitDynamics.Scalar

/-!
# Trajectories

The points that an integration has accepted, in order of time, and whether it
came to its end or was cancelled before.
-/

namespace ImplicitDynamics

structure Point (α : Type) where
  time : α
  state : List α
  derivatives : List α

inductive Termination where
  | completed
  | cancelled
  deriving Repr, DecidableEq

structure Trajectory (α : Type) where
  points : Array (Point α)
  termination : Termination

namespace Trajectory

variable {α : Type}

def empty : Trajectory α := ⟨#[], .completed⟩

def log (trajectory : Trajectory α) (point : Point α) : Trajectory α :=
  { trajectory with points := trajectory.points.push point }

def size (trajectory : Trajectory α) : Nat :=
  trajectory.points.size

def times (trajectory : Trajectory α) : List α :=
  trajectory.points.toList.map Point.time

def finalTime? (trajectory : Trajectory α) : Option α :=
  trajectory.points.back?.map Point.time

def finalState? (trajectory : Trajectory α) : Option (List α) :=
  trajectory.points.back?.map Point.state

/-- The values of one variable at the points whose state has it. -/
def variableValues (trajectory : Trajectory α) (index : Nat) : List α :=
  trajectory.points.toList.filterMap fun point => point.state[index]?

def stepSizes [Scalar α] (trajectory : Trajectory α) : List α :=
  let times := trajectory.times
  times.tail.zipWith (fun later earlier => later - earlier) times

end Trajectory

end ImplicitDynamics
