import ImplicitDynamics.Structure.Graph
import ImplicitDynamics.Structure.Matching

/-!
# The structural index

Rows that depend on no derivative are constraints.  In each round the
constraints are matched to the algebraic variables that they depend on.  The
ones that remain are differentiated, which turns a differential variable into
the states that the rows with its derivative depend on.  The index is one more
than the number of rounds with differentiation.
-/

namespace ImplicitDynamics.StructuralIndex

/-- The dependencies of a system of `algebraic.length` variables and rows: for
each variable the rows with its state and the rows with its derivative. -/
structure Incidence where
  stateRows : List (List Nat)
  derivativeRows : List (List Nat)
  algebraic : List Bool

namespace Incidence

def rowDependencies (incidence : Incidence) (row : Nat) : List Nat :=
  (List.range incidence.stateRows.length).filter fun column =>
    (incidence.stateRows.getD column []).contains row

def hasDerivative (incidence : Incidence) (row : Nat) : Bool :=
  incidence.derivativeRows.any fun rows => rows.contains row

def isAlgebraic (incidence : Incidence) (index : Nat) : Bool :=
  incidence.algebraic.getD index false

def constraints (incidence : Incidence) : List (List Nat) :=
  ((List.range incidence.algebraic.length).filter fun row => !incidence.hasDerivative row).map
    incidence.rowDependencies

/-- The dependencies of a constraint after differentiation. -/
def differentiate (incidence : Incidence) (dependencies : List Nat) : List Nat :=
  ascending (dependencies.flatMap fun index =>
    if incidence.isAlgebraic index then [index]
    else (incidence.derivativeRows.getD index []).flatMap incidence.rowDependencies)

/-- Whether each constraint has an algebraic variable of its own. -/
def matched (incidence : Incidence) (constraints : List (List Nat)) : List Bool :=
  let owner := Matching.owners (constraints.map fun dependencies =>
    dependencies.filter incidence.isAlgebraic) incidence.algebraic.length
  (List.range constraints.length).map fun row => owner.contains (some row)

/-- Goes through at most `rounds` differentiations of unmatched
constraints. -/
def advance (incidence : Incidence) :
    (rounds index : Nat) → List (List Nat) → Nat
  | 0, index, _ => index
  | rounds + 1, index, constraints =>
    let done := incidence.matched constraints
    if done.all id then index
    else
      incidence.advance rounds (index + 1)
        (constraints.zipWith
          (fun dependencies isDone =>
            if isDone then dependencies else incidence.differentiate dependencies)
          done)

end Incidence

/-- The index, at most `maxIndex` and at least one. -/
def compute (incidence : Incidence) (maxIndex : Nat) : Nat :=
  incidence.advance (maxIndex - 1) 1 incidence.constraints

end ImplicitDynamics.StructuralIndex
