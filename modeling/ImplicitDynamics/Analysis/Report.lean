import ImplicitDynamics.FiniteDifference
import ImplicitDynamics.Linear.Eigenvalues
import ImplicitDynamics.Structure.Graph

/-!
# What an analysis says about a system

The result of an analysis, the warnings that follow from it, the events that
are told while it runs, and the reasons for which it fails.
-/

namespace ImplicitDynamics

structure AnalyzerSettings (α : Type) where
  /-- The step with which the dependencies are found. -/
  perturbation : α
  stiffnessThreshold : α
  /-- The largest structural index that is looked for. -/
  maxIndex : Nat
  /-- Jacobian steps are `sqrt jacobianTolerance · max (‖y‖, 1)`. -/
  jacobianTolerance : α
  /-- A smaller singular value makes a Jacobian nearly singular. -/
  singularThreshold : α

def AnalyzerSettings.standard {α : Type} [Scalar α] : AnalyzerSettings α where
  perturbation := 1e-6
  stiffnessThreshold := 1000
  maxIndex := 4
  jacobianTolerance := 1e-12
  singularThreshold := 1e-10

inductive AnalysisError (α : Type) where
  | dimensionMismatch (expected actual : Nat)
  | emptySystem
  | evaluation (cause : EvalError α)
  | cancelled
  deriving Repr, DecidableEq

def AnalysisError.message : AnalysisError Float → String
  | dimensionMismatch expected actual =>
    s!"initial state dimension mismatch: expected {expected}, got {actual}"
  | emptySystem => "system has zero dimension"
  | evaluation cause => cause.message
  | cancelled => "analysis cancelled"

def AnalysisError.ofJacobian {α : Type} : JacobianError α → AnalysisError α
  | .evaluation cause => .evaluation cause
  | .cancelled => .cancelled

inductive AnalysisStage where
  | dependencies
  | classification
  | index
  | jacobian
  | spectrum
  | decomposition
  | complete
  deriving Repr, DecidableEq

structure AnalysisEvent (α : Type) where
  stage : AnalysisStage
  percentage : α
  message : String

/-- The largest over the smallest singular value of a Jacobian, if it can be
told. -/
inductive Conditioning (α : Type) where
  | unavailable
  | nearlySingular
  | number (value : α)
  deriving Repr, DecidableEq

/-- The strongly connected components of the dependencies: all of them, the
coupled ones, and the variables on their own. -/
structure Decomposition where
  blocks : List (List Nat)
  deriving Repr, DecidableEq

namespace Decomposition

def coupled (decomposition : Decomposition) : List (List Nat) :=
  decomposition.blocks.filter fun block => 1 < block.length

def singles (decomposition : Decomposition) : List Nat :=
  (decomposition.blocks.filter fun block => block.length = 1).flatten

end Decomposition

structure Analysis (α : Type) where
  index : Nat
  algebraic : List Bool
  dependencies : DependencyGraph
  cycles : List (List Nat)
  isStiff : Bool
  conditioning : Conditioning α
  stiffnessRatio : α
  eigenvalues : List (Linear.Eigenvalue α)
  decomposition : Decomposition

namespace Analysis

variable {α : Type}

def algebraicCount (analysis : Analysis α) : Nat :=
  analysis.algebraic.count true

def hasCircularDependency (analysis : Analysis α) : Bool :=
  !analysis.cycles.isEmpty

/-- The name of a variable, or one made from its number. -/
def variableName (names : List String) (index : Nat) : String :=
  names.getD index s!"y{index}"

def renderPath (names : List String) (path : List Nat) : String :=
  " → ".intercalate (path.map (variableName names))

def circularPaths (analysis : Analysis α) (names : List String) : List String :=
  analysis.cycles.map (renderPath names)

end Analysis

inductive Warning where
  | highIndex (index : Nat)
  | stiff
  | algebraicConstraints (count : Nat)
  | circularDependency (path : List Nat)
  | coupledBlock (block : List Nat)
  deriving Repr, DecidableEq

def Warning.message (names : List String) : Warning → String
  | highIndex index => s!"High index ({index}) DAE detected. Consider index reduction."
  | stiff => "Stiff system detected. Implicit solvers recommended."
  | algebraicConstraints count => s!"System contains {count} algebraic constraints."
  | circularDependency path => "Circular dependency: " ++ Analysis.renderPath names path
  | coupledBlock block =>
    "Coupled equation block: " ++ ", ".intercalate (block.map (Analysis.variableName names))

def Analysis.warnings {α : Type} (analysis : Analysis α) : List Warning :=
  (if 2 < analysis.index then [.highIndex analysis.index] else []) ++
  (if analysis.isStiff then [.stiff] else []) ++
  (if 0 < analysis.algebraicCount then [.algebraicConstraints analysis.algebraicCount]
    else []) ++
  analysis.cycles.map .circularDependency ++
  analysis.decomposition.coupled.map .coupledBlock

end ImplicitDynamics
