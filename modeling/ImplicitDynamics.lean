import ImplicitDynamics.Analysis.Analyzer
import ImplicitDynamics.Analysis.Report
import ImplicitDynamics.Analysis.Spectrum
import ImplicitDynamics.CommandLine.Arguments
import ImplicitDynamics.CommandLine.Execution
import ImplicitDynamics.CommandLine.Folder
import ImplicitDynamics.CommandLine.Report
import ImplicitDynamics.Comparison
import ImplicitDynamics.Control
import ImplicitDynamics.Decimal.Binary
import ImplicitDynamics.Decimal.Layout
import ImplicitDynamics.Decimal.Rounding
import ImplicitDynamics.Decimal.Shortest
import ImplicitDynamics.Document
import ImplicitDynamics.Equation.Assignments
import ImplicitDynamics.Equation.Model
import ImplicitDynamics.Equation.Rebinding
import ImplicitDynamics.Equation.Statement
import ImplicitDynamics.Equation.System
import ImplicitDynamics.Expression.Comment
import ImplicitDynamics.Expression.Fault
import ImplicitDynamics.Expression.Machine
import ImplicitDynamics.Expression.Name
import ImplicitDynamics.Expression.Parameters
import ImplicitDynamics.Expression.Program
import ImplicitDynamics.Expression.Symbols
import ImplicitDynamics.Expression.Token
import ImplicitDynamics.FiniteDifference
import ImplicitDynamics.Integration.Bdf.Attempt
import ImplicitDynamics.Integration.Bdf.History
import ImplicitDynamics.Integration.Bdf.Integrator
import ImplicitDynamics.Integration.Bdf.Settings
import ImplicitDynamics.Integration.Bdf.StepControl
import ImplicitDynamics.Integration.Checked
import ImplicitDynamics.Integration.Config
import ImplicitDynamics.Integration.Core
import ImplicitDynamics.Integration.FixedStep
import ImplicitDynamics.Integration.Integrator
import ImplicitDynamics.Integration.Kind
import ImplicitDynamics.Integration.Newton
import ImplicitDynamics.Integration.Solver
import ImplicitDynamics.Integration.Stepper
import ImplicitDynamics.Linear.Bidiagonal
import ImplicitDynamics.Linear.Eigenvalues
import ImplicitDynamics.Linear.Elimination
import ImplicitDynamics.Linear.Grid
import ImplicitDynamics.Linear.Norm
import ImplicitDynamics.Linear.SingularValues
import ImplicitDynamics.Main
import ImplicitDynamics.Numeral
import ImplicitDynamics.Proofs.Acceptance
import ImplicitDynamics.Proofs.AcceptedSystems
import ImplicitDynamics.Proofs.AffineRows
import ImplicitDynamics.Proofs.AffineSystems
import ImplicitDynamics.Proofs.AlgebraicVariables
import ImplicitDynamics.Proofs.AnalysisEvents
import ImplicitDynamics.Proofs.AssignmentLists
import ImplicitDynamics.Proofs.BdfAttempt
import ImplicitDynamics.Proofs.BdfBounds
import ImplicitDynamics.Proofs.BdfHistory
import ImplicitDynamics.Proofs.BdfRun
import ImplicitDynamics.Proofs.BdfStart
import ImplicitDynamics.Proofs.BdfTurns
import ImplicitDynamics.Proofs.Cancellation
import ImplicitDynamics.Proofs.CheckedAccesses
import ImplicitDynamics.Proofs.CheckedRuns
import ImplicitDynamics.Proofs.Classification
import ImplicitDynamics.Proofs.CommentScanner
import ImplicitDynamics.Proofs.Comments
import ImplicitDynamics.Proofs.ConsistentPoints
import ImplicitDynamics.Proofs.CurveExpansions
import ImplicitDynamics.Proofs.Cycles
import ImplicitDynamics.Proofs.Dependencies
import ImplicitDynamics.Proofs.DoublePercentages
import ImplicitDynamics.Proofs.DoubleRounding
import ImplicitDynamics.Proofs.DoubleSums
import ImplicitDynamics.Proofs.Doubles
import ImplicitDynamics.Proofs.EmittedOperations
import ImplicitDynamics.Proofs.EquationOrder
import ImplicitDynamics.Proofs.ErrorMeasures
import ImplicitDynamics.Proofs.Exact
import ImplicitDynamics.Proofs.ExplicitSystems
import ImplicitDynamics.Proofs.ExpressionValue
import ImplicitDynamics.Proofs.FailedPreparation
import ImplicitDynamics.Proofs.FixedStepRun
import ImplicitDynamics.Proofs.FreshCopies
import ImplicitDynamics.Proofs.Grammar
import ImplicitDynamics.Proofs.Graphs
import ImplicitDynamics.Proofs.HistoryShape
import ImplicitDynamics.Proofs.ImplicitSteps
import ImplicitDynamics.Proofs.IndexRounds
import ImplicitDynamics.Proofs.InitialConditions
import ImplicitDynamics.Proofs.Interruption
import ImplicitDynamics.Proofs.KeyedLists
import ImplicitDynamics.Proofs.Lexemes
import ImplicitDynamics.Proofs.LinearSolutions
import ImplicitDynamics.Proofs.LinearVerdicts
import ImplicitDynamics.Proofs.LowLinks
import ImplicitDynamics.Proofs.Matching
import ImplicitDynamics.Proofs.MaximumMatching
import ImplicitDynamics.Proofs.ModelStates
import ImplicitDynamics.Proofs.NewtonIterations
import ImplicitDynamics.Proofs.Nordsieck
import ImplicitDynamics.Proofs.OperatorPrecedence
import ImplicitDynamics.Proofs.ParameterDeclarations
import ImplicitDynamics.Proofs.Parentheses
import ImplicitDynamics.Proofs.PositiveDivisors
import ImplicitDynamics.Proofs.PrintedModels
import ImplicitDynamics.Proofs.RateEquations
import ImplicitDynamics.Proofs.Rebinding
import ImplicitDynamics.Proofs.References
import ImplicitDynamics.Proofs.RefusedTokens
import ImplicitDynamics.Proofs.Relocation
import ImplicitDynamics.Proofs.Renumbering
import ImplicitDynamics.Proofs.Reordering
import ImplicitDynamics.Proofs.ResidualForm
import ImplicitDynamics.Proofs.Resolution
import ImplicitDynamics.Proofs.Retries
import ImplicitDynamics.Proofs.Scanning
import ImplicitDynamics.Proofs.SettingsOrder
import ImplicitDynamics.Proofs.SharedCopies
import ImplicitDynamics.Proofs.SharedSweeps
import ImplicitDynamics.Proofs.Simulation
import ImplicitDynamics.Proofs.SolverLifecycle
import ImplicitDynamics.Proofs.SpacedLexemes
import ImplicitDynamics.Proofs.StandaloneEvaluation
import ImplicitDynamics.Proofs.StateMatrix
import ImplicitDynamics.Proofs.StrongComponents
import ImplicitDynamics.Proofs.SweepSchedules
import ImplicitDynamics.Proofs.Sweeps
import ImplicitDynamics.Proofs.Texts
import ImplicitDynamics.Proofs.UndefinedNames
import ImplicitDynamics.Proofs.WorkingVectors
import ImplicitDynamics.Residual
import ImplicitDynamics.Scalar
import ImplicitDynamics.SharedSweep
import ImplicitDynamics.Structure.Components
import ImplicitDynamics.Structure.Cycles
import ImplicitDynamics.Structure.Graph
import ImplicitDynamics.Structure.Index
import ImplicitDynamics.Structure.Matching
import ImplicitDynamics.Text
import ImplicitDynamics.Trajectory
