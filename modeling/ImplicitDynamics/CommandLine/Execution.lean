import ImplicitDynamics.Analysis.Analyzer
import ImplicitDynamics.CommandLine.Arguments
import ImplicitDynamics.CommandLine.Folder
import ImplicitDynamics.CommandLine.Report
import ImplicitDynamics.Equation.Model
import ImplicitDynamics.Integration.Integrator

/-!
# Execution of a command line

The one file that the arguments name is read outside; from its text on all is
a function: the system is compiled, analysed if asked for, and integrated
unless that is to be skipped.
-/

namespace ImplicitDynamics.CommandLine

/-- Why a command failed, the outermost reason first. -/
structure Failure where
  reason : String
  causes : List String

inductive Outcome where
  | refused
  | failed (failure : Failure)
  | lines (lines : List String)
  | document (document : Document)

namespace Failure

/-- A message whose lines after the first are moved to the right. -/
def indent (first rest : String) (message : String) : String :=
  let lines := (Text.pieces (· = '\n') message.toList).map String.ofList
  first ++ ("\n" ++ rest).intercalate lines

/-- One cause, numbered if there are several. -/
def causeLine (several : Bool) (number : Nat) (cause : String) : String :=
  if several then indent (Decimal.padLeft 5 (toString number) ++ ": ") "       " cause
  else indent "    " "    " cause

def report (failure : Failure) : String :=
  let several := 1 < failure.causes.length
  let causes := failure.causes.zipIdx.map fun (cause, number) =>
    "\n" ++ causeLine several number cause
  "Error: " ++ failure.reason ++
    (if causes.isEmpty then "" else "\n\nCaused by:" ++ String.join causes) ++ "\n"

/-- The messages of an error in a text, from the outside in. -/
def messages (error : ParseError) : List String :=
  match error with
  | .expression _ cause => [error.message, cause.message]
  | _ => [error.message]

def ofParse (error : ParseError) : Failure :=
  ⟨error.message, (messages error).tail⟩

/-- A failure in the course of doing something. -/
def during (activity : String) (error : ParseError) : Failure :=
  ⟨activity, messages error⟩

end Failure

/-- The file to read, and what reading it is called. -/
def Arguments.source? (arguments : Arguments) : Option (String × String) :=
  match arguments.model, arguments.equations with
  | some path, _ => some (path, "reading model file " ++ path)
  | none, some path => some (path, "reading equation file " ++ path)
  | none, none => none

def loadModel (path text : String) : Except Failure (CompiledSystem Float × List Float) := do
  let model ← (Model.parse text).mapError (Failure.during ("parsing model file " ++ path))
  model.compile.mapError Failure.ofParse

def loadEquations (arguments : Arguments) (path text : String) :
    Except Failure (CompiledSystem Float × List Float) := do
  let parameters ←
    match arguments.params with
    | none => pure ParameterMap.empty
    | some params =>
      (Assignments.parseParameters params).mapError (Failure.during "parsing parameters")
  let system ← (CompiledSystem.compileText parameters text).mapError
    (Failure.during ("compiling " ++ path))
  match arguments.initial with
  | none => throw ⟨"--initial is required with --equations", []⟩
  | some initial =>
    let state ← (system.parseInitialConditions initial).mapError
      (Failure.during "parsing initial conditions")
    return (system, state)

/-- The system and its initial state, from the text of the file. -/
def load (arguments : Arguments) (text : String) :
    Except Failure (CompiledSystem Float × List Float) :=
  match arguments.model, arguments.equations with
  | some path, _ => loadModel path text
  | none, some path => loadEquations arguments path text
  | none, none => .error ⟨"either --model or --equations is required", []⟩

def solverFailure (error : SolverError Float) : Failure :=
  ⟨error.message, []⟩

def integrate (arguments : Arguments) (system : ResidualSystem Float) (state : List Float) :
    Except Failure (Trajectory Float) := do
  let settings ←
    match arguments.settings with
    | none => pure []
    | some text =>
      (Assignments.parse text).mapError (Failure.during "parsing solver settings")
  let config : Config Float :=
    ⟨arguments.intervals, arguments.start, arguments.stop, state⟩
  let (prepared, integrator) :=
    (Integrator.create arguments.solver system config).prepare settings
  prepared.mapError solverFailure
  let run := integrator.run (fun _ control => control) Control.fresh
  run.trajectory.mapError solverFailure

def results (arguments : Arguments) (text : String) : Except Failure Results := do
  let (system, state) ← load arguments text
  let residual := system.toResidual
  let analysis ←
    if arguments.analyze then
      let analysis ← (Analyzer.analyze AnalyzerSettings.standard residual state
        arguments.start).mapError fun error => (⟨error.message, []⟩ : Failure)
      pure (some analysis)
    else pure none
  let trajectory ←
    if arguments.analyzeOnly then pure none
    else (integrate arguments residual state).map some
  return ⟨system.vars.names, analysis, trajectory⟩

/-- Executes a command; `read` gives the text of a file, or says why it cannot
be read. -/
def execute {m : Type → Type} [Monad m] (read : String → m (Except FileFault String))
    (arguments : List String) : m Outcome := do
  match Request.parse arguments with
  | .refused => return .refused
  | .help => return .lines helpLines
  | .run arguments =>
    match arguments.source? with
    | none => return .refused
    | some (path, activity) =>
      match ← read path with
      | .error cause => return .failed ⟨activity, [cause.message]⟩
      | .ok text =>
        match results arguments text with
        | .error failure => return .failed failure
        | .ok results =>
          if arguments.json then return .document results.document
          else return .lines results.lines

end ImplicitDynamics.CommandLine
