import ImplicitDynamics.Integration.Kind
import ImplicitDynamics.Scalar

/-!
# Arguments of the command line

An option stands in an argument of its own.  Its value follows in the next
argument, which must not look like an option, or after an equals sign in the
same one.  Options are read from the left, and each value when it is reached;
help is only given if all before the request makes sense.  No option may be
given twice.

Exactly one of a model file and an equation file is read, and the time
integration can only be skipped if there is an analysis.
-/

namespace ImplicitDynamics.CommandLine

structure Arguments where
  model : Option String
  equations : Option String
  params : Option String
  initial : Option String
  solver : IntegratorKind
  start : Float
  stop : Float
  intervals : Nat
  settings : Option String
  analyze : Bool
  analyzeOnly : Bool
  json : Bool

inductive Request where
  | run (arguments : Arguments)
  | help
  | refused

namespace Arguments

def valued : List String :=
  ["--model", "--equations", "--params", "--initial", "--solver", "--start", "--end",
    "--intervals", "--settings"]

def flags : List String :=
  ["--analyze", "--analyze-only", "--json"]

abbrev Given := List (String × String)

def Given.get? (given : Given) (name : String) : Option String :=
  (given.find? fun (known, _) => known = name).map Prod.snd

def Given.has (given : Given) (name : String) : Bool :=
  given.any fun (known, _) => known = name

/-- An argument that cannot be a value. -/
def looksLikeOption (argument : String) : Bool :=
  argument.toList.head? = some '-' && argument ≠ "-"

/-- How far the options of a list of arguments can be read. -/
inductive Scan where
  | given (options : Given)
  | help
  | refused

/-- A count of intervals that fits a machine word. -/
def count? (text : String) : Option Nat :=
  let digits :=
    match text.toList with
    | '+' :: rest => rest
    | all => all
  if digits.isEmpty || !digits.all Char.isDigit then none
  else
    let value := Numeral.ofDigits digits
    if value < Nat.pow 2 64 then some value else none

def number? (text : String) : Option Float :=
  Scalar.read? text.toList

def kind? (text : String) : Option IntegratorKind :=
  (IntegratorKind.parse text).toOption

def isReadable (name value : String) : Bool :=
  if name = "--model" || name = "--equations" then value ≠ ""
  else if name = "--solver" then (kind? value).isSome
  else if name = "--start" || name = "--end" then (number? value).isSome
  else if name = "--intervals" then (count? value).isSome
  else true

def Given.add? (given : Given) (name value : String) : Option Given :=
  if given.has name || !isReadable name value then none else some ((name, value) :: given)

/-- A request for help is a word of its own, or the first letter after a dash. -/
def asksForHelp (argument : String) : Bool :=
  argument = "--help" || (Text.after? "-h".toList argument.toList).isSome

/-- Reads options from the left.  Nothing may follow the mark for the end of
the options. -/
def scan (given : Given) : List String → Scan
  | [] => .given given
  | argument :: rest =>
    if asksForHelp argument then .help
    else if argument = "--" then if rest.isEmpty then .given given else .refused
    else if flags.contains argument then
      if given.has argument then .refused else scan ((argument, "") :: given) rest
    else if valued.contains argument then
      match rest with
      | [] => .refused
      | value :: rest =>
        if looksLikeOption value then .refused
        else
          match given.add? argument value with
          | some next => scan next rest
          | none => .refused
    else
      match Text.cut? (· = '=') argument.toList with
      | none => .refused
      | some (name, value) =>
        let name := String.ofList name
        if valued.contains name then
          match given.add? name (String.ofList value) with
          | some next => scan next rest
          | none => .refused
        else .refused

/-- The value of an option, or a default; `none` if it cannot be read. -/
def readOr {β : Type} (read : String → Option β) (default : β) (given : Given)
    (name : String) : Option β :=
  match given.get? name with
  | none => some default
  | some text => read text

def areConsistent (given : Given) : Bool :=
  (given.has "--model" != given.has "--equations")
    && (!given.has "--analyze-only" || given.has "--analyze")

def ofGiven? (given : Given) : Option Arguments := do
  let solver ← readOr kind? .dassl given "--solver"
  let start ← readOr number? 0.0 given "--start"
  let stop ← readOr number? 10.0 given "--end"
  let intervals ← readOr count? 100 given "--intervals"
  if areConsistent given then
    some
      { model := given.get? "--model"
        equations := given.get? "--equations"
        params := given.get? "--params"
        initial := given.get? "--initial"
        solver
        start
        stop
        intervals
        settings := given.get? "--settings"
        analyze := given.has "--analyze"
        analyzeOnly := given.has "--analyze-only"
        json := given.has "--json" }
  else none

end Arguments

def Request.parse (arguments : List String) : Request :=
  match Arguments.scan [] arguments with
  | .help => .help
  | .refused => .refused
  | .given options =>
    match Arguments.ofGiven? options with
    | some arguments => .run arguments
    | none => .refused

def helpLines : List String :=
  ["Analyze and integrate differential-algebraic equation systems",
    "",
    "Usage: simdas [OPTIONS]",
    "",
    "Options:",
    "      --model <MODEL>          Model file with declarations, initial equations and equations",
    "      --equations <EQUATIONS>  Plain equation file, one equation per line",
    "      --params <PARAMS>        Parameter assignments for an equation file, e.g. \"k=2; c=0.5\"",
    "      --initial <INITIAL>      Initial conditions for an equation file, e.g. \"x=1; v=0\"",
    "      --solver <SOLVER>        explicit-euler, implicit-euler, rk4 or dassl [default: dassl]",
    "      --start <START>          [default: 0]",
    "      --end <END>              [default: 10]",
    "      --intervals <INTERVALS>  Number of steps for fixed-step solvers [default: 100]",
    "      --settings <SETTINGS>    Solver settings, e.g. \"relative_tolerance=1e-8; max_step=0.01\"",
    "      --analyze                Run the structural/numerical analysis before solving",
    "      --analyze-only           Skip the time integration",
    "      --json                   Print results as JSON instead of a table",
    "  -h, --help                   Print help"]

end ImplicitDynamics.CommandLine
