import ImplicitDynamics.Equation.Assignments
import ImplicitDynamics.Equation.Statement
import ImplicitDynamics.Residual

/-!
# Compiled systems

Equations are compiled against the variables that they define and a set of
parameters.  Equation `i` belongs to variable `i`.  Its row of the residual is
`x' - rhs` for a differential equation and `rhs` for an algebraic one.
-/

namespace ImplicitDynamics

structure Equation (α : Type) where
  variableName : String
  index : Nat
  kind : EquationKind
  source : String
  expression : String
  program : Program α

structure CompiledSystem (α : Type) where
  vars : SymbolTable
  parameters : ParameterMap α
  equations : List (Equation α)

namespace Equation

variable {α : Type} [Scalar α]

/-- The row of the residual that an equation stands for. -/
def row (equation : Equation α) (bindings : Bindings α) : Except (EvalError α) α :=
  match equation.program.eval bindings with
  | .error cause => .error cause
  | .ok value =>
    match equation.kind with
    | .differential => .ok (bindings.derivatives.getD equation.index 0 - value)
    | .algebraic => .ok value

/-- Compiles statements in order; `index` is the number of the first. -/
def compileAll (scope : Program.Scope) (index : Nat) :
    List Statement → Except ParseError (List (Equation α))
  | [] => .ok []
  | statement :: rest =>
    match Program.ofTokens statement.tokens scope with
    | .error cause => .error (.expression statement.source cause)
    | .ok program =>
      let equation : Equation α :=
        { variableName := statement.variableName
          index
          kind := statement.kind
          source := statement.source
          expression := statement.expression
          program }
      (compileAll scope (index + 1) rest).map (equation :: ·)

end Equation

namespace CompiledSystem

variable {α : Type} [Scalar α]

/-- Compiles statements that define the given variables in this order. -/
def ofStatements (parameters : ParameterMap α) (vars : SymbolTable)
    (statements : List Statement) : Except ParseError (CompiledSystem α) :=
  match Statement.undefinedSymbols vars parameters.contains statements with
  | [] =>
    (Equation.compileAll ⟨vars, parameters.symbols⟩ 0 statements).map fun equations =>
      { vars, parameters, equations }
  | undefined => .error (.undefinedSymbols undefined)

/-- Compiles one equation per line; variables are numbered as their equations
come. -/
def compile (parameters : ParameterMap α) (lines : List String) :
    Except ParseError (CompiledSystem α) :=
  match Statement.parseLines parameters.contains lines with
  | .error cause => .error cause
  | .ok statements =>
    ofStatements parameters (SymbolTable.ofList (statements.map (·.variableName))) statements

def compileText (parameters : ParameterMap α) (text : String) :
    Except ParseError (CompiledSystem α) :=
  compile parameters ((Text.lines text.toList).map String.ofList)

/-- Compiles equations for declared variables, which are numbered as they are
declared.  Each has one equation, and no other variable has one. -/
def compileDeclared (parameters : ParameterMap α) (lines : List String)
    (declared : List String) : Except ParseError (CompiledSystem α) :=
  match Statement.parseLines parameters.contains lines with
  | .error cause => .error cause
  | .ok statements =>
    let defined := statements.map (·.variableName)
    match declared.filter fun name => !defined.contains name with
    | [] =>
      match defined.filter fun name => !declared.contains name with
      | [] =>
        let vars := SymbolTable.ofList declared
        let place (statement : Statement) : Nat :=
          (vars.indexOf? statement.variableName).getD vars.size
        ofStatements parameters vars
          (statements.mergeSort fun a b => decide (place a ≤ place b))
      | undeclared => .error (.undeclaredVariables undeclared)
    | missing => .error (.missingEquations missing)

def dimension (system : CompiledSystem α) : Nat :=
  system.equations.length

def parameter? (system : CompiledSystem α) (name : String) : Option α :=
  system.parameters.get? name

/-- Gives a parameter another value; an unknown name changes nothing. -/
def setParameter (system : CompiledSystem α) (name : String) (value : α) :
    CompiledSystem α :=
  if system.parameters.contains name then
    { system with parameters := system.parameters.set name value }
  else system

def differentialMask (system : CompiledSystem α) : List Bool :=
  system.equations.map fun equation => equation.kind = .differential

def parseInitialConditions (system : CompiledSystem α) (text : String) :
    Except ParseError (List α) :=
  Assignments.parseInitialConditions text system.vars

def writeRows (bindings : Bindings α) : List (Equation α) → List α → Written α
  | equation :: equations, slot :: slots =>
    match equation.row bindings with
    | .error cause => ⟨slot :: slots, some cause⟩
    | .ok value =>
      let rest := writeRows bindings equations slots
      ⟨value :: rest.out, rest.failure⟩
  | _, slots => ⟨slots, none⟩

def toResidual (system : CompiledSystem α) : ResidualSystem α where
  dimension := system.dimension
  residual t y yp out :=
    match ResidualSystem.mismatch? system.dimension y yp out with
    | some cause => ⟨out, some cause⟩
    | none =>
      writeRows
        { time := t, state := y, derivatives := yp, parameters := system.parameters.values }
        system.equations out

end CompiledSystem

end ImplicitDynamics
