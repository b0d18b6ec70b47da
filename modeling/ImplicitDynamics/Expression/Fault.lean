import ImplicitDynamics.Decimal.Layout

/-!
# What can be wrong with a text or an evaluation

Each type lists causes.  The wording of a cause is fixed in its `message`
function and nowhere else.
-/

namespace ImplicitDynamics

inductive Malformed where
  | unknownSymbol (name : String)
  | mismatchedParentheses
  | missingOperand (symbol : String)
  | operandCount (left : Nat)
  | functionWithoutArguments (name : String)
  | invalidDerivative (shown : String)
  | invalidNumber (text : String)
  deriving Repr, DecidableEq

def Malformed.message : Malformed → String
  | unknownSymbol name => s!"unknown variable or parameter: {name}"
  | mismatchedParentheses => "mismatched parentheses"
  | missingOperand symbol =>
    s!"invalid expression: not enough operands for '{symbol}'"
  | operandCount left =>
    s!"invalid expression: incorrect number of operands ({left} left on stack)"
  | functionWithoutArguments name => s!"function {name} must be followed by '('"
  | invalidDerivative shown => s!"der() expects a single variable name, got {shown}"
  | invalidNumber text => s!"invalid number literal: {text}"

inductive EvalError (α : Type) where
  | malformed (cause : Malformed)
  | divisionByZero
  | negativeSqrt (argument : α)
  | dimensionMismatch (expected actual : Nat)
  deriving Repr, DecidableEq

def EvalError.message : EvalError Float → String
  | malformed cause => cause.message
  | divisionByZero => "division by zero"
  | negativeSqrt argument =>
    s!"square root of negative number ({Decimal.shortest argument})"
  | dimensionMismatch expected actual =>
    s!"dimension mismatch: expected {expected}, got {actual}"

inductive ParseError where
  | unexpectedCharacter (found : Char) (position : Nat) (input : String)
  | invalidEquation (text : String)
  | invalidName (name : String)
  | duplicateVariable (name : String)
  | parameterAsVariable (name : String)
  | emptySystem
  | missingEquations (names : List String)
  | undeclaredVariables (names : List String)
  | undefinedSymbols (names : List String)
  | expression (equation : String) (cause : Malformed)
  | invalidAssignment (text : String)
  | invalidNumber (name text : String)
  | duplicateAssignment (name : String)
  | unknownVariable (name : String)
  | missingInitialConditions (names : List String)
  | invalidDeclaration (line : Nat) (text : String)
  | statementOutsideSection (line : Nat) (text : String)
  deriving Repr, DecidableEq

namespace ParseError

def listed (names : List String) : String :=
  ", ".intercalate names

def message : ParseError → String
  | unexpectedCharacter found position input =>
    s!"unexpected character '{found}' at position {position} in \"{input}\""
  | invalidEquation text => s!"invalid equation format: {text}"
  | invalidName name => s!"invalid variable name: {name}"
  | duplicateVariable name => s!"variable {name} appears in multiple equations"
  | parameterAsVariable name => s!"cannot use parameter {name} as variable"
  | emptySystem => "no equations defined"
  | missingEquations names => s!"missing equations for variables: {listed names}"
  | undeclaredVariables names => s!"equations define undeclared variables: {listed names}"
  | undefinedSymbols names => s!"undefined symbols referenced: {listed names}"
  | expression equation cause =>
    s!"invalid expression in \"{equation}\": {cause.message}"
  | invalidAssignment text => s!"invalid assignment format: {text}"
  | invalidNumber name text => s!"invalid number format for {name}: {text}"
  | duplicateAssignment name => s!"duplicate assignment for {name}"
  | unknownVariable name => s!"unknown variable in initial conditions: {name}"
  | missingInitialConditions names =>
    s!"missing initial conditions for variables: {listed names}"
  | invalidDeclaration line text => s!"invalid model declaration on line {line}: {text}"
  | statementOutsideSection line text =>
    s!"statement outside of a section on line {line}: {text}"

end ParseError

end ImplicitDynamics
