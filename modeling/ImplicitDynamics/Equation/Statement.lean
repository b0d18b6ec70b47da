import ImplicitDynamics.Expression.Comment
import ImplicitDynamics.Expression.Symbols

/-!
# Equations as they are written

An equation defines one variable.  `der(x) = rhs` says what the derivative of
`x` is; `x = rhs` is a constraint that belongs to `x` and says that `rhs`
vanishes.
-/

namespace ImplicitDynamics

inductive EquationKind where
  | differential
  | algebraic
  deriving Repr, DecidableEq

/-- An equation that is read but not yet compiled. -/
structure Statement where
  source : String
  variableName : String
  kind : EquationKind
  expression : String
  tokens : List Token

namespace Statement

/-- The name between the parentheses that make up a text, blanks aside. -/
def parenthesized? (text : List Char) : Option (List Char) :=
  match Text.trim text with
  | '(' :: inner =>
    if inner.getLast? = some ')' then some (Text.trim inner.dropLast) else none
  | _ => none

/-- The variable and the kind of equation that a left side announces. -/
def leftSide? (text : List Char) : Option (List Char × EquationKind) :=
  match Text.after? Name.derivative.toList text with
  | some rest =>
    if (Text.trimStart rest).head? = some '(' then
      (parenthesized? rest).map fun name => (name, .differential)
    else some (text, .algebraic)
  | none => some (text, .algebraic)

/-- A left side names a variable that may be defined. -/
def parseLeftSide (text : List Char) : Except ParseError (String × EquationKind) :=
  match leftSide? text with
  | some (name, kind) =>
    let name := String.ofList name
    if !Name.isIdentifier name || Name.isReserved name then
      .error (.invalidName (String.ofList text))
    else .ok (name, kind)
  | none => .error (.invalidName (String.ofList text))

/-- The code of a line without its final semicolons and the blanks around
it. -/
def body (line : String) : String :=
  String.ofList (Text.trim (Text.dropEndWhile (· = ';') line.toList))

/-- Reads the body of a line.  No parameter may be defined by an equation. -/
def parse (isParameter : String → Bool) (text : String) : Except ParseError Statement :=
  match Text.pieces (· = '=') text.toList with
  | [left, right] =>
    let left := Text.trim left
    let right := Text.trim right
    if left.isEmpty || right.isEmpty then .error (.invalidEquation text)
    else
      match parseLeftSide left with
      | .error cause => .error cause
      | .ok (name, kind) =>
        if isParameter name then .error (.parameterAsVariable name)
        else
          let expression := String.ofList right
          (tokenize expression).map fun tokens =>
            { source := text, variableName := name, kind, expression, tokens }
  | _ => .error (.invalidEquation text)

/-- Reads bodies of lines, none of which defines a variable in `seen`. -/
def parseBodies (isParameter : String → Bool) (seen : List String) :
    List String → Except ParseError (List Statement)
  | [] => .ok []
  | text :: rest =>
    if text.isEmpty then parseBodies isParameter seen rest
    else
      match parse isParameter text with
      | .error cause => .error cause
      | .ok statement =>
        if seen.contains statement.variableName then
          .error (.duplicateVariable statement.variableName)
        else
          (parseBodies isParameter (statement.variableName :: seen) rest).map
            (statement :: ·)

/-- Reads the equations in a list of lines; there is at least one. -/
def parseLines (isParameter : String → Bool) (lines : List String) :
    Except ParseError (List Statement) :=
  match parseBodies isParameter [] ((Comment.stripAll false lines).1.map body) with
  | .error cause => .error cause
  | .ok [] => .error .emptySystem
  | .ok statements => .ok statements

/-- Names among tokens that mean nothing; `previous` lists the tokens before
these, the last first.  Two tokens after the word for a derivative only a
variable is known. -/
def undefinedAmong (vars : SymbolTable) (isParameter : String → Bool)
    (previous : List Token) : List Token → List String
  | [] => []
  | token :: rest =>
    let others := undefinedAmong vars isParameter (token :: previous) rest
    let isTarget := (previous[1]?.map fun earlier => decide (earlier.text = Name.derivative))
    let known := vars.contains token.text
      || (isTarget != some true && isParameter token.text)
    if token.kind = .identifier && token.text ≠ Name.time && !known then
      token.text :: others
    else others

/-- All names that mean nothing, in order and each once. -/
def undefinedSymbols (vars : SymbolTable) (isParameter : String → Bool)
    (statements : List Statement) : List String :=
  let names := statements.flatMap fun statement =>
    undefinedAmong vars isParameter [] statement.tokens
  names.eraseDups.mergeSort fun a b => decide (a ≤ b)

end Statement

end ImplicitDynamics
