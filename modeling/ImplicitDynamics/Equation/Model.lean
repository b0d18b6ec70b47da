import ImplicitDynamics.Equation.System

/-!
# Model texts

A model text declares variables and parameters and then gives initial values
and equations in sections of their own:

    model Oscillator
      Real x, v;
      parameter Real k = 2.0;
    initial equation
      x = 1.0;
    equation
      der(x) = v;
      der(v) = -k*x;
    end Oscillator;
-/

namespace ImplicitDynamics

structure Model (α : Type) where
  name : Option String
  vars : List String
  parameters : List (String × α)
  initialValues : List (String × α)
  equations : List String

namespace Model

/-- Words of the format, which cannot name a variable or a parameter. -/
def keywords : List String :=
  ["Real", "parameter", "initial", "equation", "model", "end"]

/-- What a plain line means depends on where it stands. -/
inductive Section where
  | declarations
  | initialValues
  | equations
  deriving Repr, DecidableEq

variable {α : Type} [Scalar α]

def empty : Model α := ⟨none, [], [], [], []⟩

structure Draft (α : Type) where
  model : Model α
  part : Section

def checkName (name : String) : Except ParseError Unit :=
  if !Name.isIdentifier name || Name.isReserved name || keywords.contains name then
    .error (.invalidName name)
  else .ok ()

/-- The first word of a line and the trimmed rest. -/
def splitKeyword (line : List Char) : String × List Char :=
  match Text.cut? Text.isBlank line with
  | some (head, tail) => (String.ofList head, Text.trim tail)
  | none => (String.ofList line, [])

def declareVariables (model : Model α) : List String → Except ParseError (Model α)
  | [] => .ok model
  | name :: rest =>
    match checkName name with
    | .error cause => .error cause
    | .ok () =>
      if (model.parameters.map Prod.fst).contains name then
        .error (.parameterAsVariable name)
      else if model.vars.contains name then .error (.duplicateVariable name)
      else declareVariables { model with vars := model.vars ++ [name] } rest

/-- Declares a parameter with its value; the type before the name may be left
out. -/
def declareParameter (model : Model α) (line : Nat) (text : String) (rest : List Char) :
    Except ParseError (Model α) :=
  let declaration := ((Text.after? "Real".toList rest).map Text.trim).getD rest
  match Assignments.parse (String.ofList declaration) with
  | .error cause => .error cause
  | .ok [(name, value)] =>
    match checkName name with
    | .error cause => .error cause
    | .ok () =>
      if model.vars.contains name then .error (.parameterAsVariable name)
      else if (model.parameters.map Prod.fst).contains name then
        .error (.duplicateAssignment name)
      else .ok { model with parameters := model.parameters ++ [(name, value)] }
  | .ok _ => .error (.invalidDeclaration line text)

/-- Adds initial values, each name once in the whole model. -/
def addInitialValues (model : Model α) : List (String × α) → Except ParseError (Model α)
  | [] => .ok model
  | (name, value) :: rest =>
    if (model.initialValues.map Prod.fst).contains name then
      .error (.duplicateAssignment name)
    else
      addInitialValues { model with initialValues := model.initialValues ++ [(name, value)] }
        rest

def readPlain (draft : Draft α) (line : Nat) (text : String) : Except ParseError (Draft α) :=
  match draft.part with
  | .declarations => .error (.statementOutsideSection line text)
  | .initialValues =>
    match Assignments.parse text with
    | .error cause => .error cause
    | .ok assigned =>
      (addInitialValues draft.model assigned).map fun model => { draft with model }
  | .equations =>
    .ok { draft with
          model := { draft.model with equations := draft.model.equations ++ [text] } }

/-- Reads the body of a line, which is not empty. -/
def readLine (draft : Draft α) (line : Nat) (text : String) : Except ParseError (Draft α) :=
  let (keyword, rest) := splitKeyword text.toList
  let model := draft.model
  if keyword = "model" then
    .ok { draft with model := { model with name := some (String.ofList rest) } }
  else if keyword = "end" then .ok draft
  else if keyword = "initial" && rest = "equation".toList then
    .ok { draft with part := .initialValues }
  else if keyword = "equation" && rest.isEmpty then .ok { draft with part := .equations }
  else if keyword = "Real" then
    let names := (Text.pieces (· = ',') rest).map fun name => String.ofList (Text.trim name)
    (declareVariables model names).map fun model => { draft with model }
  else if keyword = "parameter" then
    (declareParameter model line text rest).map fun model => { draft with model }
  else readPlain draft line text

/-- Reads the bodies of lines, the first of which is line `number`. -/
def readLines (draft : Draft α) (number : Nat) : List String → Except ParseError (Draft α)
  | [] => .ok draft
  | text :: rest =>
    if text.isEmpty then readLines draft (number + 1) rest
    else
      match readLine draft number text with
      | .error cause => .error cause
      | .ok next => readLines next (number + 1) rest

/-- The model of a text; initial values are for declared variables. -/
def parse (text : String) : Except ParseError (Model α) :=
  let lines := (Text.lines text.toList).map String.ofList
  let bodies := (Comment.stripAll false lines).1.map Statement.body
  match readLines ⟨empty, .declarations⟩ 1 bodies with
  | .error cause => .error cause
  | .ok draft =>
    let model := draft.model
    match model.initialValues.find? fun (name, _) => !model.vars.contains name with
    | some (name, _) => .error (.unknownVariable name)
    | none => .ok model

def setInitial (vars : SymbolTable) :
    List (String × α) → List α → Except ParseError (List α)
  | [], state => .ok state
  | (name, value) :: rest, state =>
    match vars.indexOf? name with
    | none => .error (.unknownVariable name)
    | some index => setInitial vars rest (state.set index value)

/-- The compiled equations and the initial state, which is zero where no
initial value is given. -/
def compile (model : Model α) : Except ParseError (CompiledSystem α × List α) :=
  match
    CompiledSystem.compileDeclared (ParameterMap.ofList model.parameters) model.equations
      model.vars with
  | .error cause => .error cause
  | .ok system =>
    (setInitial system.vars model.initialValues
      (List.replicate model.vars.length 0)).map fun state => (system, state)

end Model

end ImplicitDynamics
