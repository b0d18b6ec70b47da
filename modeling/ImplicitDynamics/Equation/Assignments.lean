import ImplicitDynamics.Expression.Parameters

/-!
# Lists of assignments

Parameters and initial conditions are given as `name = value` entries between
semicolons or line feeds.  Blanks around an entry, a name or a value do not
count, and neither do empty entries.  Each name is assigned at most once and
each value is finite.

How a number is read is a parameter here: any partial function will do.
-/

namespace ImplicitDynamics.Assignments

variable {α : Type} [Scalar α]

def entry? (read : List Char → Option α) (entry : List Char) :
    Except ParseError (String × α) :=
  match Text.cut? (· = '=') entry with
  | none => .error (.invalidAssignment (String.ofList entry))
  | some (left, right) =>
    let name := String.ofList (Text.trim left)
    let value := Text.trim right
    if !Name.isIdentifier name || value.contains '=' then
      .error (.invalidAssignment (String.ofList entry))
    else
      match (read value).filter Scalar.isFinite with
      | some number => .ok (name, number)
      | none => .error (.invalidNumber name (String.ofList value))

/-- The assignments of trimmed entries, none of a name in `seen`. -/
def entries? (read : List Char → Option α) (seen : List String) :
    List (List Char) → Except ParseError (List (String × α))
  | [] => .ok []
  | entry :: rest =>
    if entry.isEmpty then entries? read seen rest
    else
      match entry? read entry with
      | .error cause => .error cause
      | .ok (name, value) =>
        if seen.contains name then .error (.duplicateAssignment name)
        else (entries? read (name :: seen) rest).map ((name, value) :: ·)

def isSeparator (c : Char) : Bool :=
  c = ';' || c = '\n'

def parseWith (read : List Char → Option α) (text : String) :
    Except ParseError (List (String × α)) :=
  entries? read [] ((Text.pieces isSeparator text.toList).map Text.trim)

def parse (text : String) : Except ParseError (List (String × α)) :=
  parseWith Scalar.read? text

/-- Assignments to parameters, whose names must not have a meaning of their
own. -/
def parseParameters (text : String) : Except ParseError (ParameterMap α) :=
  match parse text with
  | .error cause => .error cause
  | .ok assigned =>
    match assigned.find? fun (name, _) => Name.isReserved name with
    | some (name, _) => .error (.invalidName name)
    | none => .ok (ParameterMap.ofList assigned)

def fill (vars : SymbolTable) : List (String × α) → List (Option α) →
    Except ParseError (List (Option α))
  | [], slots => .ok slots
  | (name, value) :: rest, slots =>
    match vars.indexOf? name with
    | none => .error (.unknownVariable name)
    | some index => fill vars rest (slots.set index (some value))

def missing (vars : SymbolTable) (slots : List (Option α)) : List String :=
  ((vars.names.zip slots).filter fun (_, slot) => slot.isNone).map Prod.fst

/-- A state in the order of the variables, from assignments to all of them. -/
def parseInitialConditions (text : String) (vars : SymbolTable) :
    Except ParseError (List α) :=
  match parse text with
  | .error cause => .error cause
  | .ok assigned =>
    match fill vars assigned (List.replicate vars.size none) with
    | .error cause => .error cause
    | .ok slots =>
      let unassigned := missing vars slots
      if unassigned.isEmpty then .ok (slots.filterMap id)
      else .error (.missingInitialConditions unassigned)

end ImplicitDynamics.Assignments
