import ImplicitDynamics.Expression.Symbols
import ImplicitDynamics.Expression.Token
import ImplicitDynamics.Scalar

/-!
# Postfix programs

Tokens become a program for a stack by operator precedence.  Operators,
functions and open parentheses wait on a second stack until the operands that
they need are complete.  While the program grows, the height of its stack is
counted, so that an operation without its operands is refused at once.
-/

namespace ImplicitDynamics

inductive Op (α : Type) where
  | const (value : α)
  | time
  | variable (index : Nat)
  | derivative (index : Nat)
  | parameter (index : Nat)
  | binary (op : Binop)
  | call (f : Elementary)
  deriving Repr, DecidableEq

namespace Op

variable {α : Type}

def arity : Op α → Nat
  | binary _ => 2
  | call _ => 1
  | _ => 0

def symbol : Op α → String
  | binary op => op.symbol
  | call f => f.name
  | _ => "load"

end Op

/-- What waits for its operands. -/
inductive Pending where
  | operator (op : Binop) (precedence : Nat)
  | function (f : Elementary)
  | leftParen
  deriving Repr, DecidableEq

/-- The operation of what waits; an open parenthesis is none. -/
def Pending.op? {α : Type} : Pending → Option (Op α)
  | operator op _ => some (.binary op)
  | function f => some (.call f)
  | leftParen => none

/-- A program so far, the height of its stack at the end, and the largest
height on the way. -/
structure Emitter (α : Type) where
  ops : List (Op α)
  depth : Nat
  maxDepth : Nat

namespace Emitter

variable {α : Type}

def empty : Emitter α := ⟨[], 0, 0⟩

def emit (emitter : Emitter α) (op : Op α) : Except Malformed (Emitter α) :=
  if emitter.depth < op.arity then .error (.missingOperand op.symbol)
  else
    let depth := emitter.depth - op.arity + 1
    .ok ⟨emitter.ops ++ [op], depth, max emitter.maxDepth depth⟩

/-- Emits the operators on top that bind at least as tightly as
`precedence`. -/
def reduce (precedence : Nat) : List Pending → Emitter α →
    Except Malformed (List Pending × Emitter α)
  | .operator op top :: rest, emitter =>
    if top < precedence then .ok (.operator op top :: rest, emitter)
    else
      match emitter.emit (.binary op) with
      | .ok next => reduce precedence rest next
      | .error cause => .error cause
  | pending, emitter => .ok (pending, emitter)

/-- Emits what waits above the last open parenthesis, which stays on top. -/
def reduceToParen : List Pending → Emitter α →
    Except Malformed (List Pending × Emitter α)
  | [], _ => .error .mismatchedParentheses
  | top :: rest, emitter =>
    match top.op? with
    | none => .ok (top :: rest, emitter)
    | some op =>
      match emitter.emit op with
      | .ok next => reduceToParen rest next
      | .error cause => .error cause

/-- Emits all that waits; no parenthesis may be open. -/
def reduceAll : List Pending → Emitter α → Except Malformed (Emitter α)
  | [], emitter => .ok emitter
  | top :: rest, emitter =>
    match top.op? with
    | none => .error .mismatchedParentheses
    | some op =>
      match emitter.emit op with
      | .ok next => reduceAll rest next
      | .error cause => .error cause

/-- Closes the last open parenthesis, and with it the function call that it
belongs to. -/
def close (pending : List Pending) (emitter : Emitter α) :
    Except Malformed (List Pending × Emitter α) :=
  match reduceToParen pending emitter with
  | .ok (_ :: .function f :: rest, next) =>
    match next.emit (.call f) with
    | .ok last => .ok (rest, last)
    | .error cause => .error cause
  | .ok (_ :: rest, next) => .ok (rest, next)
  | .ok ([], next) => .ok ([], next)
  | .error cause => .error cause

end Emitter

/-- A program in postfix order and the height of the stack that it needs. -/
structure Program (α : Type) where
  ops : List (Op α)
  maxDepth : Nat
  deriving Repr, DecidableEq

namespace Program

variable {α : Type} [Scalar α]

structure Scope where
  vars : SymbolTable
  parameters : SymbolTable

/-- A name means the time, else a variable, else a parameter. -/
def resolve (scope : Scope) (name : String) : Except Malformed (Op α) :=
  if name = Name.time then .ok .time
  else
    match scope.vars.indexOf? name with
    | some index => .ok (.variable index)
    | none =>
      match scope.parameters.indexOf? name with
      | some index => .ok (.parameter index)
      | none => .error (.unknownSymbol name)

/-- The variable named in parentheses right after the word for a
derivative. -/
def derivativeTarget : List Token → Except Malformed String
  | opening :: name :: closing :: rest =>
    if opening.kind = .leftParen && name.kind = .identifier
        && closing.kind = .rightParen then .ok name.text
    else .error (.invalidDerivative (shown (opening :: name :: closing :: rest)))
  | tokens => .error (.invalidDerivative (shown tokens))
where
  /-- Up to three tokens as they were written. -/
  shown (tokens : List Token) : String :=
    String.join ((tokens.take 3).map Token.text)

def resolveDerivative (scope : Scope) (name : String) : Except Malformed (Op α) :=
  match scope.vars.indexOf? name with
  | some index => .ok (.derivative index)
  | none => .error (.unknownSymbol ("der(" ++ name ++ ")"))

def constant (text : String) : Except Malformed (Op α) :=
  match Scalar.read? text.toList with
  | some value => .ok (.const value)
  | none => .error (.invalidNumber text)

/-- What waits and what is emitted after one token, which is not the word for
a derivative.  `followed` tells whether an open parenthesis comes next. -/
def shift (scope : Scope) (token : Token) (followed : Bool)
    (pending : List Pending) (emitter : Emitter α) :
    Except Malformed (List Pending × Emitter α) :=
  match token.kind with
  | .number => do
    let op ← constant token.text
    return (pending, ← emitter.emit op)
  | .identifier => do
    let op ← resolve scope token.text
    return (pending, ← emitter.emit op)
  | .function =>
    match Elementary.ofName? token.text with
    | none => .error (.unknownSymbol token.text)
    | some f =>
      if followed then .ok (.function f :: pending, emitter)
      else .error (.functionWithoutArguments token.text)
  | .operator =>
    match Binop.ofSymbol? token.text with
    | none => .error (.unknownSymbol token.text)
    | some op =>
      if token.unary then .ok (.operator op token.precedence :: pending, emitter)
      else do
        let (rest, next) ← Emitter.reduce token.precedence pending emitter
        return (.operator op token.precedence :: rest, next)
  | .leftParen => .ok (.leftParen :: pending, emitter)
  | .rightParen => Emitter.close pending emitter
  | .comma => Emitter.reduceToParen pending emitter

def isDerivative (token : Token) : Bool :=
  token.kind = .function && token.text = Name.derivative

def startsParen (tokens : List Token) : Bool :=
  (tokens.head?.map fun token => decide (token.kind = .leftParen)).getD false

/-- Shifts all tokens; a derivative takes its parentheses and name with it. -/
def shiftAll (scope : Scope) : List Token → List Pending → Emitter α →
    Except Malformed (List Pending × Emitter α)
  | [], pending, emitter => .ok (pending, emitter)
  | token :: rest, pending, emitter =>
    if isDerivative token then
      match derivativeTarget rest with
      | .error cause => .error cause
      | .ok name =>
        match resolveDerivative scope name with
        | .error cause => .error cause
        | .ok op =>
          match emitter.emit op with
          | .error cause => .error cause
          | .ok next => shiftAll scope (rest.drop 3) pending next
    else
      match shift scope token (startsParen rest) pending emitter with
      | .error cause => .error cause
      | .ok (waiting, next) => shiftAll scope rest waiting next
  termination_by tokens => tokens.length
  decreasing_by all_goals simp only [List.length_cons, List.length_drop]; omega

/-- The program of an expression.  It leaves exactly one value. -/
def ofTokens (tokens : List Token) (scope : Scope) : Except Malformed (Program α) :=
  match shiftAll scope tokens [] Emitter.empty with
  | .error cause => .error cause
  | .ok (pending, emitter) =>
    match Emitter.reduceAll pending emitter with
    | .error cause => .error cause
    | .ok final =>
      if final.depth = 1 then .ok ⟨final.ops, final.maxDepth⟩
      else .error (.operandCount final.depth)

end Program

end ImplicitDynamics
