import ImplicitDynamics.Proofs.CompiledSystems
import Mathlib.Logic.Equiv.Defs

/-!
# Variables in other places

A program refers to variables by their places.  Tokens that are compiled where
the same names stand in other places give the same program with other places in
it, or fail for the same reason.  And where the values of the variables are moved
to the new places as well, the two programs have the same value.
-/

namespace ImplicitDynamics

namespace SymbolTable

/-- Where another table has the name that stands in a place of this one. -/
def placeIn (table other : SymbolTable) (i : Nat) : Nat :=
  ((table.name? i).bind other.indexOf?).getD i

variable {table other : SymbolTable}

theorem placeIn_of_size_le {i : Nat} (hi : table.size ≤ i) : table.placeIn other i = i := by
  have hname : table.name? i = none := List.getElem?_eq_none hi
  rw [placeIn, hname]
  rfl

theorem name?_placeIn (hnames : table.names.Perm other.names) (i : Nat) :
    other.name? (table.placeIn other i) = table.name? i := by
  cases hname : table.name? i with
  | none =>
      have hsize : table.size ≤ i := List.getElem?_eq_none_iff.mp hname
      rw [placeIn_of_size_le hsize]
      exact List.getElem?_eq_none (Nat.le_trans (Nat.le_of_eq hnames.length_eq.symm) hsize)
  | some name =>
      have hindex := indexOf?_of_mem (hnames.mem_iff.mp (List.mem_of_getElem? hname))
      rw [placeIn, hname, Option.bind_some, hindex]
      exact indexOf?_eq_some_iff.mp hindex

theorem placeIn_placeIn (hnames : table.names.Perm other.names) (i : Nat) :
    other.placeIn table (table.placeIn other i) = i := by
  rw [placeIn, name?_placeIn hnames]
  cases hname : table.name? i with
  | none => exact placeIn_of_size_le (List.getElem?_eq_none_iff.mp hname)
  | some name =>
      rw [Option.bind_some, indexOf?_eq_some_iff.mpr hname]
      rfl

theorem indexOf?_placeIn (hnames : table.names.Perm other.names) (name : String) :
    other.indexOf? name = (table.indexOf? name).map (table.placeIn other) := by
  cases hindex : table.indexOf? name with
  | none =>
      rw [indexOf?, List.idxOf?_eq_none_iff] at hindex
      exact List.idxOf?_eq_none_iff.mpr (hindex ∘ hnames.mem_iff.mpr)
  | some i =>
      have hname : table.name? i = some name := indexOf?_eq_some_iff.mp hindex
      exact indexOf?_eq_some_iff.mpr ((name?_placeIn hnames i).trans hname)

/-- The places of the names of one table in the other.  Numbers that are no places
stay as they are. -/
def relocation (hnames : table.names.Perm other.names) : Equiv.Perm Nat where
  toFun := table.placeIn other
  invFun := other.placeIn table
  left_inv := placeIn_placeIn hnames
  right_inv := placeIn_placeIn hnames.symm

end SymbolTable

variable {α : Type} {place : Nat → Nat}

namespace Op

/-- The operation on the variable in its new place. -/
def relocate (place : Nat → Nat) : Op α → Op α
  | .variable index => .variable (place index)
  | .derivative index => .derivative (place index)
  | op => op

@[simp] theorem arity_relocate (op : Op α) : (op.relocate place).arity = op.arity := by
  cases op <;> rfl

@[simp] theorem symbol_relocate (op : Op α) : (op.relocate place).symbol = op.symbol := by
  cases op <;> rfl

theorem relocate_of_pending {top : Pending} {op : Op α} (hop : top.op? = some op) :
    op.relocate place = op := by
  cases top <;> cases hop <;> rfl

theorem relocate_inverse {back : Nat → Nat} (hback : ∀ i, back (place i) = i) (op : Op α) :
    (op.relocate place).relocate back = op := by
  cases op <;> simp [relocate, hback]

end Op

/-! ## Compiling with other places -/

namespace Emitter

def relocate (place : Nat → Nat) (emitter : Emitter α) : Emitter α :=
  { emitter with ops := emitter.ops.map (Op.relocate place) }

/-- What waits says nothing about variables. -/
def relocateBelow (place : Nat → Nat) (result : List Pending × Emitter α) :
    List Pending × Emitter α :=
  (result.1, result.2.relocate place)

variable (emitter : Emitter α)

theorem emit_relocate (op : Op α) :
    (emitter.relocate place).emit (op.relocate place) =
      (emitter.emit op).map (relocate place) := by
  unfold emit
  simp only [Op.arity_relocate, Op.symbol_relocate, relocate]
  split
  · rfl
  · simp [Except.map, relocate]

theorem emit_relocate_of_eq {op : Op α} (hop : op.relocate place = op) :
    (emitter.relocate place).emit op = (emitter.emit op).map (relocate place) := by
  have hemit : (emitter.relocate place).emit (op.relocate place) =
      (emitter.emit op).map (relocate place) := emit_relocate emitter op
  rwa [hop] at hemit

theorem reduce_relocate (bound : Nat) (pending : List Pending) :
    reduce bound pending (emitter.relocate place) =
      (reduce bound pending emitter).map (relocateBelow place) := by
  induction pending generalizing emitter with
  | nil => rfl
  | cons top below ih =>
      cases top with
      | operator op precedence =>
          rw [reduce, reduce, emit_relocate_of_eq emitter rfl]
          split
          · rfl
          · cases emitter.emit (.binary op) with
            | error cause => rfl
            | ok next => exact ih next
      | function f => rfl
      | leftParen => rfl

theorem reduceToParen_relocate (pending : List Pending) :
    reduceToParen pending (emitter.relocate place) =
      (reduceToParen pending emitter).map (relocateBelow place) := by
  induction pending generalizing emitter with
  | nil => rfl
  | cons top below ih =>
      rw [reduceToParen, reduceToParen]
      cases hop : top.op? (α := α) with
      | none => rfl
      | some op =>
          simp only [emit_relocate_of_eq emitter (Op.relocate_of_pending hop)]
          cases emitter.emit op with
          | error cause => rfl
          | ok next => exact ih next

theorem reduceAll_relocate (pending : List Pending) :
    reduceAll pending (emitter.relocate place) =
      (reduceAll pending emitter).map (relocate place) := by
  induction pending generalizing emitter with
  | nil => rfl
  | cons top below ih =>
      rw [reduceAll, reduceAll]
      cases hop : top.op? (α := α) with
      | none => rfl
      | some op =>
          simp only [emit_relocate_of_eq emitter (Op.relocate_of_pending hop)]
          cases emitter.emit op with
          | error cause => rfl
          | ok next => exact ih next

theorem close_relocate (pending : List Pending) :
    close pending (emitter.relocate place) =
      (close pending emitter).map (relocateBelow place) := by
  unfold close
  rw [reduceToParen_relocate]
  cases reduceToParen pending emitter with
  | error cause => rfl
  | ok result =>
      rcases result with ⟨_ | ⟨paren, _ | ⟨under, rest⟩⟩, next⟩
      · rfl
      · rfl
      · cases under with
        | function f =>
            have hcall : (next.relocate place).emit (.call f) =
                (next.emit (.call f)).map (relocate place) := emit_relocate_of_eq next rfl
            simp only [Except.map, relocateBelow, hcall]
            cases next.emit (.call f) <;> rfl
        | operator op precedence => rfl
        | leftParen => rfl

/-- A name and a number are emitted where they stand. -/
theorem load_relocate {source moved : Except Malformed (Op α)}
    (hmoved : moved = source.map (Op.relocate place)) (pending : List Pending) :
    (do let op ← moved; return (pending, ← (emitter.relocate place).emit op)) =
      (do let op ← source; return (pending, ← emitter.emit op) :
        Except Malformed (List Pending × Emitter α)).map (relocateBelow place) := by
  cases hmoved
  cases source with
  | error cause => rfl
  | ok op =>
      simp only [Except.map, bind, Except.bind, emit_relocate]
      cases emitter.emit op <;> rfl

end Emitter

namespace Program

/-- The same parameters, and the same variables in other places. -/
structure Scope.Relocates (place : Nat → Nat) (scope other : Scope) : Prop where
  vars : ∀ name, other.vars.indexOf? name = (scope.vars.indexOf? name).map place
  parameters : other.parameters = scope.parameters

def relocate (place : Nat → Nat) (program : Program α) : Program α :=
  { program with ops := program.ops.map (Op.relocate place) }

variable {scope other : Scope}

theorem resolve_relocate (hscope : scope.Relocates place other) (name : String) :
    resolve (α := α) other name = (resolve scope name).map (Op.relocate place) := by
  unfold resolve
  rw [hscope.vars, hscope.parameters]
  split
  · rfl
  · cases scope.vars.indexOf? name with
    | some index => rfl
    | none => cases scope.parameters.indexOf? name <;> rfl

theorem resolveDerivative_relocate (hscope : scope.Relocates place other) (name : String) :
    resolveDerivative (α := α) other name =
      (resolveDerivative scope name).map (Op.relocate place) := by
  unfold resolveDerivative
  rw [hscope.vars]
  cases scope.vars.indexOf? name <;> rfl

variable [Scalar α]

theorem constant_relocate (text : String) :
    constant (α := α) text = (constant text).map (Op.relocate place) := by
  unfold constant
  cases Scalar.read? (α := α) text.toList <;> rfl

theorem shift_relocate (hscope : scope.Relocates place other) (token : Token) (followed : Bool)
    (pending : List Pending) (emitter : Emitter α) :
    shift other token followed pending (emitter.relocate place) =
      (shift scope token followed pending emitter).map (Emitter.relocateBelow place) := by
  unfold shift
  cases token.kind with
  | number => exact emitter.load_relocate (constant_relocate token.text) pending
  | identifier => exact emitter.load_relocate (resolve_relocate hscope token.text) pending
  | function =>
      simp only
      cases Elementary.ofName? token.text with
      | none => rfl
      | some f => cases followed <;> rfl
  | operator =>
      simp only
      cases Binop.ofSymbol? token.text with
      | none => rfl
      | some op =>
          cases token.unary with
          | true => rfl
          | false =>
              simp only [Bool.false_eq_true, if_false, Emitter.reduce_relocate]
              cases Emitter.reduce token.precedence pending emitter <;> rfl
  | leftParen => rfl
  | rightParen => exact emitter.close_relocate pending
  | comma => exact emitter.reduceToParen_relocate pending

theorem shiftAll_relocate (hscope : scope.Relocates place other) (tokens : List Token)
    (pending : List Pending) (emitter : Emitter α) :
    shiftAll other tokens pending (emitter.relocate place) =
      (shiftAll scope tokens pending emitter).map (Emitter.relocateBelow place) := by
  induction hlength : tokens.length using Nat.strongRecOn
    generalizing tokens pending emitter with
  | ind length ih =>
      cases tokens with
      | nil =>
          rw [shiftAll, shiftAll]
          rfl
      | cons token rest =>
          rw [List.length_cons] at hlength
          rw [shiftAll, shiftAll]
          split
          · cases derivativeTarget rest with
            | error cause => rfl
            | ok name =>
                simp only [resolveDerivative_relocate hscope]
                cases resolveDerivative (α := α) scope name with
                | error cause => rfl
                | ok op =>
                    simp only [Except.map, Emitter.emit_relocate]
                    cases emitter.emit op with
                    | error cause => rfl
                    | ok next =>
                        have hshorter : (rest.drop 3).length < length := by
                          rw [List.length_drop]
                          omega
                        exact ih _ hshorter _ _ _ rfl
          · rw [shift_relocate hscope]
            cases shift scope token (startsParen rest) pending emitter with
            | error cause => rfl
            | ok result => exact ih _ (by omega) _ _ _ rfl

/-- The same tokens give the same program with the variables in their new places,
or the same error. -/
theorem ofTokens_relocate (hscope : scope.Relocates place other) (tokens : List Token) :
    ofTokens (α := α) tokens other = (ofTokens tokens scope).map (relocate place) := by
  have hshift : shiftAll other tokens [] (Emitter.empty : Emitter α) =
      (shiftAll scope tokens [] Emitter.empty).map (Emitter.relocateBelow place) :=
    shiftAll_relocate hscope tokens [] Emitter.empty
  unfold ofTokens
  rw [hshift]
  cases shiftAll scope tokens [] (Emitter.empty : Emitter α) with
  | error cause => rfl
  | ok result =>
      simp only [Except.map, Emitter.relocateBelow, Emitter.reduceAll_relocate]
      cases Emitter.reduceAll result.1 result.2 with
      | error cause => rfl
      | ok final =>
          by_cases hone : final.depth = 1
          · simp only [Emitter.relocate, hone, if_true]
            rfl
          · simp only [Emitter.relocate, hone, if_false]

end Program

/-- The equation with another number, for variables in other places. -/
def Equation.relocate (place : Nat → Nat) (equation : Equation α) : Equation α :=
  { equation with
    index := place equation.index
    program := equation.program.relocate place }

theorem Equation.relocate_inverse {back : Nat → Nat} (hback : ∀ i, back (place i) = i)
    (equation : Equation α) : (equation.relocate place).relocate back = equation := by
  have hops : (equation.program.ops.map (Op.relocate place)).map (Op.relocate back) =
      equation.program.ops := by
    rw [List.map_map]
    exact (List.map_congr_left fun op _ => Op.relocate_inverse hback op).trans (List.map_id _)
  simp only [relocate, Program.relocate, hback, hops]

variable [Scalar α]

theorem Equation.CompiledFrom.relocate {scope other : Program.Scope}
    (hscope : scope.Relocates place other) {statement : Statement} {index : Nat}
    {equation : Equation α} (hequation : equation.CompiledFrom scope (statement, index)) :
    (equation.relocate place).CompiledFrom other (statement, place index) := by
  rcases hequation with ⟨program, hprogram, rfl⟩
  refine ⟨program.relocate place, ?_, rfl⟩
  rw [Program.ofTokens_relocate hscope, hprogram]
  rfl

/-! ## Running with other places -/

/-- The same time and parameters, and the values of the variables in other
places. -/
structure Bindings.Relocates (place : Nat → Nat) (left right : Bindings α) : Prop where
  time : right.time = left.time
  state : ∀ i, Machine.load right.state (place i) = Machine.load left.state i
  derivatives : ∀ i, Machine.load right.derivatives (place i) = Machine.load left.derivatives i
  parameters : right.parameters = left.parameters

variable {left right : Bindings α}

theorem Machine.step_relocate (hbindings : left.Relocates place right) (op : Op α)
    (machine : Machine α) :
    step (op.relocate place) right machine = step op left machine := by
  cases op with
  | «variable» index => exact congrArg (push machine.stack) (hbindings.state index)
  | derivative index => exact congrArg (push machine.stack) (hbindings.derivatives index)
  | time => exact congrArg (fun time => push machine.stack (.ok time)) hbindings.time
  | parameter index =>
      exact congrArg (fun values => push machine.stack (load values index)) hbindings.parameters
  | const value => rfl
  | binary op =>
      have hop : (Op.binary op).loaded right = (Op.binary op).loaded left := rfl
      exact step_congr hop machine
  | call f =>
      have hop : (Op.call f).loaded right = (Op.call f).loaded left := rfl
      exact step_congr hop machine

theorem Machine.steps_relocate (hbindings : left.Relocates place right) (ops : List (Op α))
    (machine : Machine α) :
    steps right (ops.map (Op.relocate place)) machine = steps left ops machine := by
  induction ops generalizing machine with
  | nil => rfl
  | cons op ops ih =>
      rw [List.map_cons, steps, steps, step_relocate hbindings]
      split
      · exact ih _
      · rfl

theorem Program.eval_relocate (hbindings : left.Relocates place right) (program : Program α) :
    (program.relocate place).eval right = program.eval left := by
  unfold Program.eval Machine.run
  rw [Program.relocate, Machine.steps_relocate hbindings]

theorem Equation.row_relocate (hbindings : left.Relocates place right) (equation : Equation α) :
    (equation.relocate place).row right = equation.row left := by
  have hslope : right.derivatives.getD (place equation.index) 0 =
      left.derivatives.getD equation.index 0 := by
    have hload := hbindings.derivatives equation.index
    unfold Machine.load at hload
    rw [List.getD_eq_getElem?_getD, List.getD_eq_getElem?_getD]
    cases hright : right.derivatives[place equation.index]? <;>
      cases hleft : left.derivatives[equation.index]? <;> simp_all
  unfold row
  simp only [relocate, Program.eval_relocate hbindings, hslope]

end ImplicitDynamics
