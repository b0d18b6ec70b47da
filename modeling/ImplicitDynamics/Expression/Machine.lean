import ImplicitDynamics.Expression.Program

/-!
# Running a program

A program runs on a stack of values.  What is left on the stack is part of the
answer, also of a failed run: the operands that the failing operation took are
gone, and what lay below them is still there.
-/

namespace ImplicitDynamics

structure Bindings (α : Type) where
  time : α
  state : List α
  derivatives : List α
  parameters : List α

/-- A stack of values, the top first. -/
structure Machine (α : Type) where
  stack : List α

namespace Machine

variable {α : Type} [Scalar α]

/-- Divisors of smaller magnitude count as zero. -/
def divisionEpsilon : α := 1e-10

def applyBinary (op : Binop) (a b : α) : Except (EvalError α) α :=
  match op with
  | .add => .ok (a + b)
  | .sub => .ok (a - b)
  | .mul => .ok (a * b)
  | .div => if Scalar.abs b < divisionEpsilon then .error .divisionByZero else .ok (a / b)
  | .pow => .ok (Scalar.pow a b)

def applyCall (f : Elementary) (a : α) : Except (EvalError α) α :=
  match f with
  | .sin => .ok (Scalar.sin a)
  | .cos => .ok (Scalar.cos a)
  | .exp => .ok (Scalar.exp a)
  | .tan => .ok (Scalar.tan a)
  | .sqrt => if a < 0 then .error (.negativeSqrt a) else .ok (Scalar.sqrt a)

def load (values : List α) (index : Nat) : Except (EvalError α) α :=
  match values[index]? with
  | some value => .ok value
  | none => .error (.dimensionMismatch (index + 1) values.length)

/-- Puts a value on the stack, or fails and leaves the stack as it is. -/
def push (stack : List α) : Except (EvalError α) α → Except (EvalError α) Unit × Machine α
  | .ok value => (.ok (), ⟨value :: stack⟩)
  | .error cause => (.error cause, ⟨stack⟩)

def step (op : Op α) (bindings : Bindings α) (machine : Machine α) :
    Except (EvalError α) Unit × Machine α :=
  let missing : Except (EvalError α) Unit :=
    .error (.malformed (.missingOperand op.symbol))
  match op, machine.stack with
  | .const value, stack => push stack (.ok value)
  | .time, stack => push stack (.ok bindings.time)
  | .variable index, stack => push stack (load bindings.state index)
  | .derivative index, stack => push stack (load bindings.derivatives index)
  | .parameter index, stack => push stack (load bindings.parameters index)
  | .binary op, b :: a :: stack => push stack (applyBinary op a b)
  | .binary _, _ => (missing, ⟨[]⟩)
  | .call f, a :: stack => push stack (applyCall f a)
  | .call _, [] => (missing, ⟨[]⟩)

def steps (bindings : Bindings α) : List (Op α) → Machine α →
    Except (EvalError α) Unit × Machine α
  | [], machine => (.ok (), machine)
  | op :: rest, machine =>
    match step op bindings machine with
    | (.ok (), next) => steps bindings rest next
    | failed => failed

def clear (_machine : Machine α) : Machine α := ⟨[]⟩

/-- The value of a program, started on a cleared stack, and the stack that it
leaves. -/
def run (program : Program α) (bindings : Bindings α) (machine : Machine α) :
    Except (EvalError α) α × Machine α :=
  match steps bindings program.ops machine.clear with
  | (.error cause, left) => (.error cause, left)
  | (.ok (), ⟨[value]⟩) => (.ok value, ⟨[]⟩)
  | (.ok (), left) => (.error (.malformed (.operandCount left.stack.length)), left)

end Machine

/-- The value of a program on a stack of its own. -/
def Program.eval {α : Type} [Scalar α] (program : Program α) (bindings : Bindings α) :
    Except (EvalError α) α :=
  (Machine.run program bindings ⟨[]⟩).1

end ImplicitDynamics
