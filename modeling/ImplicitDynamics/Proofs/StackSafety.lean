import ImplicitDynamics.Proofs.ExpressionValue
import ImplicitDynamics.Proofs.Shifting

/-!
# Programs never run out of operands

While a program is emitted, the height of its stack is counted.  The machine
keeps to that count: after every operation its stack is as high as the emitter
said, or the operation had a bad argument and the run is over.  So no operation
lacks an operand, no index is outside its list, and the largest height on the
way is the one that the program announces.

Nothing here asks where the tokens come from, or whether they are an expression.
-/

namespace ImplicitDynamics

variable {α : Type}

/-- An index in an operation is a place in the table that it belongs to. -/
def Op.Within (scope : Program.Scope) : Op α → Prop
  | .const _ => True
  | .time => True
  | .variable index => index < scope.vars.size
  | .derivative index => index < scope.vars.size
  | .parameter index => index < scope.parameters.size
  | .binary _ => True
  | .call _ => True

theorem SymbolTable.lt_size_of_indexOf? {table : SymbolTable} {name : String} {index : Nat}
    (hindex : table.indexOf? name = some index) : index < table.size :=
  (List.getElem?_eq_some_iff.mp (SymbolTable.indexOf?_eq_some_iff.mp hindex)).1

namespace Program

variable {scope : Scope}

theorem within_of_resolve {name : String} {op : Op α} (hop : resolve scope name = .ok op) :
    op.Within scope := by
  obtain rfl | ⟨i, hi, rfl⟩ | ⟨i, hi, rfl⟩ := resolve_eq_ok hop
  · trivial
  · exact SymbolTable.lt_size_of_indexOf? hi
  · exact SymbolTable.lt_size_of_indexOf? hi

theorem within_of_resolveDerivative {name : String} {op : Op α}
    (hop : resolveDerivative scope name = .ok op) : op.Within scope := by
  obtain ⟨i, hi, rfl⟩ := resolveDerivative_eq_ok hop
  exact SymbolTable.lt_size_of_indexOf? hi

variable [Scalar α]

theorem within_of_constant {text : String} {op : Op α} (hop : constant text = .ok op) :
    op.Within scope := by
  obtain ⟨value, -, rfl⟩ := constant_eq_ok hop
  trivial

theorem Move.within {taken : List Token} {pending waiting : List Pending} {code : List (Op α)}
    (hmove : Move scope taken pending waiting code) : ∀ op ∈ code, op.Within scope :=
  hmove.forall_code within_of_constant within_of_resolve
    (fun _ _ _ _ _ => within_of_resolveDerivative) (fun _ => trivial) (fun _ => trivial)

end Program

namespace Emitter

variable {emitter next final : Emitter α} {op : Op α} {code : List (Op α)}

theorem maxDepth_le_of_emitAll (hcode : emitter.emitAll code = .ok final) :
    emitter.maxDepth ≤ final.maxDepth := by
  induction code generalizing emitter with
  | nil =>
      cases hcode
      exact Nat.le_refl _
  | cons op code ih =>
      obtain ⟨next, hemit, hrest⟩ := emitAll_cons_eq_ok_iff.mp hcode
      obtain ⟨-, rfl⟩ := emit_eq_ok_iff.mp hemit
      exact Nat.le_trans (Nat.le_max_left _ _) (ih hrest)

theorem depth_le_of_emitAll (hdepth : emitter.depth ≤ emitter.maxDepth)
    (hcode : emitter.emitAll code = .ok final) : final.depth ≤ final.maxDepth := by
  induction code generalizing emitter with
  | nil =>
      cases hcode
      exact hdepth
  | cons op code ih =>
      obtain ⟨next, hemit, hrest⟩ := emitAll_cons_eq_ok_iff.mp hcode
      obtain ⟨-, rfl⟩ := emit_eq_ok_iff.mp hemit
      exact ih (Nat.le_max_right _ _) hrest

/-- The largest height is one that the stack has at some point. -/
theorem exists_depth_eq_maxDepth (hcode : emitter.emitAll code = .ok final) :
    final.maxDepth = emitter.maxDepth ∨
      ∃ k middle, emitter.emitAll (code.take k) = .ok middle ∧
        middle.depth = final.maxDepth := by
  induction code generalizing emitter with
  | nil =>
      cases hcode
      exact .inl rfl
  | cons op code ih =>
      obtain ⟨next, hemit, hrest⟩ := emitAll_cons_eq_ok_iff.mp hcode
      rcases ih hrest with hnext | ⟨k, middle, hmiddle, hdepth⟩
      · have hmax : next.maxDepth = max emitter.maxDepth next.depth := by
          rw [(emit_eq_ok_iff.mp hemit).2]
        rcases Nat.le_total next.depth emitter.maxDepth with hle | hle
        · exact .inl (by rw [hnext, hmax, Nat.max_eq_left hle])
        · refine .inr ⟨1, next, ?_, by rw [hnext, hmax, Nat.max_eq_right hle]⟩
          exact emitAll_cons_eq_ok_iff.mpr ⟨next, hemit, rfl⟩
      · exact .inr ⟨k + 1, middle, emitAll_cons_eq_ok_iff.mpr ⟨next, hemit, hmiddle⟩, hdepth⟩

theorem emitAll_take (hcode : emitter.emitAll code = .ok final) (k : Nat) :
    ∃ middle, emitter.emitAll (code.take k) = .ok middle ∧
      middle.maxDepth ≤ final.maxDepth := by
  rw [← List.take_append_drop k code] at hcode
  obtain ⟨middle, hfirst, hlast⟩ := emitAll_append_eq_ok_iff.mp hcode
  exact ⟨middle, hfirst, maxDepth_le_of_emitAll hlast⟩

/-- An emitter that has emitted its operations from the start, with indices that
the tables have. -/
structure Built (scope : Program.Scope) (emitter : Emitter α) : Prop where
  emitted : Emitter.empty.emitAll emitter.ops = .ok emitter
  within : ∀ op ∈ emitter.ops, op.Within scope

theorem Built.emitAll {scope : Program.Scope} (hbuilt : emitter.Built scope)
    (hwithin : ∀ op ∈ code, op.Within scope) (hcode : emitter.emitAll code = .ok final) :
    final.Built scope := by
  have hops := ops_of_emitAll hcode
  constructor
  · rw [hops]
    exact emitAll_append_eq_ok_iff.mpr ⟨emitter, hbuilt.emitted, hcode⟩
  · intro op hop
    rw [hops] at hop
    rcases List.mem_append.mp hop with hop | hop
    · exact hbuilt.within op hop
    · exact hwithin op hop

end Emitter

/-- A program that is emitted from the start, with indices that the tables have,
and leaves one value. -/
structure Program.Emitted (scope : Scope) (program : Program α) : Prop where
  emitted : Emitter.empty.emitAll program.ops = .ok ⟨program.ops, 1, program.maxDepth⟩
  within : ∀ op ∈ program.ops, op.Within scope

theorem Program.emitted_of_ofTokens [Scalar α] {scope : Scope} {tokens : List Token}
    {program : Program α} (hprogram : ofTokens tokens scope = .ok program) :
    program.Emitted scope := by
  obtain ⟨pending, emitter, final, hshift, -, hcode, hdepth, rfl⟩ := ofTokens_cases hprogram
  have hempty : (Emitter.empty (α := α)).Built scope := ⟨rfl, by simp [Emitter.empty]⟩
  have hemitter : emitter.Built scope :=
    shiftAll_invariant (fun _ _ emitter => emitter.Built scope) hempty
      (fun hbuilt hmove hemit => hbuilt.emitAll hmove.within hemit) hshift
  have hpending : ∀ op ∈ Pending.code pending, Op.Within (α := α) scope op :=
    Pending.forall_code (fun _ => trivial) (fun _ => trivial)
  have hfinal := hemitter.emitAll hpending hcode
  exact ⟨hdepth ▸ hfinal.emitted, hfinal.within⟩

/-! ## The machine keeps to the count -/

/-- Errors that depend on the values that a program meets. -/
def EvalError.IsArithmetic : EvalError α → Prop
  | malformed _ => False
  | divisionByZero => True
  | negativeSqrt _ => True
  | dimensionMismatch _ _ => False

namespace Machine

variable {scope : Program.Scope} {bindings : Bindings α}

theorem load_of_lt {values : List α} {index : Nat} (hindex : index < values.length) :
    load values index = .ok values[index] := by
  rw [load, List.getElem?_eq_getElem hindex]

theorem push_cases {result : Except (EvalError α) α}
    (hresult : ∀ cause, result = .error cause → cause.IsArithmetic) (stack : List α) :
    (∃ value, push stack result = (.ok (), ⟨value :: stack⟩)) ∨
      ∃ cause, push stack result = (.error cause, ⟨stack⟩) ∧ cause.IsArithmetic := by
  cases result with
  | ok value => exact .inl ⟨value, rfl⟩
  | error cause => exact .inr ⟨cause, rfl, hresult cause rfl⟩

variable [Scalar α]

theorem isArithmetic_of_applyBinary {op : Binop} {a b : α} {cause : EvalError α}
    (happly : applyBinary op a b = .error cause) : cause.IsArithmetic := by
  cases op <;> simp only [applyBinary] at happly
  case div =>
    split at happly <;> cases happly
    trivial
  all_goals cases happly

theorem isArithmetic_of_applyCall {f : Elementary} {a : α} {cause : EvalError α}
    (happly : applyCall f a = .error cause) : cause.IsArithmetic := by
  cases f <;> simp only [applyCall] at happly
  case sqrt =>
    split at happly <;> cases happly
    trivial
  all_goals cases happly

/-- Where an operation may be emitted, it finds its operands, and the stack that
it leaves is as high as the emitter says. -/
theorem step_cases {op : Op α} {emitter next : Emitter α} {stack : List α}
    (hemit : emitter.emit op = .ok next) (hwithin : op.Within scope)
    (hcovers : bindings.Covers scope) (hstack : stack.length = emitter.depth) :
    (∃ left, step op bindings ⟨stack⟩ = (.ok (), ⟨left⟩) ∧ left.length = next.depth) ∨
      ∃ cause left, step op bindings ⟨stack⟩ = (.error cause, ⟨left⟩) ∧
        cause.IsArithmetic ∧ left.length < next.depth := by
  obtain ⟨harity, rfl⟩ := Emitter.emit_eq_ok_iff.mp hemit
  rw [← hstack] at harity ⊢
  have hload : ∀ {values : List α} {index : Nat} (hindex : index < values.length),
      ∃ left, push stack (load values index) = (.ok (), ⟨left⟩) ∧
        left.length = stack.length - 0 + 1 :=
    fun hindex => ⟨_, by rw [load_of_lt hindex]; rfl, rfl⟩
  match op with
  | .const value => exact .inl ⟨value :: stack, rfl, rfl⟩
  | .time => exact .inl ⟨bindings.time :: stack, rfl, rfl⟩
  | .variable index => exact .inl (hload (Nat.lt_of_lt_of_le hwithin hcovers.state))
  | .derivative index => exact .inl (hload (Nat.lt_of_lt_of_le hwithin hcovers.derivatives))
  | .parameter index => exact .inl (hload (Nat.lt_of_lt_of_le hwithin hcovers.parameters))
  | .binary op =>
      obtain _ | ⟨b, _ | ⟨a, under⟩⟩ := stack
      · cases harity
      · exact absurd harity (by simp [Op.arity])
      · rcases push_cases (fun _ (h : applyBinary op a b = _) => isArithmetic_of_applyBinary h)
          under with ⟨value, hpush⟩ | ⟨cause, hpush, hcause⟩
        · exact .inl ⟨value :: under, hpush, by simp [Op.arity]⟩
        · exact .inr ⟨cause, under, hpush, hcause, by simp [Op.arity]⟩
  | .call f =>
      obtain _ | ⟨a, under⟩ := stack
      · cases harity
      · rcases push_cases (fun _ (h : applyCall f a = _) => isArithmetic_of_applyCall h) under with
          ⟨value, hpush⟩ | ⟨cause, hpush, hcause⟩
        · exact .inl ⟨value :: under, hpush, by simp [Op.arity]⟩
        · exact .inr ⟨cause, under, hpush, hcause, by simp [Op.arity]⟩

/-- The same for code, which may stop before its end. -/
theorem steps_cases {code : List (Op α)} {emitter final : Emitter α} {stack : List α}
    (hcode : emitter.emitAll code = .ok final) (hwithin : ∀ op ∈ code, op.Within scope)
    (hcovers : bindings.Covers scope) (hstack : stack.length = emitter.depth) :
    (∃ left, steps bindings code ⟨stack⟩ = (.ok (), ⟨left⟩) ∧ left.length = final.depth) ∨
      ∃ cause left, steps bindings code ⟨stack⟩ = (.error cause, ⟨left⟩) ∧
        cause.IsArithmetic ∧ left.length < final.maxDepth := by
  induction code generalizing emitter stack with
  | nil =>
      cases hcode
      exact .inl ⟨stack, rfl, hstack⟩
  | cons op code ih =>
      obtain ⟨next, hemit, hrest⟩ := Emitter.emitAll_cons_eq_ok_iff.mp hcode
      rcases step_cases hemit (hwithin op (by simp)) hcovers hstack with
        ⟨left, hstep, hleft⟩ | ⟨cause, left, hstep, hcause, hleft⟩
      · rw [steps, hstep]
        exact ih hrest (fun other hother => hwithin other (by simp [hother])) hleft
      · refine .inr ⟨cause, left, by rw [steps, hstep], hcause, ?_⟩
        have hnext : next.depth ≤ next.maxDepth := by
          rw [(Emitter.emit_eq_ok_iff.mp hemit).2]
          exact Nat.le_max_right _ _
        exact Nat.lt_of_lt_of_le hleft
          (Nat.le_trans hnext (Emitter.maxDepth_le_of_emitAll hrest))

theorem steps_append (first second : List (Op α)) (machine : Machine α) :
    steps bindings (first ++ second) machine =
      match steps bindings first machine with
      | (.ok (), next) => steps bindings second next
      | failed => failed := by
  induction first generalizing machine with
  | nil => rfl
  | cons op first ih =>
      rw [List.cons_append, steps, steps]
      split
      · next next hstep => exact ih next
      · next hfailed => split <;> simp_all

/-- The height of the stack after the first `k` operations of a program. -/
def height (program : Program α) (bindings : Bindings α) (k : Nat) : Nat :=
  (steps bindings (program.ops.take k) ⟨[]⟩).2.stack.length

theorem exists_steps_take {code : List (Op α)} {machine last : Machine α}
    (hsteps : steps bindings code machine = (.ok (), last)) (k : Nat) :
    ∃ next, steps bindings (code.take k) machine = (.ok (), next) := by
  rw [← List.take_append_drop k code, steps_append] at hsteps
  split at hsteps
  · next next hnext => exact ⟨next, hnext⟩
  · next hfailed => exact absurd hsteps (hfailed last)

section Emitted

variable {program : Program α}

theorem steps_take_cases (hemitted : program.Emitted scope) (hcovers : bindings.Covers scope)
    {k : Nat} {middle : Emitter α}
    (hmiddle : Emitter.empty.emitAll (program.ops.take k) = .ok middle) :
    (∃ left, steps bindings (program.ops.take k) ⟨[]⟩ = (.ok (), ⟨left⟩) ∧
        left.length = middle.depth) ∨
      ∃ cause left, steps bindings (program.ops.take k) ⟨[]⟩ = (.error cause, ⟨left⟩) ∧
        cause.IsArithmetic ∧ left.length < middle.maxDepth :=
  steps_cases hmiddle (fun op hop => hemitted.within op (List.mem_of_mem_take hop)) hcovers rfl

theorem run_cases (hemitted : program.Emitted scope) (hcovers : bindings.Covers scope)
    (machine : Machine α) :
    (∃ value, run program bindings machine = (.ok value, ⟨[]⟩)) ∨
      ∃ cause, (run program bindings machine).1 = .error cause ∧ cause.IsArithmetic := by
  have hempty : ([] : List α).length = (Emitter.empty : Emitter α).depth := rfl
  rcases steps_cases hemitted.emitted hemitted.within hcovers hempty with
    ⟨left, hsteps, hleft⟩ | ⟨cause, left, hsteps, hcause, -⟩
  · obtain ⟨value, rfl⟩ := List.length_eq_one_iff.mp hleft
    exact .inl ⟨value, by rw [run, clear, hsteps]⟩
  · exact .inr ⟨cause, by rw [run, clear, hsteps], hcause⟩

theorem height_le_maxDepth (hemitted : program.Emitted scope)
    (hcovers : bindings.Covers scope) (k : Nat) :
    height program bindings k ≤ program.maxDepth := by
  obtain ⟨middle, hmiddle, hle⟩ := Emitter.emitAll_take hemitted.emitted k
  refine Nat.le_trans ?_ hle
  rcases steps_take_cases hemitted hcovers hmiddle with
    ⟨left, hsteps, hleft⟩ | ⟨cause, left, hsteps, -, hleft⟩
  · rw [height, hsteps, hleft]
    exact Emitter.depth_le_of_emitAll (Nat.le_refl _) hmiddle
  · rw [height, hsteps]
    exact Nat.le_of_lt hleft

theorem exists_height_eq_maxDepth (hemitted : program.Emitted scope)
    (hcovers : bindings.Covers scope) {last : Machine α}
    (hlast : steps bindings program.ops ⟨[]⟩ = (.ok (), last)) :
    ∃ k, height program bindings k = program.maxDepth := by
  have hreached : ∃ k middle, Emitter.empty.emitAll (program.ops.take k) = .ok middle ∧
      middle.depth = program.maxDepth := by
    rcases Emitter.exists_depth_eq_maxDepth hemitted.emitted with hstart | hreached
    · exact ⟨0, Emitter.empty, rfl, hstart.symm⟩
    · exact hreached
  obtain ⟨k, middle, hmiddle, hdepth⟩ := hreached
  obtain ⟨next, hnext⟩ := exists_steps_take hlast k
  rcases steps_take_cases hemitted hcovers hmiddle with
    ⟨left, hsteps, hleft⟩ | ⟨cause, left, hsteps, -, -⟩
  · exact ⟨k, by rw [height, hsteps, hleft, hdepth]⟩
  · rw [hsteps] at hnext
    cases hnext

theorem steps_of_run_eq_ok {machine : Machine α} {value : α}
    (hrun : (run program bindings machine).1 = .ok value) :
    ∃ last, steps bindings program.ops ⟨[]⟩ = (.ok (), last) := by
  rw [run, clear] at hrun
  rcases hsteps : steps bindings program.ops ⟨[]⟩ with ⟨_ | _, last⟩
  · rw [hsteps] at hrun
    cases hrun
  · exact ⟨last, rfl⟩

end Emitted

end Machine

/-- A program that comes from any tokens finds all its operands.  Its run gives
a value and leaves no other, or stops at a division by zero or the root of a
negative number; the stack is never higher than the program says, and that high
at some point if all goes well. -/
theorem run_ofTokens_safe [Scalar α] {tokens : List Token} {scope : Program.Scope}
    {program : Program α} (hprogram : Program.ofTokens tokens scope = .ok program)
    {bindings : Bindings α} (hcovers : bindings.Covers scope) (machine : Machine α) :
    ((∃ value, Machine.run program bindings machine = (.ok value, ⟨[]⟩)) ∨
        (Machine.run program bindings machine).1 = .error .divisionByZero ∨
        ∃ a, (Machine.run program bindings machine).1 = .error (.negativeSqrt a)) ∧
      (∀ k, Machine.height program bindings k ≤ program.maxDepth) ∧
      ((∃ value, (Machine.run program bindings machine).1 = .ok value) →
        ∃ k, Machine.height program bindings k = program.maxDepth) ∧
      ∀ other, Machine.run program bindings other = Machine.run program bindings machine := by
  have hemitted := Program.emitted_of_ofTokens hprogram
  refine ⟨?_, Machine.height_le_maxDepth hemitted hcovers, ?_, fun other => rfl⟩
  · refine (Machine.run_cases hemitted hcovers machine).imp_right ?_
    rintro ⟨cause, hrun, hcause⟩
    cases cause with
    | malformed cause => exact hcause.elim
    | divisionByZero => exact .inl hrun
    | negativeSqrt a => exact .inr ⟨a, hrun⟩
    | dimensionMismatch expected actual => exact hcause.elim
  · rintro ⟨value, hvalue⟩
    obtain ⟨last, hlast⟩ := Machine.steps_of_run_eq_ok hvalue
    exact Machine.exists_height_eq_maxDepth hemitted hcovers hlast

/-- A sign that divides, then two operands: no expression, but a program. -/
theorem run_ofTokens_safe_postfix :
    let tokens : List Token :=
      [⟨.operator, "/", 9, true⟩, ⟨.identifier, "x", 0, false⟩, ⟨.identifier, "k", 0, false⟩]
    let scope : Program.Scope := ⟨.ofList ["x"], .ofList ["k"]⟩
    let program : Program Float := ⟨[.variable 0, .parameter 0, .binary .div], 2⟩
    let bindings : Bindings Float := ⟨0, [1], [0], [0]⟩
    Program.ofTokens tokens scope = .ok program ∧ bindings.Covers scope ∧
    ∀ machine : Machine Float,
      ((∃ value, Machine.run program bindings machine = (.ok value, ⟨[]⟩)) ∨
          (Machine.run program bindings machine).1 = .error .divisionByZero ∨
          ∃ a, (Machine.run program bindings machine).1 = .error (.negativeSqrt a)) ∧
        (∀ k, Machine.height program bindings k ≤ 2) ∧
        ((∃ value, (Machine.run program bindings machine).1 = .ok value) →
          ∃ k, Machine.height program bindings k = 2) ∧
        ∀ other, Machine.run program bindings other =
          Machine.run program bindings machine := by
  intro tokens scope program bindings
  have hprogram : Program.ofTokens tokens scope = .ok program := by with_unfolding_all rfl
  have hcovers : bindings.Covers scope := ⟨by decide, by decide, by decide⟩
  exact ⟨hprogram, hcovers, run_ofTokens_safe hprogram hcovers⟩

end ImplicitDynamics
