import ImplicitDynamics.Proofs.Acceptance
import ImplicitDynamics.Proofs.Parentheses
import Mathlib.Algebra.Order.Group.Multiset

/-!
# What becomes of the tokens of a program

Every move of the shifting loop either emits what its tokens ask for or lets it
wait, and it emits of what waits only as much as it takes off.  So what is emitted
and what waits together are always what the tokens so far ask for, and at the end
nothing waits: a program loads what its tokens name, in their order, and has one
operation for each operator and each function, whether or not the tokens are an
expression.
-/

namespace ImplicitDynamics

variable {α : Type}

namespace Op

/-- The operation puts a value on the stack and takes none off. -/
def isLoad (op : Op α) : Bool :=
  op.arity = 0

end Op

namespace Token

/-- An operator, or a function other than the derivative. -/
def isOperation (token : Token) : Bool :=
  match token.kind with
  | .operator => true
  | .function => !Program.isDerivative token
  | _ => false

/-- The operation that an operator or a function is the sign of. -/
def operation? (token : Token) : Option (Op α) :=
  match token.kind with
  | .operator => (Binop.ofSymbol? token.text).map .binary
  | .function => (Elementary.ofName? token.text).map .call
  | _ => none

end Token

/-- The operations that load what the tokens name, in the order of the tokens: one
for each number and each name, and a single one for a derivative with the name in
its parentheses. -/
inductive Loads [Scalar α] (scope : Program.Scope) : List Token → List (Op α) → Prop where
  | nil : Loads scope [] []
  | number {token : Token} {tokens : List Token} {op : Op α} {loads : List (Op α)}
      (hkind : token.kind = .number) (hop : Program.constant token.text = .ok op)
      (hrest : Loads scope tokens loads) : Loads scope (token :: tokens) (op :: loads)
  | name {token : Token} {tokens : List Token} {op : Op α} {loads : List (Op α)}
      (hkind : token.kind = .identifier) (hop : Program.resolve scope token.text = .ok op)
      (hrest : Loads scope tokens loads) : Loads scope (token :: tokens) (op :: loads)
  | derivative {word opening name closing : Token} {tokens : List Token} {op : Op α}
      {loads : List (Op α)} (hword : Program.isDerivative word = true)
      (hopening : opening.kind = .leftParen) (hname : name.kind = .identifier)
      (hclosing : closing.kind = .rightParen)
      (hop : Program.resolveDerivative scope name.text = .ok op)
      (hrest : Loads scope tokens loads) :
      Loads scope (word :: opening :: name :: closing :: tokens) (op :: loads)
  | other {token : Token} {tokens : List Token} {loads : List (Op α)}
      (hnumber : token.kind ≠ .number) (hname : token.kind ≠ .identifier)
      (hword : Program.isDerivative token = false) (hrest : Loads scope tokens loads) :
      Loads scope (token :: tokens) loads

namespace Loads

variable [Scalar α] {scope : Program.Scope} {first second : List Token} {ops more : List (Op α)}

theorem append (hfirst : Loads scope first ops) (hsecond : Loads scope second more) :
    Loads scope (first ++ second) (ops ++ more) := by
  induction hfirst with
  | nil => exact hsecond
  | number hkind hop _ ih => exact .number hkind hop ih
  | name hkind hop _ ih => exact .name hkind hop ih
  | derivative hword hopening hname hclosing hop _ ih =>
      exact .derivative hword hopening hname hclosing hop ih
  | other hnumber hname hword _ ih => exact .other hnumber hname hword ih

theorem single {op : Op α} (hop : op.arity = 0) (htokens : Loads scope first [op]) :
    Loads scope first ([op].filter Op.isLoad) := by
  rwa [List.filter_cons_of_pos (by simp [Op.isLoad, hop])]

theorem mark {token : Token} (hnumber : token.kind ≠ .number)
    (hname : token.kind ≠ .identifier) (hfunction : token.kind ≠ .function)
    (htokens : Loads scope first ops) : Loads scope (token :: first) ops :=
  .other hnumber hname (Program.isDerivative_of_kind hfunction) htokens

end Loads

theorem Pending.isLoad_code {pending : List Pending} :
    ∀ op ∈ Pending.code (α := α) pending, op.isLoad = false :=
  Pending.forall_code (fun _ => rfl) fun _ => rfl

theorem Pending.filter_isLoad_code (pending : List Pending) :
    (Pending.code (α := α) pending).filter Op.isLoad = [] :=
  List.filter_eq_nil_iff.mpr fun op hop => by simp [Pending.isLoad_code op hop]

section

variable [Scalar α] {scope : Program.Scope} {taken : List Token} {pending waiting : List Pending}
  {code : List (Op α)}

/-- A move emits the loads of the tokens that it takes. -/
theorem Program.Move.loads (hmove : Move scope taken pending waiting code) :
    Loads scope taken (code.filter Op.isLoad) := by
  cases hmove with
  | number hkind hop => exact .single (arity_of_constant hop) (.number hkind hop .nil)
  | name hkind hop => exact .single (arity_of_resolve hop) (.name hkind hop .nil)
  | derivative hword hopening hname hclosing hop =>
      exact .single (arity_of_resolveDerivative hop)
        (.derivative hword hopening hname hclosing hop .nil)
  | @call word opening f _ hkind hword hf hopening =>
      have hparen : Loads scope [opening] ([] : List (Op α)) :=
        .mark (by simp [hopening]) (by simp [hopening]) (by simp [hopening]) .nil
      exact .other (by simp [hkind]) (by simp [hkind]) hword hparen
  | operator hkind hop hpopped hunary =>
      rw [Pending.filter_isLoad_code]
      exact .mark (by simp [hkind]) (by simp [hkind]) (by simp [hkind]) .nil
  | leftParen hkind => exact .mark (by simp [hkind]) (by simp [hkind]) (by simp [hkind]) .nil
  | closeCall hkind hpopped =>
      rw [List.filter_append, Pending.filter_isLoad_code]
      exact .mark (by simp [hkind]) (by simp [hkind]) (by simp [hkind]) .nil
  | close hkind hpopped hbelow =>
      rw [Pending.filter_isLoad_code]
      exact .mark (by simp [hkind]) (by simp [hkind]) (by simp [hkind]) .nil
  | comma hkind hpopped =>
      rw [Pending.filter_isLoad_code]
      exact .mark (by simp [hkind]) (by simp [hkind]) (by simp [hkind]) .nil

end

/-- The operations that are no loads, in any order. -/
def Op.operations (ops : List (Op α)) : Multiset (Option (Op α)) :=
  ↑((ops.filter fun op => !op.isLoad).map some)

/-- The operations that the operators and functions among the tokens are the signs
of, in any order; `none` would stand for a sign of nothing. -/
def Token.operations (tokens : List Token) : Multiset (Option (Op α)) :=
  ↑((tokens.filter isOperation).map (operation? (α := α)))

@[simp] theorem Op.operations_append (first second : List (Op α)) :
    operations (first ++ second) = operations first + operations second := by
  simp [operations]

@[simp] theorem Op.operations_nil : operations ([] : List (Op α)) = 0 := rfl

theorem Op.operations_of_load {op : Op α} (hop : op.arity = 0) : operations [op] = 0 := by
  simp [operations, isLoad, hop]

theorem Op.operations_of_not_load {op : Op α} (hop : op.arity ≠ 0) :
    operations [op] = {some op} := by
  simp [operations, isLoad, hop]

@[simp] theorem Token.operations_append (first second : List Token) :
    operations (α := α) (first ++ second) = operations first + operations second := by
  simp [operations]

theorem Token.operations_of_not {token : Token} (htoken : token.isOperation = false) :
    operations (α := α) [token] = 0 := by
  simp [operations, htoken]

namespace Pending

/-- The operations that wait. -/
def operations (pending : List Pending) : Multiset (Option (Op α)) :=
  Op.operations (Pending.code pending)

@[simp] theorem operations_code (pending : List Pending) :
    Op.operations (Pending.code (α := α) pending) = operations pending := rfl

@[simp] theorem operations_append (first second : List Pending) :
    operations (α := α) (first ++ second) = operations first + operations second := by
  simp [operations, code]

@[simp] theorem operations_leftParen (pending : List Pending) :
    operations (α := α) (.leftParen :: pending) = operations pending := rfl

@[simp] theorem operations_operator (op : Binop) (precedence : Nat) (pending : List Pending) :
    operations (α := α) (.operator op precedence :: pending) =
      {some (.binary op)} + operations pending := rfl

@[simp] theorem operations_function (f : Elementary) (pending : List Pending) :
    operations (α := α) (.function f :: pending) = {some (.call f)} + operations pending := rfl

end Pending

section

variable [Scalar α] {scope : Program.Scope} {tokens taken : List Token}
  {pending waiting : List Pending} {code ops : List (Op α)}

/-- What a move emits and leaves waiting is what waited before it and what its tokens
ask for. -/
theorem Program.Move.operations (hmove : Move scope taken pending waiting code) :
    Op.operations code + Pending.operations waiting =
      Token.operations taken + Pending.operations pending := by
  cases hmove with
  | number hkind hop =>
      rw [Op.operations_of_load (arity_of_constant hop),
        Token.operations_of_not (by simp [Token.isOperation, hkind])]
  | name hkind hop =>
      rw [Op.operations_of_load (arity_of_resolve hop),
        Token.operations_of_not (by simp [Token.isOperation, hkind])]
  | derivative hword hopening hname hclosing hop =>
      rw [Op.operations_of_load (arity_of_resolveDerivative hop)]
      simp [Token.operations, Token.isOperation, kind_of_isDerivative hword, hword, hopening,
        hname, hclosing]
  | call hkind hword hf hopening =>
      simp [Token.operations, Token.isOperation, Token.operation?, hkind, hword, hopening, hf]
  | @operator token op popped below hkind hop hpopped hunary =>
      have htoken : Token.operations [token] = {some (Op.binary (α := α) op)} := by
        simp [Token.operations, Token.isOperation, Token.operation?, hkind, hop]
      rw [htoken, Pending.operations_operator, Pending.operations_append]
      exact add_left_comm _ _ _
  | leftParen hkind =>
      rw [Token.operations_of_not (by simp [Token.isOperation, hkind])]
      simp
  | @closeCall token f popped below hkind hpopped =>
      rw [Token.operations_of_not (by simp [Token.isOperation, hkind]), Op.operations_append,
        Op.operations_of_not_load (by simp [Op.arity])]
      simp [add_assoc]
  | close hkind hpopped hbelow =>
      rw [Token.operations_of_not (by simp [Token.isOperation, hkind])]
      simp
  | comma hkind hpopped =>
      rw [Token.operations_of_not (by simp [Token.isOperation, hkind])]
      simp

/-- What a run has loaded is what its tokens name, and what it has emitted besides and
what waits is what they ask for. -/
structure Program.Keeps (scope : Scope) (tokens : List Token) (pending : List Pending)
    (emitter : Emitter α) : Prop where
  loads : Loads scope tokens (emitter.ops.filter Op.isLoad)
  operations : Op.operations emitter.ops + Pending.operations pending = Token.operations tokens

theorem Program.Keeps.empty : Keeps scope [] [] (Emitter.empty : Emitter α) :=
  ⟨.nil, rfl⟩

theorem Program.Keeps.move {emitter next : Emitter α} (hkeeps : Keeps scope tokens pending emitter)
    (hmove : Move scope taken pending waiting code) (hcode : emitter.emitAll code = .ok next) :
    Keeps scope (tokens ++ taken) waiting next := by
  have hops := Emitter.ops_of_emitAll hcode
  constructor
  · rw [hops, List.filter_append]
    exact hkeeps.loads.append hmove.loads
  · calc Op.operations next.ops + Pending.operations waiting
        = Op.operations emitter.ops + (Op.operations code + Pending.operations waiting) := by
          rw [hops, Op.operations_append, add_assoc]
      _ = Op.operations emitter.ops + (Token.operations taken + Pending.operations pending) := by
          rw [hmove.operations]
      _ = (Op.operations emitter.ops + Pending.operations pending) + Token.operations taken := by
          rw [add_left_comm, add_comm]
      _ = Token.operations (tokens ++ taken) := by
          rw [hkeeps.operations, Token.operations_append]

theorem Program.keeps_of_ofTokens {program : Program α}
    (hprogram : ofTokens tokens scope = .ok program) :
    Loads scope tokens (program.ops.filter Op.isLoad) ∧
      Op.operations program.ops = Token.operations tokens := by
  obtain ⟨pending, emitter, final, hshift, -, hcode, -, rfl⟩ := ofTokens_cases hprogram
  have hkeeps : Keeps scope tokens pending emitter :=
    shiftAll_invariant (Keeps scope) .empty Keeps.move hshift
  have hops := Emitter.ops_of_emitAll hcode
  constructor
  · rw [hops, List.filter_append, Pending.filter_isLoad_code, List.append_nil]
    exact hkeeps.loads
  · rw [hops, Op.operations_append, Pending.operations_code]
    exact hkeeps.operations

end

/-- A program loses none of its tokens and has nothing besides them, whether or not
they are an expression. -/
theorem Program.ofTokens_keeps_tokens [Scalar α] {scope : Scope} {tokens : List Token}
    {program : Program α} (hprogram : ofTokens tokens scope = .ok program) :
    Loads scope tokens (program.ops.filter Op.isLoad) ∧
      Op.operations program.ops = Token.operations tokens ∧ Token.Parenthesized 0 tokens := by
  obtain ⟨hloads, hoperations⟩ := keeps_of_ofTokens hprogram
  exact ⟨hloads, hoperations, (wellNested_of_ofTokens hprogram).parenthesized⟩

/-- Two operators at the end take what the call and the derivative before them leave. -/
theorem Program.ofTokens_keeps_tokens_of_call :
    let tokens : List Token :=
      [⟨.function, "sin", 0, false⟩, ⟨.leftParen, "(", 0, false⟩, ⟨.function, "der", 0, false⟩,
        ⟨.leftParen, "(", 0, false⟩, ⟨.identifier, "x", 0, false⟩, ⟨.rightParen, ")", 0, false⟩,
        ⟨.comma, ",", 0, false⟩, ⟨.identifier, "y", 0, false⟩, ⟨.rightParen, ")", 0, false⟩,
        ⟨.identifier, "k", 0, false⟩, ⟨.operator, "+", 2, false⟩, ⟨.operator, "*", 3, false⟩]
    let scope : Scope := ⟨.ofList ["x", "y"], .ofList ["k"]⟩
    tokenize "sin(der(x), y) k + *" = .ok tokens ∧
      Loads (α := Float) scope tokens [.derivative 0, .variable 1, .parameter 0] ∧
      Token.operations (α := Float) tokens =
        {some (.call .sin), some (.binary .mul), some (.binary .add)} ∧
      Token.Parenthesized 0 tokens := by
  intro tokens scope
  have hprogram : ofTokens (α := Float) tokens scope =
      .ok ⟨[.derivative 0, .variable 1, .call .sin, .parameter 0, .binary .mul, .binary .add], 3⟩ := by
    with_unfolding_all rfl
  obtain ⟨hloads, hoperations, hparens⟩ := ofTokens_keeps_tokens hprogram
  exact ⟨by with_unfolding_all rfl, hloads, hoperations.symm, hparens⟩

end ImplicitDynamics
