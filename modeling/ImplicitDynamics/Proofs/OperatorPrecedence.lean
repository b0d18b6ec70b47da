import ImplicitDynamics.Proofs.Grammar

/-!
# Shifting an expression

Shifting the tokens of an expression emits the beginning of its postfix code
and leaves the rest of that code waiting as operators.  How tightly the waiting
operators bind depends on the level of the expression only, and so does the
tightness of the operators that may wait below it without being emitted.  Both
bounds meet at every operator of the grammar: what waits from its left operand
is emitted and what waits below is not.

Emission is carried along as a computation that may fail.  That it cannot fail
is a fact about postfix code alone and is shown at the end.
-/

namespace ImplicitDynamics

variable {α : Type}

namespace Emitter

def emitAll : List (Op α) → Emitter α → Except Malformed (Emitter α)
  | [], emitter => .ok emitter
  | op :: rest, emitter => emitter.emit op >>= emitAll rest

@[simp] theorem emitAll_nil (emitter : Emitter α) : emitAll [] emitter = .ok emitter := rfl

theorem emitAll_cons (op : Op α) (rest : List (Op α)) (emitter : Emitter α) :
    emitAll (op :: rest) emitter = emitter.emit op >>= emitAll rest := rfl

theorem emitAll_append (first second : List (Op α)) (emitter : Emitter α) :
    emitAll (first ++ second) emitter = emitAll first emitter >>= emitAll second := by
  induction first generalizing emitter with
  | nil => rfl
  | cons op first ih =>
      rw [List.cons_append, emitAll_cons, emitAll_cons, bind_assoc]
      congr 1
      funext next
      exact ih next

end Emitter

/-- Operators that wait, the one to be emitted first on top. -/
def waitingOps (ops : List Binop) : List Pending :=
  ops.map fun op => .operator op op.precedence

def opsOf (ops : List Binop) : List (Op α) :=
  ops.map .binary

/-- The top of what waits is an operator that binds less tightly than `bound`, or
an open parenthesis, or nothing. -/
def WaitsBelow (bound : Nat) : List Pending → Prop
  | .operator _ precedence :: _ => precedence < bound
  | .function _ :: _ => False
  | .leftParen :: _ => True
  | [] => True

theorem WaitsBelow.mono {low high : Nat} {pending : List Pending}
    (hbelow : WaitsBelow low pending) (hle : low ≤ high) : WaitsBelow high pending := by
  cases pending with
  | nil => trivial
  | cons top rest =>
      cases top with
      | operator op precedence => exact Nat.lt_of_lt_of_le hbelow hle
      | function f => exact hbelow
      | leftParen => trivial

namespace Emitter

theorem reduce_of_waitsBelow {bound : Nat} {pending : List Pending}
    (hbelow : WaitsBelow bound pending) (emitter : Emitter α) :
    reduce bound pending emitter = .ok (pending, emitter) := by
  cases pending with
  | nil => rfl
  | cons top rest =>
      cases top with
      | operator op precedence => simp [reduce, show precedence < bound from hbelow]
      | function f => exact hbelow.elim
      | leftParen => rfl

theorem reduce_waitingOps {bound : Nat} {ops : List Binop} {pending : List Pending}
    (hops : ∀ op ∈ ops, bound ≤ op.precedence) (hbelow : WaitsBelow bound pending)
    (emitter : Emitter α) :
    reduce bound (waitingOps ops ++ pending) emitter =
      emitAll (opsOf ops) emitter >>= fun next => .ok (pending, next) := by
  induction ops generalizing emitter with
  | nil => exact reduce_of_waitsBelow hbelow emitter
  | cons op ops ih =>
      have hop : ¬ op.precedence < bound := Nat.not_lt.mpr (hops op (by simp))
      have hrest := ih fun other hother => hops other (by simp [hother])
      simp only [waitingOps, opsOf, List.map_cons, List.cons_append, reduce, if_neg hop,
        emitAll_cons]
      cases hemit : emitter.emit (.binary op) with
      | error cause => rfl
      | ok next => exact hrest next

theorem reduceToParen_waitingOps (ops : List Binop) (pending : List Pending)
    (emitter : Emitter α) :
    reduceToParen (waitingOps ops ++ .leftParen :: pending) emitter =
      emitAll (opsOf ops) emitter >>= fun next => .ok (.leftParen :: pending, next) := by
  induction ops generalizing emitter with
  | nil => rfl
  | cons op ops ih =>
      simp only [waitingOps, opsOf, List.map_cons, List.cons_append, reduceToParen,
        Pending.op?, emitAll_cons]
      cases hemit : emitter.emit (.binary op) with
      | error cause => rfl
      | ok next => exact ih next

theorem reduceAll_waitingOps (ops : List Binop) (emitter : Emitter α) :
    reduceAll (waitingOps ops) emitter = emitAll (opsOf ops) emitter := by
  induction ops generalizing emitter with
  | nil => rfl
  | cons op ops ih =>
      simp only [waitingOps, opsOf, List.map_cons, reduceAll, Pending.op?, emitAll_cons]
      cases hemit : emitter.emit (.binary op) with
      | error cause => rfl
      | ok next => exact ih next

theorem close_waitingOps {bound : Nat} (ops : List Binop) {pending : List Pending}
    (hbelow : WaitsBelow bound pending) (emitter : Emitter α) :
    close (waitingOps ops ++ .leftParen :: pending) emitter =
      emitAll (opsOf ops) emitter >>= fun next => .ok (pending, next) := by
  rw [close, reduceToParen_waitingOps]
  cases hemit : emitAll (opsOf ops) emitter with
  | error cause => rfl
  | ok next =>
      cases pending with
      | nil => rfl
      | cons top rest =>
          cases top with
          | operator op precedence => rfl
          | function f => exact hbelow.elim
          | leftParen => rfl

theorem close_call (ops : List Binop) (f : Elementary) (pending : List Pending)
    (emitter : Emitter α) :
    close (waitingOps ops ++ .leftParen :: .function f :: pending) emitter =
      emitAll (opsOf ops ++ [.call f]) emitter >>= fun next => .ok (pending, next) := by
  rw [close, reduceToParen_waitingOps, emitAll_append]
  cases hemit : emitAll (opsOf ops) emitter with
  | error cause => rfl
  | ok next =>
      simp only [bind, Except.bind, emitAll]
      cases hcall : next.emit (.call f) <;> rfl

end Emitter

theorem Binop.ofSymbol?_symbol (op : Binop) : ofSymbol? op.symbol = some op := by
  cases op <;> decide

namespace Program

variable [Scalar α]

theorem shiftAll_cons (scope : Scope) {token : Token} (htoken : isDerivative token = false)
    (rest : List Token) (pending : List Pending) (emitter : Emitter α) :
    shiftAll scope (token :: rest) pending emitter =
      shift scope token (startsParen rest) pending emitter >>= fun next =>
        shiftAll scope rest next.1 next.2 := by
  rw [shiftAll, if_neg (by simp [htoken])]
  cases hshift : shift scope token (startsParen rest) pending emitter with
  | error cause => rfl
  | ok next => rfl

theorem isDerivative_of_kind {token : Token} (hkind : token.kind ≠ .function) :
    isDerivative token = false := by
  simp [isDerivative, hkind]

theorem shiftAll_load (scope : Scope) {token : Token} {op : Op α}
    (hkind : token.kind = .number ∧ constant token.text = .ok op ∨
      token.kind = .identifier ∧ resolve scope token.text = .ok op)
    (rest : List Token) (pending : List Pending) (emitter : Emitter α) :
    shiftAll scope (token :: rest) pending emitter =
      emitter.emitAll [op] >>= fun next => shiftAll scope rest pending next := by
  have hplain : isDerivative token = false :=
    isDerivative_of_kind (by rcases hkind with h | h <;> simp [h.1])
  have hshift : shift scope token (startsParen rest) pending emitter =
      emitter.emit op >>= fun next => .ok (pending, next) := by
    rcases hkind with ⟨hkind, hop⟩ | ⟨hkind, hop⟩ <;>
      · simp only [shift, hkind, hop]
        rfl
  rw [shiftAll_cons scope hplain, hshift]
  simp only [Emitter.emitAll_cons]
  cases emitter.emit op <;> rfl

theorem shiftAll_operator (scope : Scope) {ops : List Binop} {op : Binop}
    (hops : ∀ waiting ∈ ops, op.precedence ≤ waiting.precedence) {pending : List Pending}
    (hbelow : WaitsBelow op.precedence pending) (rest : List Token) (emitter : Emitter α) :
    shiftAll scope (Token.operator op :: rest) (waitingOps ops ++ pending) emitter =
      emitter.emitAll (opsOf ops) >>= fun next =>
        shiftAll scope rest (waitingOps [op] ++ pending) next := by
  rw [shiftAll_cons scope (isDerivative_of_kind (by simp [Token.operator]))]
  simp only [shift, Token.operator, Binop.ofSymbol?_symbol, Bool.false_eq_true, if_false,
    Emitter.reduce_waitingOps hops hbelow]
  cases Emitter.emitAll (opsOf ops) emitter <;> rfl

theorem shiftAll_negation (scope : Scope) (rest : List Token) (pending : List Pending)
    (emitter : Emitter α) :
    shiftAll scope (Token.negation ++ rest) pending emitter =
      emitter.emitAll [.const Expr.minusOne] >>= fun next =>
        shiftAll scope rest (waitingOps [.mul] ++ pending) next := by
  rw [Token.negation, List.cons_append, shiftAll_load scope (.inl ⟨rfl, constant_minusOne⟩)]
  congr 1
  funext next
  rw [List.singleton_append, shiftAll_cons scope (isDerivative_of_kind (by simp [Token.operator]))]
  rfl

theorem shiftAll_leftParen (scope : Scope) (rest : List Token) (pending : List Pending)
    (emitter : Emitter α) :
    shiftAll scope (Token.plain .leftParen ['('] :: rest) pending emitter =
      shiftAll scope rest (.leftParen :: pending) emitter := by
  rw [shiftAll_cons scope (isDerivative_of_kind (by simp [Token.plain]))]
  rfl

theorem shiftAll_rightParen (scope : Scope) (rest : List Token) (pending : List Pending)
    (emitter : Emitter α) :
    shiftAll scope (Token.plain .rightParen [')'] :: rest) pending emitter =
      Emitter.close pending emitter >>= fun next => shiftAll scope rest next.1 next.2 := by
  rw [shiftAll_cons scope (isDerivative_of_kind (by simp [Token.plain]))]
  rfl

theorem ofWord_ofElementary (f : Elementary) :
    Token.ofWord (Word.ofElementary f).text = ⟨.function, f.name, 0, false⟩ := by
  cases f <;> decide

theorem shiftAll_function (scope : Scope) (f : Elementary) (rest : List Token)
    (pending : List Pending) (emitter : Emitter α) :
    shiftAll scope
        (Token.ofWord (Word.ofElementary f).text :: Token.plain .leftParen ['('] :: rest)
        pending emitter =
      shiftAll scope rest (.leftParen :: .function f :: pending) emitter := by
  have hname : Elementary.ofName? f.name = some f := by cases f <;> decide
  have hplain : isDerivative ⟨.function, f.name, 0, false⟩ = false := by
    cases f <;> decide
  rw [ofWord_ofElementary, shiftAll_cons scope hplain]
  simp only [shift, hname, startsParen, Token.plain, List.head?_cons, Option.map_some,
    Option.getD_some, decide_true, if_true]
  exact shiftAll_leftParen scope rest (.function f :: pending) emitter

theorem ofWord_of_not_function {word : Word} (hword : Name.isFunction word.name = false) :
    Token.ofWord word.text = ⟨.identifier, word.name, 0, false⟩ := by
  rw [Token.ofWord, show String.ofList word.text = word.name from rfl, hword]
  rfl

theorem shiftAll_derivative (scope : Scope) {word : Word}
    (hword : Name.isFunction word.name = false) {op : Op α}
    (hop : resolveDerivative scope word.name = .ok op) (rest : List Token)
    (pending : List Pending) (emitter : Emitter α) :
    shiftAll scope
        (Token.ofWord Word.ofDerivative.text :: Token.plain .leftParen ['('] ::
          Token.ofWord word.text :: Token.plain .rightParen [')'] :: rest) pending emitter =
      emitter.emitAll [op] >>= fun next => shiftAll scope rest pending next := by
  have hder : isDerivative (Token.ofWord Word.ofDerivative.text) = true := by decide
  rw [ofWord_of_not_function hword, shiftAll, if_pos hder]
  simp only [derivativeTarget, Token.plain, decide_true, Bool.and_self, if_true, hop,
    List.drop_succ_cons, List.drop_zero, Emitter.emitAll_cons]
  cases emitter.emit op <;> rfl

end Program

/-! ## Shifting an expression -/

namespace Level

/-- Operators that wait below an expression of this level bind less tightly. -/
def entry : Level → Nat
  | primary => 5
  | power => 4
  | signed => 4
  | product => 3
  | sum => 2

/-- Operators that an expression of this level leaves waiting bind at least as
tightly. -/
def exit : Level → Nat
  | primary => 5
  | power => 4
  | signed => 3
  | product => 3
  | sum => 2

theorem entry_looser_le (level : Level) : level.looser.entry ≤ level.entry := by
  cases level <;> decide

theorem exit_looser_le (level : Level) : level.looser.exit ≤ level.exit := by
  cases level <;> decide

end Level

theorem Binop.entry_level (op : Binop) : op.level.entry = op.precedence := by
  cases op <;> rfl

theorem Binop.exit_level (op : Binop) : op.level.exit = op.precedence := by
  cases op <;> rfl

theorem Binop.precedence_lt_entry_rightLevel (op : Binop) :
    op.precedence < op.rightLevel.entry := by
  cases op <;> decide

theorem Binop.precedence_le_exit_rightLevel (op : Binop) :
    op.precedence ≤ op.rightLevel.exit := by
  cases op <;> decide

namespace Expr

def nameOp (scope : Program.Scope) (n : String) : Op α :=
  if n = Name.time then .time
  else
    match scope.vars.indexOf? n with
    | some index => .variable index
    | none => .parameter (scope.parameters.names.idxOf n)

def code [Scalar α] (scope : Program.Scope) : Expr → List (Op α)
  | literal number => [.const (Scalar.ofNumeral number.numeral)]
  | name n => [nameOp scope n]
  | derivative n => [.derivative (scope.vars.names.idxOf n)]
  | call f argument => argument.code scope ++ [.call f]
  | negative operand => .const minusOne :: (operand.code scope ++ [.binary .mul])
  | binary op left right => left.code scope ++ (right.code scope ++ [.binary op])

end Expr

theorem SymbolTable.indexOf?_of_mem {table : SymbolTable} {name : String}
    (hmem : name ∈ table.names) : table.indexOf? name = some (table.names.idxOf name) := by
  simpa [SymbolTable.indexOf?, List.idxOf?, List.idxOf] using
    List.findIdx?_eq_some_of_exists ⟨name, hmem, by simp⟩

theorem SymbolTable.indexOf?_eq_some_iff {table : SymbolTable} {name : String} {index : Nat} :
    table.indexOf? name = some index ↔ table.name? index = some name := by
  constructor
  · intro hindex
    rcases List.idxOf?_eq_some_iff.mp hindex with ⟨hlt, hname, -⟩
    rw [SymbolTable.name?, List.getElem?_eq_getElem hlt, hname]
  · intro hname
    rcases List.getElem?_eq_some_iff.mp hname with ⟨hlt, rfl⟩
    rw [SymbolTable.indexOf?_of_mem (List.getElem_mem hlt), table.nodup.idxOf_getElem index hlt]

theorem Program.resolve_eq_nameOp {scope : Program.Scope} {n : String}
    (hn : n = Name.time ∨ n ∈ scope.vars.names ∨ n ∈ scope.parameters.names) :
    Program.resolve scope n = .ok (Expr.nameOp (α := α) scope n) := by
  unfold Program.resolve Expr.nameOp
  by_cases htime : n = Name.time
  · simp [htime]
  · rw [if_neg htime, if_neg htime]
    cases hindex : scope.vars.indexOf? n with
    | some index => rfl
    | none =>
        have hparameter : n ∈ scope.parameters.names := by
          rcases hn with hn | hn | hn
          · exact absurd hn htime
          · simp [SymbolTable.indexOf?_of_mem hn] at hindex
          · exact hn
        simp [SymbolTable.indexOf?_of_mem hparameter]

theorem Program.resolveDerivative_of_mem {scope : Program.Scope} {n : String}
    (hn : n ∈ scope.vars.names) :
    Program.resolveDerivative scope n =
      .ok (Op.derivative (α := α) (scope.vars.names.idxOf n)) := by
  simp [Program.resolveDerivative, SymbolTable.indexOf?_of_mem hn]

section Shift

variable [Scalar α] (scope : Program.Scope)

/-- The effect of shifting tokens: `code` is emitted and `ops` are left waiting,
over whatever waits below less tightly than `entry`. -/
def Shifts (entry : Nat) (tokens : List Token) (code : List (Op α)) (ops : List Binop) :
    Prop :=
  ∀ (rest : List Token) (pending : List Pending) (emitter : Emitter α),
    WaitsBelow entry pending →
      Program.shiftAll scope (tokens ++ rest) pending emitter =
        emitter.emitAll code >>= fun next =>
          Program.shiftAll scope rest (waitingOps ops ++ pending) next

variable {scope}

theorem Shifts.mono {low high : Nat} {tokens : List Token} {code : List (Op α)}
    {ops : List Binop} (hshifts : Shifts scope high tokens code ops) (hle : low ≤ high) :
    Shifts scope low tokens code ops :=
  fun rest pending emitter hbelow => hshifts rest pending emitter (hbelow.mono hle)

theorem Shifts.parenthesized {tokens : List Token} {code : List (Op α)} {ops : List Binop}
    (hshifts : Shifts scope Level.sum.entry tokens code ops) :
    Shifts scope Level.primary.entry
      (Token.plain .leftParen ['('] :: (tokens ++ [Token.plain .rightParen [')']]))
      (code ++ opsOf ops) [] := by
  intro rest pending emitter hbelow
  rw [List.cons_append, List.append_assoc, Program.shiftAll_leftParen,
    hshifts _ _ _ (by trivial), Emitter.emitAll_append, bind_assoc]
  congr 1
  funext next
  rw [List.singleton_append, Program.shiftAll_rightParen, Emitter.close_waitingOps ops hbelow,
    bind_assoc]
  rfl

theorem Shifts.call (f : Elementary) {tokens : List Token} {code : List (Op α)}
    {ops : List Binop} (hshifts : Shifts scope Level.sum.entry tokens code ops) :
    Shifts scope Level.primary.entry
      (Token.ofWord (Word.ofElementary f).text :: Token.plain .leftParen ['('] ::
        (tokens ++ [Token.plain .rightParen [')']]))
      (code ++ (opsOf ops ++ [.call f])) [] := by
  intro rest pending emitter hbelow
  rw [List.cons_append, List.cons_append, List.append_assoc, Program.shiftAll_function,
    hshifts _ _ _ (by trivial), Emitter.emitAll_append, bind_assoc]
  congr 1
  funext next
  rw [List.singleton_append, Program.shiftAll_rightParen, Emitter.close_call, bind_assoc]
  rfl

/-- A binary operator emits what waits from its left operand and then waits
itself below what its right operand leaves. -/
theorem Shifts.operator (op : Binop) {entry rightEntry : Nat} {left right : List Token}
    {leftCode rightCode : List (Op α)} {leftOps rightOps : List Binop}
    (hleft : Shifts scope entry left leftCode leftOps)
    (hright : Shifts scope rightEntry right rightCode rightOps)
    (hentry : entry ≤ op.precedence)
    (hops : ∀ waiting ∈ leftOps, op.precedence ≤ waiting.precedence)
    (hrightEntry : op.precedence < rightEntry) :
    Shifts scope entry (left ++ Token.operator op :: right)
      (leftCode ++ (opsOf leftOps ++ rightCode)) (rightOps ++ [op]) := by
  intro rest pending emitter hbelow
  rw [List.append_assoc, hleft _ _ _ hbelow, Emitter.emitAll_append, bind_assoc]
  congr 1
  funext next
  rw [List.cons_append, Program.shiftAll_operator scope hops (hbelow.mono hentry),
    Emitter.emitAll_append, bind_assoc]
  congr 1
  funext last
  have hwaits : WaitsBelow rightEntry (waitingOps [op] ++ pending) := hrightEntry
  rw [hright _ _ _ hwaits]
  simp [waitingOps]

/-- A sign waits as a multiplication below what its operand leaves. -/
theorem Shifts.negation {entry operandEntry : Nat} {tokens : List Token} {code : List (Op α)}
    {ops : List Binop} (hshifts : Shifts scope operandEntry tokens code ops)
    (hentry : Binop.mul.precedence < operandEntry) :
    Shifts scope entry (Token.negation ++ tokens) (.const Expr.minusOne :: code)
      (ops ++ [.mul]) := by
  intro rest pending emitter hbelow
  rw [List.append_assoc, Program.shiftAll_negation]
  simp only [Emitter.emitAll_cons, bind_assoc]
  congr 1
  funext next
  have hwaits : WaitsBelow operandEntry (waitingOps [.mul] ++ pending) := hentry
  change Program.shiftAll scope (tokens ++ rest) (waitingOps [.mul] ++ pending) next = _
  rw [hshifts _ _ _ hwaits]
  simp [waitingOps]

theorem tokensOf_operator {level : Level} {expr : Expr} {before : List Lexeme}
    (hbefore : Derives level expr before) (op : Binop) (after : List Lexeme) :
    Lexeme.tokensOf true (before ++ .operator op :: after) =
      Lexeme.tokensOf true before ++ Token.operator op :: Lexeme.tokensOf true after := by
  rw [Lexeme.tokensOf_append, hbefore.dueAfter_eq_false true]
  simp [Lexeme.tokens, Lexeme.leavesDue]

theorem tokensOf_rightParen {level : Level} {expr : Expr} {lexemes : List Lexeme}
    (hlexemes : Derives level expr lexemes) :
    Lexeme.tokensOf true (lexemes ++ [.rightParen]) =
      Lexeme.tokensOf true lexemes ++ [Token.plain .rightParen [')']] := by
  rw [Lexeme.tokensOf_append, hlexemes.dueAfter_eq_false true]
  rfl

/-- The part of an expression's code that is emitted and the operators that are
left waiting make up that code, and the operators bind as tightly as the level
says. -/
theorem Derives.shifts {level : Level} {expr : Expr} {lexemes : List Lexeme}
    (hderives : Derives level expr lexemes) (hscoped : expr.WellScoped scope) :
    ∃ (code : List (Op α)) (ops : List Binop),
      (∀ op ∈ ops, level.exit ≤ op.precedence) ∧
      expr.code scope = code ++ opsOf ops ∧
      Shifts scope level.entry (Lexeme.tokensOf true lexemes) code ops := by
  induction hderives with
  | literal number =>
      refine ⟨[.const (Scalar.ofNumeral number.numeral)], [], by simp, rfl, ?_⟩
      intro rest pending emitter hbelow
      have hkind : (Token.plain .number number.text).kind = .number := rfl
      have hload := Program.shiftAll_load scope (.inl ⟨hkind, constant_text number⟩)
        rest pending emitter
      exact hload
  | name word hword =>
      refine ⟨[Expr.nameOp scope word.name], [], by simp, rfl, ?_⟩
      have htokens : Lexeme.tokensOf true [.word word] =
          [⟨.identifier, word.name, 0, false⟩] := by
        simp [Lexeme.tokens, Program.ofWord_of_not_function hword]
      rw [htokens]
      intro rest pending emitter hbelow
      have hop := Program.resolve_eq_nameOp (α := α) (n := word.name) hscoped
      exact Program.shiftAll_load scope (.inr ⟨rfl, hop⟩) rest pending emitter
  | derivative word hword =>
      refine ⟨[.derivative (scope.vars.names.idxOf word.name)], [], by simp, rfl, ?_⟩
      intro rest pending emitter hbelow
      have hop := Program.resolveDerivative_of_mem (α := α) (n := word.name) hscoped
      exact Program.shiftAll_derivative scope hword hop rest pending emitter
  | call f hargument ih =>
      obtain ⟨code, ops, -, hcode, hshifts⟩ := ih hscoped
      refine ⟨code ++ (opsOf ops ++ [.call f]), [], by simp, ?_, ?_⟩
      · simp [Expr.code, hcode, opsOf]
      · have hcall := hshifts.call f
        rw [← tokensOf_rightParen hargument] at hcall
        exact hcall
  | parenthesized hexpr ih =>
      obtain ⟨code, ops, -, hcode, hshifts⟩ := ih hscoped
      refine ⟨code ++ opsOf ops, [], by simp, ?_, ?_⟩
      · simp [hcode, opsOf]
      · have hparen := hshifts.parenthesized
        rw [← tokensOf_rightParen hexpr] at hparen
        exact hparen
  | binary op hleft hright ihLeft ihRight =>
      obtain ⟨leftCode, leftOps, hleftOps, hleftCode, hleftShifts⟩ := ihLeft hscoped.1
      obtain ⟨rightCode, rightOps, hrightOps, hrightCode, hrightShifts⟩ := ihRight hscoped.2
      rw [op.exit_level] at hleftOps ⊢
      refine ⟨leftCode ++ (opsOf leftOps ++ rightCode), rightOps ++ [op], ?_, ?_, ?_⟩
      · intro waiting hwaiting
        rcases List.mem_append.mp hwaiting with hmem | hmem
        · exact Nat.le_trans op.precedence_le_exit_rightLevel (hrightOps waiting hmem)
        · exact (List.mem_singleton.mp hmem).symm ▸ Nat.le_refl _
      · simp [Expr.code, hleftCode, hrightCode, opsOf]
      · rw [tokensOf_operator hleft]
        exact hleftShifts.operator op hrightShifts (Nat.le_of_eq op.entry_level) hleftOps
          op.precedence_lt_entry_rightLevel
  | negative hoperand ih =>
      obtain ⟨code, ops, hops, hcode, hshifts⟩ := ih hscoped
      refine ⟨.const Expr.minusOne :: code, ops ++ [.mul], ?_, ?_, ?_⟩
      · intro waiting hwaiting
        rcases List.mem_append.mp hwaiting with hmem | hmem
        · exact hops waiting hmem
        · rw [List.mem_singleton.mp hmem]
          decide
      · simp [Expr.code, hcode, opsOf]
      · exact hshifts.negation (by decide)
  | powNegative hbase hoperand ihBase ihOperand =>
      obtain ⟨baseCode, baseOps, hbaseOps, hbaseCode, hbaseShifts⟩ := ihBase hscoped.1
      obtain ⟨code, ops, hops, hcode, hshifts⟩ := ihOperand hscoped.2
      refine ⟨baseCode ++ (opsOf baseOps ++ .const Expr.minusOne :: code),
        (ops ++ [.mul]) ++ [.pow], ?_, ?_, ?_⟩
      · intro waiting hwaiting
        simp only [List.mem_append, List.mem_singleton] at hwaiting
        rcases hwaiting with (hmem | rfl) | rfl
        · exact hops waiting hmem
        · decide
        · decide
      · simp [Expr.code, hbaseCode, hcode, opsOf]
      · have hsign : Shifts scope Level.primary.entry _ _ _ := hshifts.negation (by decide)
        rw [tokensOf_operator hbase]
        exact hbaseShifts.operator .pow hsign (by decide) hbaseOps (by decide)
  | @loosen level expr lexemes hexpr ih =>
      obtain ⟨code, ops, hops, hcode, hshifts⟩ := ih hscoped
      exact ⟨code, ops, fun op hop => Nat.le_trans level.exit_looser_le (hops op hop),
        hcode, hshifts.mono level.entry_looser_le⟩

end Shift

/-! ## Code that cannot run out of operands -/

theorem Emitter.emit_of_arity_le (op : Op α) (emitter : Emitter α)
    (harity : op.arity ≤ emitter.depth) :
    ∃ next, emitter.emit op = .ok next ∧ next.ops = emitter.ops ++ [op] ∧
      next.depth = emitter.depth - op.arity + 1 :=
  ⟨_, if_neg (Nat.not_lt.mpr harity), rfl, rfl⟩

/-- Code that can be emitted anywhere and adds one operand. -/
def Emitter.Adds (code : List (Op α)) : Prop :=
  ∀ emitter : Emitter α, ∃ next, emitter.emitAll code = .ok next ∧
    next.ops = emitter.ops ++ code ∧ next.depth = emitter.depth + 1

theorem Emitter.Adds.load {op : Op α} (harity : op.arity = 0) : Emitter.Adds [op] := by
  intro emitter
  obtain ⟨next, hemit, hops, hdepth⟩ :=
    Emitter.emit_of_arity_le op emitter (harity ▸ Nat.zero_le emitter.depth)
  rw [harity] at hdepth
  refine ⟨next, ?_, hops, hdepth⟩
  rw [Emitter.emitAll_cons, hemit]
  rfl

theorem Emitter.Adds.call {code : List (Op α)} (hcode : Emitter.Adds code) (f : Elementary) :
    Emitter.Adds (code ++ [.call f]) := by
  intro emitter
  obtain ⟨middle, hargument, hmiddleOps, hmiddle⟩ := hcode emitter
  have harity : (Op.call f : Op α).arity ≤ middle.depth := by
    rw [hmiddle]
    exact Nat.succ_le_succ (Nat.zero_le _)
  obtain ⟨next, hemit, hops, hdepth⟩ := Emitter.emit_of_arity_le (.call f) middle harity
  refine ⟨next, ?_, by rw [hops, hmiddleOps, List.append_assoc], ?_⟩
  · rw [Emitter.emitAll_append, hargument]
    exact congrArg (· >>= Emitter.emitAll []) hemit
  · rw [hdepth, hmiddle]
    rfl

theorem Emitter.Adds.binary {left right : List (Op α)} (hleft : Emitter.Adds left)
    (hright : Emitter.Adds right) (op : Binop) :
    Emitter.Adds (left ++ (right ++ [.binary op])) := by
  intro emitter
  obtain ⟨first, hfirstEmit, hfirstOps, hfirst⟩ := hleft emitter
  obtain ⟨middle, hmiddleEmit, hmiddleOps, hmiddle⟩ := hright first
  have hoperands : middle.depth = emitter.depth + 2 := by rw [hmiddle, hfirst]
  have harity : (Op.binary op : Op α).arity ≤ middle.depth := by
    rw [hoperands]
    exact Nat.le_add_left _ _
  obtain ⟨next, hemit, hops, hdepth⟩ := Emitter.emit_of_arity_le (.binary op) middle harity
  refine ⟨next, ?_, by simp [hops, hmiddleOps, hfirstOps], ?_⟩
  · rw [Emitter.emitAll_append, hfirstEmit]
    change Emitter.emitAll (right ++ [.binary op]) first = _
    rw [Emitter.emitAll_append, hmiddleEmit]
    exact congrArg (· >>= Emitter.emitAll []) hemit
  · rw [hdepth, hoperands]
    rfl

theorem Expr.arity_nameOp (scope : Program.Scope) (n : String) :
    (nameOp (α := α) scope n).arity = 0 := by
  unfold nameOp
  split
  · rfl
  · split <;> rfl

theorem Expr.adds_code [Scalar α] (scope : Program.Scope) (expr : Expr) :
    Emitter.Adds (expr.code (α := α) scope) := by
  induction expr with
  | literal number => exact .load rfl
  | name n => exact .load (arity_nameOp scope n)
  | derivative n => exact .load rfl
  | call f argument ih => exact ih.call f
  | negative operand ih =>
      have hsign : Emitter.Adds [Op.const (minusOne : α)] := .load rfl
      exact hsign.binary ih .mul
  | binary op left right ihLeft ihRight => exact ihLeft.binary ihRight op

/-- The tokens of a written form of an expression are the program that is its
postfix code. -/
theorem Derives.ofTokens_eq [Scalar α] {scope : Program.Scope} {expr : Expr}
    {lexemes : List Lexeme} (hderives : Derives .sum expr lexemes)
    (hscoped : expr.WellScoped scope) :
    ∃ program : Program α,
      Program.ofTokens (Lexeme.tokensOf true lexemes) scope = .ok program ∧
        program.ops = expr.code scope := by
  obtain ⟨code, ops, -, hcode, hshifts⟩ := hderives.shifts (α := α) hscoped
  obtain ⟨last, hlast, hlastOps, hdepth⟩ := expr.adds_code scope (Emitter.empty (α := α))
  have hshift := hshifts [] [] Emitter.empty trivial
  rw [List.append_nil, List.append_nil] at hshift
  rw [hcode, Emitter.emitAll_append] at hlast
  cases hemit : Emitter.empty.emitAll code with
  | error cause =>
      rw [hemit] at hlast
      cases hlast
  | ok next =>
      rw [hemit] at hshift hlast
      have hall : Emitter.reduceAll (waitingOps ops) next = .ok last :=
        (Emitter.reduceAll_waitingOps ops next).trans hlast
      have hend : Program.shiftAll scope (Lexeme.tokensOf true lexemes) [] Emitter.empty =
          .ok (waitingOps ops, next) := by
        rw [hshift]
        change Program.shiftAll scope [] (waitingOps ops) next = _
        rw [Program.shiftAll]
      refine ⟨⟨last.ops, last.maxDepth⟩, ?_, by simpa [Emitter.empty] using hlastOps⟩
      rw [Program.ofTokens, hend]
      simp only [hall, hdepth]
      rfl

end ImplicitDynamics
