import ImplicitDynamics.Proofs.OperatorPrecedence

/-!
# What shifting can do

A successful run of the shifting loop is a sequence of moves.  A move takes
tokens from the front, changes what waits, and emits operations; the moves are
the constructors of `Program.Move`, with everything that the loop has checked
before it makes them.  Whatever the moves keep holds of every program.
-/

namespace ImplicitDynamics

variable {α : Type}

theorem map_eq_ok_iff {ε β γ : Type} {f : β → γ} {result : Except ε β} {image : γ} :
    result.map f = .ok image ↔ ∃ value, result = .ok value ∧ f value = image := by
  cases result <;> simp [Except.map]

theorem map_eq_error_iff {ε β γ : Type} {f : β → γ} {result : Except ε β} {cause : ε} :
    result.map f = .error cause ↔ result = .error cause := by
  cases result <;> simp [Except.map]

/-- The operations of what waits, in the order in which they are emitted. -/
def Pending.code (pending : List Pending) : List (Op α) :=
  pending.filterMap Pending.op?

def Pending.isOperator : Pending → Bool
  | operator _ _ => true
  | function _ => false
  | leftParen => false

theorem Pending.forall_code {P : Op α → Prop} (hbinary : ∀ op, P (.binary op))
    (hcall : ∀ f, P (.call f)) {pending : List Pending} : ∀ op ∈ code pending, P op := by
  intro op hop
  obtain ⟨top, -, htop⟩ := List.mem_filterMap.mp hop
  cases top with
  | operator binop precedence =>
      cases htop
      exact hbinary binop
  | function f =>
      cases htop
      exact hcall f
  | leftParen => cases htop

namespace Emitter

section

variable {emitter next final : Emitter α} {op : Op α} {code : List (Op α)}

theorem emit_eq_ok_iff : emitter.emit op = .ok next ↔
    op.arity ≤ emitter.depth ∧
      next = ⟨emitter.ops ++ [op], emitter.depth - op.arity + 1,
        max emitter.maxDepth (emitter.depth - op.arity + 1)⟩ := by
  unfold emit
  split
  · next hlt => simp [Nat.not_le.mpr hlt]
  · next hle => simp [Nat.not_lt.mp hle, eq_comm]

theorem emitAll_cons_eq_ok_iff : emitter.emitAll (op :: code) = .ok final ↔
    ∃ next, emitter.emit op = .ok next ∧ next.emitAll code = .ok final := by
  rw [emitAll_cons]
  cases emitter.emit op with
  | error cause => exact ⟨nofun, fun ⟨_, h, _⟩ => nomatch h⟩
  | ok middle => simp [bind, Except.bind]

theorem emitAll_append_eq_ok_iff {more : List (Op α)} :
    emitter.emitAll (code ++ more) = .ok final ↔
      ∃ next, emitter.emitAll code = .ok next ∧ next.emitAll more = .ok final := by
  rw [emitAll_append]
  cases emitter.emitAll code with
  | error cause => exact ⟨nofun, fun ⟨_, h, _⟩ => nomatch h⟩
  | ok middle => simp [bind, Except.bind]

theorem ops_of_emitAll (hcode : emitter.emitAll code = .ok final) :
    final.ops = emitter.ops ++ code := by
  induction code generalizing emitter with
  | nil =>
      cases hcode
      simp
  | cons op code ih =>
      obtain ⟨next, hemit, hrest⟩ := emitAll_cons_eq_ok_iff.mp hcode
      rw [ih hrest, (emit_eq_ok_iff.mp hemit).2, List.append_assoc, List.singleton_append]

end

variable {emitter next : Emitter α} {pending rest : List Pending}

theorem reduce_cases {bound : Nat} (hreduce : reduce bound pending emitter = .ok (rest, next)) :
    ∃ popped, pending = popped ++ rest ∧ (∀ top ∈ popped, top.isOperator = true) ∧
      emitter.emitAll (Pending.code popped) = .ok next := by
  induction pending generalizing emitter with
  | nil =>
      cases hreduce
      exact ⟨[], rfl, by simp, rfl⟩
  | cons top below ih =>
      cases top with
      | operator op precedence =>
          rw [reduce] at hreduce
          split at hreduce
          · cases hreduce
            exact ⟨[], rfl, by simp, rfl⟩
          · split at hreduce
            · next middle hemit =>
              obtain ⟨popped, rfl, hpopped, hcode⟩ := ih hreduce
              refine ⟨.operator op precedence :: popped, rfl, ?_, ?_⟩
              · simpa [Pending.isOperator] using hpopped
              · change emitAll (.binary op :: Pending.code popped) emitter = _
                rw [emitAll_cons, hemit]
                exact hcode
            · cases hreduce
      | function f =>
          cases hreduce
          exact ⟨[], rfl, by simp, rfl⟩
      | leftParen =>
          cases hreduce
          exact ⟨[], rfl, by simp, rfl⟩

theorem op?_eq_none_iff {top : Pending} : top.op? (α := α) = none ↔ top = .leftParen := by
  cases top <;> simp [Pending.op?]

theorem reduceToParen_cases (hreduce : reduceToParen pending emitter = .ok (rest, next)) :
    ∃ popped below, pending = popped ++ .leftParen :: below ∧ rest = .leftParen :: below ∧
      Pending.leftParen ∉ popped ∧ emitter.emitAll (Pending.code popped) = .ok next := by
  induction pending generalizing emitter with
  | nil => cases hreduce
  | cons top below ih =>
      rw [reduceToParen] at hreduce
      split at hreduce
      · next hop =>
        cases hreduce
        obtain rfl := op?_eq_none_iff.mp hop
        exact ⟨[], below, rfl, rfl, by simp, rfl⟩
      · next op hop =>
        split at hreduce
        · next middle hemit =>
          obtain ⟨popped, under, rfl, rfl, hpopped, hcode⟩ := ih hreduce
          refine ⟨top :: popped, under, rfl, rfl, ?_, ?_⟩
          · rintro hmem
            rcases List.mem_cons.mp hmem with rfl | hmem
            · cases hop
            · exact hpopped hmem
          · rw [Pending.code, List.filterMap_cons_some hop, emitAll_cons, hemit]
            exact hcode
        · cases hreduce

theorem reduceAll_cases (hreduce : reduceAll pending emitter = .ok next) :
    Pending.leftParen ∉ pending ∧ emitter.emitAll (Pending.code pending) = .ok next := by
  induction pending generalizing emitter with
  | nil =>
      cases hreduce
      exact ⟨by simp, rfl⟩
  | cons top below ih =>
      rw [reduceAll] at hreduce
      split at hreduce
      · cases hreduce
      · next op hop =>
        split at hreduce
        · next middle hemit =>
          obtain ⟨hbelow, hcode⟩ := ih hreduce
          refine ⟨?_, ?_⟩
          · rintro hmem
            rcases List.mem_cons.mp hmem with rfl | hmem
            · cases hop
            · exact hbelow hmem
          · rw [Pending.code, List.filterMap_cons_some hop, emitAll_cons, hemit]
            exact hcode
        · cases hreduce

theorem close_cases (hclose : close pending emitter = .ok (rest, next)) :
    ∃ popped below, pending = popped ++ .leftParen :: below ∧ Pending.leftParen ∉ popped ∧
      ((∃ f, below = .function f :: rest ∧
          emitter.emitAll (Pending.code popped ++ [.call f]) = .ok next) ∨
        (rest = below ∧ (∀ f under, below ≠ .function f :: under) ∧
          emitter.emitAll (Pending.code popped) = .ok next)) := by
  unfold close at hclose
  split at hclose
  · next paren f under middle hparen =>
    obtain ⟨popped, below, rfl, hbelow, hpopped, hcode⟩ := reduceToParen_cases hparen
    cases hbelow
    split at hclose
    · next last hemit =>
      cases hclose
      refine ⟨popped, _, rfl, hpopped, .inl ⟨f, rfl, ?_⟩⟩
      rw [emitAll_append, hcode]
      exact congrArg (· >>= emitAll []) hemit
    · cases hclose
  · next paren under middle hplain hparen =>
    obtain ⟨popped, below, rfl, hbelow, hpopped, hcode⟩ := reduceToParen_cases hparen
    cases hbelow
    cases hclose
    refine ⟨popped, _, rfl, hpopped, .inr ⟨rfl, ?_, hcode⟩⟩
    rintro f deeper rfl
    exact hplain _ _ rfl
  · next hparen =>
    obtain ⟨popped, below, -, hbelow, -, -⟩ := reduceToParen_cases hparen
    cases hbelow
  · cases hclose

theorem emitAll_of_load {source : Except Malformed (Op α)}
    (hload : (do let op ← source; return (pending, ← emitter.emit op)) = .ok (rest, next)) :
    ∃ op, source = .ok op ∧ rest = pending ∧ emitter.emitAll [op] = .ok next := by
  cases source with
  | error cause => cases hload
  | ok op =>
      cases hemit : emitter.emit op with
      | error cause =>
          simp only [hemit, bind, Except.bind] at hload
          cases hload
      | ok last =>
          simp only [hemit, bind, Except.bind, pure, Except.pure] at hload
          cases hload
          refine ⟨op, rfl, rfl, ?_⟩
          rw [emitAll_cons, hemit]
          rfl

end Emitter

namespace Program

theorem resolve_eq_ok {scope : Scope} {name : String} {op : Op α} (hop : resolve scope name = .ok op) :
    op = .time ∨ (∃ i, scope.vars.indexOf? name = some i ∧ op = .variable i) ∨
      ∃ i, scope.parameters.indexOf? name = some i ∧ op = .parameter i := by
  unfold resolve at hop
  split at hop
  · cases hop
    exact .inl rfl
  · split at hop
    · next i hi =>
      cases hop
      exact .inr (.inl ⟨i, hi, rfl⟩)
    · split at hop
      · next i hi =>
        cases hop
        exact .inr (.inr ⟨i, hi, rfl⟩)
      · cases hop

theorem resolveDerivative_eq_ok {scope : Scope} {name : String} {op : Op α}
    (hop : resolveDerivative scope name = .ok op) :
    ∃ i, scope.vars.indexOf? name = some i ∧ op = .derivative i := by
  unfold resolveDerivative at hop
  split at hop
  · next i hi =>
    cases hop
    exact ⟨i, hi, rfl⟩
  · cases hop

variable [Scalar α]

theorem constant_eq_ok {text : String} {op : Op α} (hop : constant text = .ok op) :
    ∃ value, Scalar.read? text.toList = some value ∧ op = .const value := by
  unfold constant at hop
  split at hop
  · next value hvalue =>
    cases hop
    exact ⟨value, hvalue, rfl⟩
  · cases hop

/-- One move of the shifting loop: the tokens that it takes, what waits before
and after it, and the operations that it emits. -/
inductive Move (scope : Scope) :
    List Token → List Pending → List Pending → List (Op α) → Prop where
  | number {token : Token} {op : Op α} {pending : List Pending}
      (hkind : token.kind = .number) (hop : constant token.text = .ok op) :
      Move scope [token] pending pending [op]
  | name {token : Token} {op : Op α} {pending : List Pending}
      (hkind : token.kind = .identifier) (hop : resolve scope token.text = .ok op) :
      Move scope [token] pending pending [op]
  | derivative {word opening name closing : Token} {op : Op α} {pending : List Pending}
      (hword : isDerivative word = true) (hopening : opening.kind = .leftParen)
      (hname : name.kind = .identifier) (hclosing : closing.kind = .rightParen)
      (hop : resolveDerivative scope name.text = .ok op) :
      Move scope [word, opening, name, closing] pending pending [op]
  | call {word opening : Token} {f : Elementary} {pending : List Pending}
      (hkind : word.kind = .function) (hword : isDerivative word = false)
      (hf : Elementary.ofName? word.text = some f) (hopening : opening.kind = .leftParen) :
      Move scope [word, opening] pending (.leftParen :: .function f :: pending) []
  | operator {token : Token} {op : Binop} {popped below : List Pending}
      (hkind : token.kind = .operator) (hop : Binop.ofSymbol? token.text = some op)
      (hpopped : ∀ top ∈ popped, top.isOperator = true)
      (hunary : token.unary = true → popped = []) :
      Move scope [token] (popped ++ below) (.operator op token.precedence :: below)
        (Pending.code popped)
  | leftParen {token : Token} {pending : List Pending} (hkind : token.kind = .leftParen) :
      Move scope [token] pending (.leftParen :: pending) []
  | closeCall {token : Token} {f : Elementary} {popped below : List Pending}
      (hkind : token.kind = .rightParen) (hpopped : Pending.leftParen ∉ popped) :
      Move scope [token] (popped ++ .leftParen :: .function f :: below) below
        (Pending.code popped ++ [.call f])
  | close {token : Token} {popped below : List Pending}
      (hkind : token.kind = .rightParen) (hpopped : Pending.leftParen ∉ popped)
      (hbelow : ∀ f under, below ≠ .function f :: under) :
      Move scope [token] (popped ++ .leftParen :: below) below (Pending.code popped)
  | comma {token : Token} {popped below : List Pending}
      (hkind : token.kind = .comma) (hpopped : Pending.leftParen ∉ popped) :
      Move scope [token] (popped ++ .leftParen :: below) (.leftParen :: below)
        (Pending.code popped)

variable {scope : Scope} {pending waiting : List Pending} {emitter next : Emitter α}

/-- What holds of whatever a name, a number and an operator are compiled to holds
of all that a move emits. -/
theorem Move.forall_code {P : Op α → Prop} {taken : List Token} {code : List (Op α)}
    (hmove : Move scope taken pending waiting code)
    (hconst : ∀ {text op}, constant text = .ok op → P op)
    (hname : ∀ {n op}, resolve scope n = .ok op → P op)
    (hderivative : ∀ word ∈ taken, isDerivative word = true →
      ∀ {n op}, resolveDerivative scope n = .ok op → P op)
    (hbinary : ∀ op, P (.binary op)) (hcall : ∀ f, P (.call f)) : ∀ op ∈ code, P op := by
  cases hmove with
  | number hkind hop => simpa using hconst hop
  | name hkind hop => simpa using hname hop
  | derivative hword hopening hkind hclosing hop =>
      simpa using hderivative _ List.mem_cons_self hword hop
  | call hkind hword hf hopening => simp
  | operator hkind hop hpopped hunary => exact Pending.forall_code hbinary hcall
  | leftParen hkind => simp
  | closeCall hkind hpopped =>
      intro op hop
      rcases List.mem_append.mp hop with hop | hop
      · exact Pending.forall_code hbinary hcall op hop
      · rw [List.mem_singleton.mp hop]
        exact hcall _
  | close hkind hpopped hbelow => exact Pending.forall_code hbinary hcall
  | comma hkind hpopped => exact Pending.forall_code hbinary hcall

theorem derivativeTarget_eq_ok {tokens : List Token} {n : String}
    (htarget : derivativeTarget tokens = .ok n) :
    ∃ opening name closing rest, tokens = opening :: name :: closing :: rest ∧
      opening.kind = .leftParen ∧ name.kind = .identifier ∧ closing.kind = .rightParen ∧
      name.text = n := by
  unfold derivativeTarget at htarget
  split at htarget
  · next opening name closing rest =>
    split at htarget
    · next hkinds =>
      cases htarget
      simp only [Bool.and_eq_true, decide_eq_true_eq] at hkinds
      exact ⟨opening, name, closing, rest, rfl, hkinds.1.1, hkinds.1.2, hkinds.2, rfl⟩
    · cases htarget
  · cases htarget

/-- A token that is shifted makes a move, unless it names a function: that
waits for the parenthesis that follows. -/
theorem shift_cases {token : Token} {followed : Bool}
    (hshift : shift scope token followed pending emitter = .ok (waiting, next)) :
    (∃ code, Move scope [token] pending waiting code ∧ emitter.emitAll code = .ok next) ∨
      (∃ f, token.kind = .function ∧ Elementary.ofName? token.text = some f ∧
        followed = true ∧ waiting = .function f :: pending ∧ next = emitter) := by
  unfold shift at hshift
  cases hkind : token.kind with
  | number =>
      simp only [hkind] at hshift
      obtain ⟨op, hop, rfl, hcode⟩ := Emitter.emitAll_of_load hshift
      exact .inl ⟨[op], .number hkind hop, hcode⟩
  | identifier =>
      simp only [hkind] at hshift
      obtain ⟨op, hop, rfl, hcode⟩ := Emitter.emitAll_of_load hshift
      exact .inl ⟨[op], .name hkind hop, hcode⟩
  | operator =>
      simp only [hkind] at hshift
      split at hshift
      · cases hshift
      · next op hop =>
        split at hshift
        · cases hshift
          have hmove : Move scope [token] ([] ++ pending)
              (.operator op token.precedence :: pending) (Pending.code (α := α) []) :=
            .operator hkind hop (by simp) (by simp)
          exact .inl ⟨[], hmove, rfl⟩
        · next hunary =>
          cases hreduce : Emitter.reduce token.precedence pending emitter with
          | error cause =>
              simp only [hreduce, bind, Except.bind] at hshift
              cases hshift
          | ok reduced =>
              simp only [hreduce, bind, Except.bind, pure, Except.pure] at hshift
              cases hshift
              obtain ⟨popped, rfl, hpopped, hcode⟩ := Emitter.reduce_cases hreduce
              exact .inl ⟨_, .operator hkind hop hpopped (absurd · hunary), hcode⟩
  | function =>
      simp only [hkind] at hshift
      split at hshift
      · cases hshift
      · next f hf =>
        split at hshift
        · next hfollowed =>
          cases hshift
          exact .inr ⟨f, rfl, hf, hfollowed, rfl, rfl⟩
        · cases hshift
  | leftParen =>
      simp only [hkind] at hshift
      cases hshift
      exact .inl ⟨[], .leftParen hkind, rfl⟩
  | rightParen =>
      simp only [hkind] at hshift
      obtain ⟨popped, below, rfl, hpopped, ⟨f, rfl, hcode⟩ | ⟨rfl, hbelow, hcode⟩⟩ :=
        Emitter.close_cases hshift
      · exact .inl ⟨_, .closeCall hkind hpopped, hcode⟩
      · exact .inl ⟨_, .close hkind hpopped hbelow, hcode⟩
  | comma =>
      simp only [hkind] at hshift
      obtain ⟨popped, below, rfl, rfl, hpopped, hcode⟩ := Emitter.reduceToParen_cases hshift
      exact .inl ⟨_, .comma hkind hpopped, hcode⟩

/-- A shifting loop that succeeds begins with a move and goes on from there. -/
theorem shiftAll_cases {token : Token} {rest : List Token}
    {final : List Pending × Emitter α}
    (hshift : shiftAll scope (token :: rest) pending emitter = .ok final) :
    ∃ taken left waiting code next, token :: rest = taken ++ left ∧
      left.length < rest.length + 1 ∧ Move scope taken pending waiting code ∧
      emitter.emitAll code = .ok next ∧ shiftAll scope left waiting next = .ok final := by
  by_cases hder : isDerivative token = true
  · rw [shiftAll, if_pos hder] at hshift
    split at hshift
    · cases hshift
    · next target htarget =>
      obtain ⟨opening, name, closing, left, rfl, hopening, hname, hclosing, rfl⟩ :=
        derivativeTarget_eq_ok htarget
      split at hshift
      · cases hshift
      · next op hop =>
        split at hshift
        · cases hshift
        · next middle hemit =>
          refine ⟨[token, opening, name, closing], left, pending, [op], middle, rfl, ?_,
            .derivative hder hopening hname hclosing hop, ?_, hshift⟩
          · simp only [List.length_cons]
            omega
          · rw [Emitter.emitAll_cons, hemit]
            rfl
  · have hplain : isDerivative token = false := by simpa using hder
    rw [shiftAll, if_neg hder] at hshift
    split at hshift
    · cases hshift
    · next waiting middle hmiddle =>
      rcases shift_cases hmiddle with ⟨code, hmove, hcode⟩ | hfunction
      · exact ⟨[token], rest, waiting, code, middle, rfl, Nat.lt_succ_self _, hmove, hcode,
          hshift⟩
      · obtain ⟨f, hkind, hf, hfollowed, rfl, rfl⟩ := hfunction
        -- the parenthesis that the function waits for is shifted in the same move
        cases rest with
        | nil => cases hfollowed
        | cons opening left =>
            have hopening : opening.kind = .leftParen := by
              simpa [startsParen] using hfollowed
            have hparen : isDerivative opening = false :=
              isDerivative_of_kind (by simp [hopening])
            rw [shiftAll, if_neg (by simp [hparen])] at hshift
            simp only [shift, hopening] at hshift
            exact ⟨[token, opening], left, _, [], middle, rfl,
              by simp only [List.length_cons]; omega, .call hkind hplain hf hopening, rfl,
              hshift⟩

theorem shiftAll_keeps {Inv : List Token → List Pending → Emitter α → Prop}
    (hmove : ∀ {before taken pending waiting code emitter next},
      Inv before pending emitter → Move scope taken pending waiting code →
      emitter.emitAll code = .ok next → Inv (before ++ taken) waiting next)
    {before tokens : List Token} (hbefore : Inv before pending emitter)
    (hshift : shiftAll scope tokens pending emitter = .ok (waiting, next)) :
    Inv (before ++ tokens) waiting next := by
  induction hlength : tokens.length using Nat.strongRecOn
    generalizing before tokens pending emitter with
  | ind length ih =>
      cases tokens with
      | nil =>
          rw [shiftAll] at hshift
          cases hshift
          rwa [List.append_nil]
      | cons token rest =>
          obtain ⟨taken, left, between, code, middle, htokens, hshorter, hfirst, hcode, hlast⟩ :=
            shiftAll_cases hshift
          rw [List.length_cons] at hlength
          have hafter := ih left.length (hlength ▸ hshorter) (hmove hbefore hfirst hcode) hlast rfl
          rwa [htokens, ← List.append_assoc]

/-- What every move keeps holds after the shifting loop.  The invariant speaks
of the tokens that are shifted so far. -/
theorem shiftAll_invariant (Inv : List Token → List Pending → Emitter α → Prop)
    (hempty : Inv [] [] Emitter.empty)
    (hmove : ∀ {before taken pending waiting code emitter next},
      Inv before pending emitter → Move scope taken pending waiting code →
      emitter.emitAll code = .ok next → Inv (before ++ taken) waiting next)
    {tokens : List Token}
    (hshift : shiftAll scope tokens [] Emitter.empty = .ok (waiting, next)) :
    Inv tokens waiting next :=
  shiftAll_keeps hmove hempty hshift

/-- A program is what the shifting loop emits and what waits after it, when no
parenthesis is open and one value is left. -/
theorem ofTokens_cases {tokens : List Token} {program : Program α}
    (hprogram : ofTokens tokens scope = .ok program) :
    ∃ pending emitter final, shiftAll scope tokens [] Emitter.empty = .ok (pending, emitter) ∧
      Pending.leftParen ∉ pending ∧ emitter.emitAll (Pending.code pending) = .ok final ∧
      final.depth = 1 ∧ program = ⟨final.ops, final.maxDepth⟩ := by
  unfold ofTokens at hprogram
  split at hprogram
  · cases hprogram
  · next pending emitter hshift =>
    split at hprogram
    · cases hprogram
    · next final hreduce =>
      split at hprogram
      · next hdepth =>
        cases hprogram
        obtain ⟨hpending, hcode⟩ := Emitter.reduceAll_cases hreduce
        exact ⟨pending, emitter, final, hshift, hpending, hcode, hdepth, rfl⟩
      · cases hprogram

end Program

end ImplicitDynamics
