import ImplicitDynamics.Proofs.Resolution
import ImplicitDynamics.Proofs.Scanning

/-!
# Why tokens of a text are refused

The reader gives out only numbers that can be read, operators that exist and the
functions there are.  The compiler checks all of this again, but in the tokens of a
text it finds nothing amiss with them.  What is left for it to refuse is the shape
of the tokens and a name that means nothing.
-/

namespace ImplicitDynamics

variable {α : Type}

/-- A number can be read, an operator and a function exist. -/
structure Token.Lexical (token : Token) : Prop where
  number : token.kind = .number → ∃ numeral, Numeral.read? token.text.toList = some numeral
  operator : token.kind = .operator → ∃ op, Binop.ofSymbol? token.text = some op
  function : token.kind = .function → Name.isFunction token.text = true

namespace Token

variable {token : Token}

theorem lexical_number (hkind : token.kind = .number)
    (hread : ∃ numeral, Numeral.read? token.text.toList = some numeral) : token.Lexical :=
  ⟨fun _ => hread, by simp [hkind], by simp [hkind]⟩

theorem lexical_operator (hkind : token.kind = .operator)
    (hsymbol : ∃ op, Binop.ofSymbol? token.text = some op) : token.Lexical :=
  ⟨by simp [hkind], fun _ => hsymbol, by simp [hkind]⟩

theorem lexical_function (hkind : token.kind = .function)
    (hfunction : Name.isFunction token.text = true) : token.Lexical :=
  ⟨by simp [hkind], by simp [hkind], fun _ => hfunction⟩

theorem lexical_of_kind (hnumber : token.kind ≠ .number) (hoperator : token.kind ≠ .operator)
    (hfunction : token.kind ≠ .function) : token.Lexical :=
  ⟨(absurd · hnumber), (absurd · hoperator), (absurd · hfunction)⟩

end Token

theorem Lexeme.lexical_tokens (operandDue : Bool) (lexeme : Lexeme) :
    ∀ token ∈ lexeme.tokens operandDue, token.Lexical := by
  cases lexeme with
  | number n =>
      rw [tokens, List.forall_mem_singleton]
      exact Token.lexical_number rfl ⟨_, by simpa [Token.plain] using n.read?_text⟩
  | word w =>
      rw [tokens, List.forall_mem_singleton, Token.ofWord]
      split
      · next hfunction => exact Token.lexical_function rfl hfunction
      · exact Token.lexical_of_kind (by simp [Token.plain]) (by simp [Token.plain])
          (by simp [Token.plain])
  | operator op =>
      simp only [tokens]
      split
      · rw [Token.negation, List.forall_mem_cons, List.forall_mem_singleton]
        exact ⟨Token.lexical_number rfl ⟨.decimal true 1 0, by decide⟩,
          Token.lexical_operator rfl ⟨.mul, Binop.ofSymbol?_symbol .mul⟩⟩
      · rw [List.forall_mem_singleton]
        exact Token.lexical_operator rfl ⟨op, Binop.ofSymbol?_symbol op⟩
  | leftParen | rightParen | comma =>
      rw [tokens, List.forall_mem_singleton]
      exact Token.lexical_of_kind (by simp [Token.plain]) (by simp [Token.plain])
        (by simp [Token.plain])

theorem lexical_of_tokenize {text : String} {tokens : List Token}
    (htokens : tokenize text = .ok tokens) : ∀ token ∈ tokens, token.Lexical := by
  obtain ⟨lexemes, -, rfl⟩ := exists_lexemes_of_tokenize htokens
  exact Lexeme.forall_mem_tokensOf Lexeme.lexical_tokens true lexemes

theorem Token.Lexical.exists_constant [Scalar α] {token : Token} (htoken : token.Lexical)
    (hkind : token.kind = .number) : ∃ op : Op α, Program.constant token.text = .ok op := by
  obtain ⟨numeral, hread⟩ := htoken.number hkind
  exact ⟨.const (Scalar.ofNumeral numeral), by simp [Program.constant, Scalar.read?, hread]⟩

theorem Token.Lexical.exists_elementary {token : Token} (htoken : token.Lexical)
    (hkind : token.kind = .function) (hword : Program.isDerivative token = false) :
    ∃ f, Elementary.ofName? token.text = some f := by
  have hfunction := htoken.function hkind
  rw [Name.isFunction, Bool.or_eq_true, decide_eq_true_eq] at hfunction
  rcases hfunction with hder | helementary
  · simp [Program.isDerivative, hkind, hder] at hword
  · exact Option.isSome_iff_exists.mp helementary

/-! ## Causes -/

/-- The cause is the shape of the tokens, not a name or the text of a number. -/
inductive Malformed.IsStructural : Malformed → Prop where
  | mismatchedParentheses : IsStructural .mismatchedParentheses
  | missingOperand (symbol : String) : IsStructural (.missingOperand symbol)
  | operandCount (left : Nat) : IsStructural (.operandCount left)
  | functionWithoutArguments (name : String) : IsStructural (.functionWithoutArguments name)
  | invalidDerivative (shown : String) : IsStructural (.invalidDerivative shown)

namespace Emitter

variable {emitter : Emitter α} {pending : List Pending} {cause : Malformed}

theorem isStructural_of_emit {op : Op α} (hemit : emitter.emit op = .error cause) :
    cause.IsStructural := by
  unfold emit at hemit
  split at hemit
  · cases hemit
    exact .missingOperand _
  · cases hemit

theorem isStructural_of_reduce {bound : Nat} (hreduce : reduce bound pending emitter = .error cause) :
    cause.IsStructural := by
  fun_induction reduce bound pending emitter with
  | case1 => cases hreduce
  | case2 _ _ _ _ _ _ _ ih => exact ih hreduce
  | case3 _ _ _ _ _ found hemit =>
      cases hreduce
      exact isStructural_of_emit hemit
  | case4 => cases hreduce

theorem isStructural_of_reduceToParen (hreduce : reduceToParen pending emitter = .error cause) :
    cause.IsStructural := by
  fun_induction reduceToParen pending emitter with
  | case1 =>
      cases hreduce
      exact .mismatchedParentheses
  | case2 => cases hreduce
  | case3 _ _ _ _ _ _ _ ih => exact ih hreduce
  | case4 _ _ _ _ _ found hemit =>
      cases hreduce
      exact isStructural_of_emit hemit

theorem isStructural_of_reduceAll (hreduce : reduceAll pending emitter = .error cause) :
    cause.IsStructural := by
  fun_induction reduceAll pending emitter with
  | case1 => cases hreduce
  | case2 =>
      cases hreduce
      exact .mismatchedParentheses
  | case3 _ _ _ _ _ _ _ ih => exact ih hreduce
  | case4 _ _ _ _ _ found hemit =>
      cases hreduce
      exact isStructural_of_emit hemit

theorem isStructural_of_close (hclose : close pending emitter = .error cause) :
    cause.IsStructural := by
  unfold close at hclose
  split at hclose
  · split at hclose
    · cases hclose
    · next hemit =>
      cases hclose
      exact isStructural_of_emit hemit
  · cases hclose
  · cases hclose
  · next hreduce =>
    cases hclose
    exact isStructural_of_reduceToParen hreduce

/-- A load fails with what it loads, for it needs no operands. -/
theorem error_of_load {source : Except Malformed (Op α)} (harity : ∀ op, source = .ok op → op.arity = 0)
    (hload : (do let op ← source; return (pending, ← emitter.emit op)) = .error cause) :
    source = .error cause := by
  cases source with
  | error found =>
      cases hload
      rfl
  | ok op =>
      have hemit : emitter.emit op = .ok _ :=
        emit_eq_ok_iff.mpr ⟨by rw [harity op rfl]; exact Nat.zero_le _, rfl⟩
      simp only [bind, Except.bind, hemit] at hload
      cases hload

end Emitter

namespace Program

variable {scope : Scope} {tokens rest : List Token} {cause : Malformed}

/-- Why the tokens of a text are refused: their shape, a name that means nothing, or
the derivative of what is no variable. -/
inductive Refused (scope : Scope) (tokens : List Token) : Malformed → Prop where
  | shape {cause : Malformed} (hcause : cause.IsStructural) : Refused scope tokens cause
  | name {token : Token} (htoken : token ∈ tokens) (hkind : token.kind = .identifier)
      (htime : token.text ≠ Name.time) (hvariable : token.text ∉ scope.vars.names)
      (hparameter : token.text ∉ scope.parameters.names) :
      Refused scope tokens (.unknownSymbol token.text)
  | target {name : String} (hname : Reference.ToDerivative tokens name)
      (hvariable : name ∉ scope.vars.names) :
      Refused scope tokens (.unknownSymbol ("der(" ++ name ++ ")"))

theorem Refused.suffix (hrefused : Refused scope rest cause) (hrest : rest <:+ tokens) :
    Refused scope tokens cause := by
  cases hrefused with
  | shape hcause => exact .shape hcause
  | name htoken hkind htime hvariable hparameter =>
      exact .name (hrest.subset htoken) hkind htime hvariable hparameter
  | target hname hvariable =>
      obtain ⟨front, rfl⟩ := hrest
      obtain ⟨before, word, opening, target, closing, after, rfl, hkinds⟩ := hname
      exact .target ⟨front ++ before, word, opening, target, closing, after, by simp, hkinds⟩
        hvariable

theorem resolve_error {name : String} (hresolve : resolve (α := α) scope name = .error cause) :
    cause = .unknownSymbol name ∧ name ≠ Name.time ∧ name ∉ scope.vars.names ∧
      name ∉ scope.parameters.names := by
  have hnone : ¬ ∃ op : Op α, resolve scope name = .ok op := by simp [hresolve]
  rw [exists_resolve_iff, not_or, not_or] at hnone
  refine ⟨?_, hnone⟩
  unfold resolve at hresolve
  split at hresolve
  · cases hresolve
  · split at hresolve
    · cases hresolve
    · split at hresolve
      · cases hresolve
      · cases hresolve
        rfl

theorem resolveDerivative_error {name : String}
    (hresolve : resolveDerivative (α := α) scope name = .error cause) :
    cause = .unknownSymbol ("der(" ++ name ++ ")") ∧ name ∉ scope.vars.names := by
  have hnone : ¬ ∃ op : Op α, resolveDerivative scope name = .ok op := by simp [hresolve]
  rw [exists_resolveDerivative_iff] at hnone
  refine ⟨?_, hnone⟩
  unfold resolveDerivative at hresolve
  split at hresolve
  · cases hresolve
  · cases hresolve
    rfl

theorem derivativeTarget_error (htarget : derivativeTarget tokens = .error cause) :
    cause.IsStructural := by
  unfold derivativeTarget at htarget
  split at htarget
  · split at htarget
    · cases htarget
    · cases htarget
      exact .invalidDerivative _
  · cases htarget
    exact .invalidDerivative _

variable [Scalar α] {emitter : Emitter α} {pending : List Pending}

theorem refused_of_shift {token : Token} {followed : Bool} (htoken : token.Lexical)
    (hword : isDerivative token = false)
    (hshift : shift scope token followed pending emitter = .error cause) :
    Refused scope (token :: rest) cause := by
  unfold shift at hshift
  cases hkind : token.kind with
  | number =>
      simp only [hkind] at hshift
      obtain ⟨op, hop⟩ := htoken.exists_constant (α := α) hkind
      have hconstant := Emitter.error_of_load (fun op => arity_of_constant) hshift
      cases hop.symm.trans hconstant
  | identifier =>
      simp only [hkind] at hshift
      have hresolve := Emitter.error_of_load (fun op => arity_of_resolve) hshift
      obtain ⟨rfl, htime, hvariable, hparameter⟩ := resolve_error hresolve
      exact .name List.mem_cons_self hkind htime hvariable hparameter
  | function =>
      obtain ⟨f, hf⟩ := htoken.exists_elementary hkind hword
      simp only [hkind, hf] at hshift
      split at hshift
      · cases hshift
      · cases hshift
        exact .shape (.functionWithoutArguments _)
  | operator =>
      obtain ⟨op, hop⟩ := htoken.operator hkind
      simp only [hkind, hop] at hshift
      split at hshift
      · cases hshift
      · cases hreduce : Emitter.reduce token.precedence pending emitter with
        | error found =>
            rw [hreduce] at hshift
            cases hshift
            exact .shape (Emitter.isStructural_of_reduce hreduce)
        | ok reduced =>
            rw [hreduce] at hshift
            cases hshift
  | leftParen =>
      simp only [hkind] at hshift
      cases hshift
  | rightParen =>
      simp only [hkind] at hshift
      exact .shape (Emitter.isStructural_of_close hshift)
  | comma =>
      simp only [hkind] at hshift
      exact .shape (Emitter.isStructural_of_reduceToParen hshift)

theorem refused_of_shiftAll (htokens : ∀ token ∈ tokens, token.Lexical)
    (hshift : shiftAll scope tokens pending emitter = .error cause) :
    Refused scope tokens cause := by
  fun_induction shiftAll scope tokens pending emitter with
  | case1 => cases hshift
  | case2 token rest pending emitter hder found htarget =>
      cases hshift
      exact .shape (derivativeTarget_error htarget)
  | case3 token rest pending emitter hder name htarget found hresolve =>
      cases hshift
      obtain ⟨rfl, hvariable⟩ := resolveDerivative_error hresolve
      obtain ⟨opening, target, closing, left, rfl, hopening, hkind, hclosing, rfl⟩ :=
        derivativeTarget_eq_ok htarget
      exact .target ⟨[], token, opening, target, closing, left, rfl, hder, hopening, hkind, rfl,
        hclosing⟩ hvariable
  | case4 token rest pending emitter hder name htarget op hresolve found hemit =>
      cases hshift
      exact .shape (Emitter.isStructural_of_emit hemit)
  | case5 token rest pending emitter hder name htarget op hresolve next hemit ih =>
      have hsuffix : rest.drop 3 <:+ token :: rest :=
        (List.drop_suffix 3 rest).trans (List.suffix_cons token rest)
      exact (ih (fun other hother => htokens other (hsuffix.subset hother)) hshift).suffix hsuffix
  | case6 token rest pending emitter hder found hfirst =>
      cases hshift
      exact refused_of_shift (htokens token List.mem_cons_self) (by simpa using hder) hfirst
  | case7 token rest pending emitter hder waiting next hfirst ih =>
      have hsuffix := List.suffix_cons token rest
      exact (ih (fun other hother => htokens other (hsuffix.subset hother)) hshift).suffix hsuffix

/-- Of the tokens of a text only the shape and the names can be wrong. -/
theorem refused_of_ofTokens (htokens : ∀ token ∈ tokens, token.Lexical)
    (herror : ofTokens (α := α) tokens scope = .error cause) : Refused scope tokens cause := by
  unfold ofTokens at herror
  split at herror
  · next hshift =>
    cases herror
    exact refused_of_shiftAll htokens hshift
  · split at herror
    · next hreduce =>
      cases herror
      exact .shape (Emitter.isStructural_of_reduceAll hreduce)
    · split at herror
      · cases herror
      · cases herror
        exact .shape (.operandCount _)

end Program

end ImplicitDynamics
