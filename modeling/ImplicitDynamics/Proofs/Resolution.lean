import ImplicitDynamics.Proofs.Acceptance
import ImplicitDynamics.Proofs.References

/-!
# Names and the shape of an expression

Two things decide whether tokens compile: their shape, and whether each name in
them has a meaning.  The shape alone fixes what waits and how high the stack is
after each token, so tokens that compile for some names compile for any others
that give a meaning to all that is mentioned.

In tokens that compile, every word for a derivative is followed by a name in
parentheses.  A check that only counts tokens from that word therefore looks at
its target and at nothing else.
-/

namespace ImplicitDynamics

variable {α : Type}

namespace Emitter

/-- Whenever the first goes on, the second goes on with the same operators waiting
and with a stack of the same height. -/
def Follows (first second : Except Malformed (List Pending × Emitter α)) : Prop :=
  ∀ {waiting : List Pending} {next : Emitter α}, first = .ok (waiting, next) →
    ∃ other : Emitter α, second = .ok (waiting, other) ∧ other.depth = next.depth

variable {emitter next other : Emitter α} {op op' : Op α}

theorem emit_follows (hdepth : other.depth = emitter.depth) (harity : op'.arity = op.arity)
    (hemit : emitter.emit op = .ok next) :
    ∃ after : Emitter α, other.emit op' = .ok after ∧ after.depth = next.depth := by
  rcases emit_eq_ok_iff.mp hemit with ⟨hoperands, rfl⟩
  refine ⟨_, emit_eq_ok_iff.mpr ⟨?_, rfl⟩, ?_⟩
  · rwa [harity, hdepth]
  · simp only [harity, hdepth]

theorem reduce_follows (bound : Nat) (pending : List Pending)
    (hdepth : other.depth = emitter.depth) :
    Follows (reduce bound pending emitter) (reduce bound pending other) := by
  induction pending generalizing emitter other with
  | nil =>
      rintro waiting next ⟨⟩
      exact ⟨other, rfl, hdepth⟩
  | cons top below ih =>
      intro waiting next hreduce
      cases top with
      | operator op precedence =>
          rw [reduce] at hreduce ⊢
          by_cases hloose : precedence < bound
          · rw [if_pos hloose] at hreduce ⊢
            cases hreduce
            exact ⟨other, rfl, hdepth⟩
          · rw [if_neg hloose] at hreduce ⊢
            cases hemit : emitter.emit (.binary op) with
            | error cause =>
                rw [hemit] at hreduce
                cases hreduce
            | ok middle =>
                rw [hemit] at hreduce
                rcases emit_follows hdepth rfl hemit with ⟨after, hafter, hsame⟩
                rw [hafter]
                exact ih hsame hreduce
      | function f =>
          cases hreduce
          exact ⟨other, rfl, hdepth⟩
      | leftParen =>
          cases hreduce
          exact ⟨other, rfl, hdepth⟩

theorem reduceToParen_follows (pending : List Pending) (hdepth : other.depth = emitter.depth) :
    Follows (reduceToParen pending emitter) (reduceToParen pending other) := by
  induction pending generalizing emitter other with
  | nil => exact nofun
  | cons top below ih =>
      intro waiting next hreduce
      rw [reduceToParen] at hreduce ⊢
      cases hop : top.op? (α := α) with
      | none =>
          rw [hop] at hreduce
          cases hreduce
          exact ⟨other, rfl, hdepth⟩
      | some op =>
          rw [hop] at hreduce
          cases hemit : emitter.emit op with
          | error cause =>
              simp only [hemit] at hreduce
              cases hreduce
          | ok middle =>
              simp only [hemit] at hreduce
              rcases emit_follows hdepth rfl hemit with ⟨after, hafter, hsame⟩
              simp only [hafter]
              exact ih hsame hreduce

theorem reduceAll_follows (pending : List Pending) (hdepth : other.depth = emitter.depth)
    (hreduce : reduceAll pending emitter = .ok next) :
    ∃ after : Emitter α, reduceAll pending other = .ok after ∧ after.depth = next.depth := by
  induction pending generalizing emitter other with
  | nil =>
      cases hreduce
      exact ⟨other, rfl, hdepth⟩
  | cons top below ih =>
      rw [reduceAll] at hreduce ⊢
      cases hop : top.op? (α := α) with
      | none =>
          rw [hop] at hreduce
          cases hreduce
      | some op =>
          rw [hop] at hreduce
          cases hemit : emitter.emit op with
          | error cause =>
              simp only [hemit] at hreduce
              cases hreduce
          | ok middle =>
              simp only [hemit] at hreduce
              rcases emit_follows hdepth rfl hemit with ⟨after, hafter, hsame⟩
              simp only [hafter]
              exact ih hsame hreduce

theorem close_follows (pending : List Pending) (hdepth : other.depth = emitter.depth) :
    Follows (close pending emitter) (close pending other) := by
  intro waiting next hclose
  unfold close at hclose ⊢
  cases hparen : reduceToParen pending emitter with
  | error cause =>
      rw [hparen] at hclose
      cases hclose
  | ok result =>
      rcases result with ⟨inside, middle⟩
      rcases reduceToParen_follows pending hdepth hparen with ⟨after, hafter, hsame⟩
      rw [hparen] at hclose
      rw [hafter]
      rcases inside with _ | ⟨paren, _ | ⟨under, below⟩⟩
      · cases hclose
        exact ⟨after, rfl, hsame⟩
      · cases hclose
        exact ⟨after, rfl, hsame⟩
      · cases under with
        | function f =>
            cases hemit : middle.emit (.call f) with
            | error cause =>
                simp only [hemit] at hclose
                cases hclose
            | ok last =>
                simp only [hemit] at hclose
                cases hclose
                rcases emit_follows hsame rfl hemit with ⟨final, hfinal, hheight⟩
                exact ⟨final, by simp only [hfinal], hheight⟩
        | operator op precedence =>
            cases hclose
            exact ⟨after, rfl, hsame⟩
        | leftParen =>
            cases hclose
            exact ⟨after, rfl, hsame⟩

/-- What is loaded may be another value, as long as there is one. -/
theorem load_follows {source moved : Except Malformed (Op α)} (pending : List Pending)
    (hdepth : other.depth = emitter.depth)
    (hmoved : ∀ op, source = .ok op → ∃ op', moved = .ok op' ∧ op'.arity = op.arity) :
    Follows (do let op ← source; return (pending, ← emitter.emit op))
      (do let op ← moved; return (pending, ← other.emit op)) := by
  intro waiting next hload
  rcases emitAll_of_load hload with ⟨op, hop, rfl, hcode⟩
  rcases emitAll_cons_eq_ok_iff.mp hcode with ⟨middle, hemit, hmiddle⟩
  cases hmiddle
  rcases hmoved op hop with ⟨op', hop', harity⟩
  rcases emit_follows hdepth harity hemit with ⟨after, hafter, hsame⟩
  refine ⟨after, ?_, hsame⟩
  rw [hop']
  simp only [bind, Except.bind, hafter]
  rfl

end Emitter

namespace Program

/-! ## Names with a meaning -/

/-- Each name among the tokens is the time, a variable or a parameter, and only
variables are differentiated. -/
structure Known (scope : Scope) (tokens : List Token) : Prop where
  name : ∀ token ∈ tokens, token.kind = .identifier →
    token.text = Name.time ∨ token.text ∈ scope.vars.names ∨ token.text ∈ scope.parameters.names
  target : ∀ name, Reference.ToDerivative tokens name → name ∈ scope.vars.names

variable {scope other : Scope} {tokens : List Token}

theorem Known.drop (hknown : Known scope tokens) {rest : List Token} (hrest : rest <:+ tokens) :
    Known scope rest where
  name token htoken := hknown.name token (hrest.subset htoken)
  target name hname := by
    rcases hrest with ⟨front, rfl⟩
    rcases hname with ⟨before, word, opening, target, closing, after, rfl, hkinds⟩
    exact hknown.target name
      ⟨front ++ before, word, opening, target, closing, after, by simp, hkinds⟩

theorem exists_resolve_iff {name : String} :
    (∃ op : Op α, resolve scope name = .ok op) ↔
      name = Name.time ∨ name ∈ scope.vars.names ∨ name ∈ scope.parameters.names := by
  constructor
  · rintro ⟨op, hop⟩
    by_cases htime : name = Name.time
    · exact .inl htime
    rw [resolve, if_neg htime] at hop
    split at hop
    · next index hindex =>
      exact .inr (.inl (List.mem_of_getElem? (SymbolTable.indexOf?_eq_some_iff.mp hindex)))
    · split at hop
      · next index hindex =>
        exact .inr (.inr (List.mem_of_getElem? (SymbolTable.indexOf?_eq_some_iff.mp hindex)))
      · cases hop
  · intro hname
    rw [resolve]
    split
    · exact ⟨_, rfl⟩
    · next htime =>
      split
      · exact ⟨_, rfl⟩
      · next hvariable =>
        have hparameter : name ∈ scope.parameters.names := by
          rw [SymbolTable.indexOf?, List.idxOf?_eq_none_iff] at hvariable
          exact (hname.resolve_left htime).resolve_left hvariable
        rw [SymbolTable.indexOf?_of_mem hparameter]
        exact ⟨_, rfl⟩

theorem exists_resolveDerivative_iff {name : String} :
    (∃ op : Op α, resolveDerivative scope name = .ok op) ↔ name ∈ scope.vars.names := by
  constructor
  · rintro ⟨op, hop⟩
    rcases resolveDerivative_eq_ok hop with ⟨index, hindex, -⟩
    exact List.mem_of_getElem? (SymbolTable.indexOf?_eq_some_iff.mp hindex)
  · intro hname
    rw [resolveDerivative, SymbolTable.indexOf?_of_mem hname]
    exact ⟨_, rfl⟩

theorem Known.derivative {token : Token} {rest : List Token} {name : String}
    (hknown : Known other (token :: rest)) (hder : isDerivative token = true)
    (htarget : derivativeTarget rest = .ok name) {op : Op α}
    (hop : resolveDerivative scope name = .ok op) :
    ∃ op' : Op α, resolveDerivative other name = .ok op' ∧ op'.arity = op.arity := by
  rcases derivativeTarget_eq_ok htarget with
    ⟨opening, target, closing, left, rfl, hopening, htargetKind, hclosing, rfl⟩
  have hmem : target.text ∈ other.vars.names := hknown.target target.text
    ⟨[], token, opening, target, closing, left, rfl, hder, hopening, htargetKind, rfl, hclosing⟩
  rcases exists_resolveDerivative_iff (α := α).mpr hmem with ⟨op', hop'⟩
  exact ⟨op', hop', (arity_of_resolveDerivative hop').trans (arity_of_resolveDerivative hop).symm⟩

variable [Scalar α]

theorem shift_follows {token : Token} (followed : Bool) (pending : List Pending)
    {emitter after : Emitter α} (hdepth : after.depth = emitter.depth)
    (hname : token.kind = .identifier → ∃ op : Op α, resolve other token.text = .ok op) :
    Emitter.Follows (shift scope token followed pending emitter)
      (shift other token followed pending after) := by
  unfold shift
  cases hkind : token.kind with
  | number => exact Emitter.load_follows pending hdepth fun op hop => ⟨op, hop, rfl⟩
  | identifier =>
      refine Emitter.load_follows pending hdepth fun op hop => ?_
      rcases hname hkind with ⟨op', hop'⟩
      exact ⟨op', hop', (arity_of_resolve hop').trans (arity_of_resolve hop).symm⟩
  | operator =>
      simp only
      cases Binop.ofSymbol? token.text with
      | none => exact nofun
      | some op =>
          cases token.unary with
          | true =>
              rintro waiting next ⟨⟩
              exact ⟨after, rfl, hdepth⟩
          | false =>
              intro waiting next hshift
              simp only [Bool.false_eq_true, if_false] at hshift ⊢
              cases hreduce : Emitter.reduce token.precedence pending emitter with
              | error cause =>
                  rw [hreduce] at hshift
                  cases hshift
              | ok result =>
                  rw [hreduce] at hshift
                  cases hshift
                  rcases Emitter.reduce_follows token.precedence pending hdepth hreduce with
                    ⟨last, hlast, hsame⟩
                  rw [hlast]
                  exact ⟨last, rfl, hsame⟩
  | function =>
      simp only
      cases Elementary.ofName? token.text with
      | none => exact nofun
      | some f =>
          cases followed with
          | false => exact nofun
          | true =>
              rintro waiting next ⟨⟩
              exact ⟨after, rfl, hdepth⟩
  | leftParen =>
      rintro waiting next ⟨⟩
      exact ⟨after, rfl, hdepth⟩
  | rightParen => exact Emitter.close_follows pending hdepth
  | comma => exact Emitter.reduceToParen_follows pending hdepth

theorem shiftAll_follows {tokens : List Token} (hknown : Known other tokens)
    (pending : List Pending) {emitter after : Emitter α} (hdepth : after.depth = emitter.depth) :
    Emitter.Follows (shiftAll scope tokens pending emitter)
      (shiftAll other tokens pending after) := by
  intro waiting next hshift
  induction hlength : tokens.length using Nat.strongRecOn
    generalizing tokens pending emitter after with
  | ind length ih =>
      cases tokens with
      | nil =>
          rw [shiftAll] at hshift ⊢
          cases hshift
          exact ⟨after, rfl, hdepth⟩
      | cons token rest =>
          rw [List.length_cons] at hlength
          by_cases hder : isDerivative token = true
          · rw [shiftAll, if_pos hder] at hshift ⊢
            cases htarget : derivativeTarget rest with
            | error cause =>
                rw [htarget] at hshift
                cases hshift
            | ok name =>
                simp only [htarget] at hshift ⊢
                cases hop : resolveDerivative (α := α) scope name with
                | error cause =>
                    rw [hop] at hshift
                    cases hshift
                | ok op =>
                    rcases hknown.derivative hder htarget hop with ⟨op', hop', harity⟩
                    simp only [hop] at hshift
                    simp only [hop']
                    cases hemit : emitter.emit op with
                    | error cause =>
                        rw [hemit] at hshift
                        cases hshift
                    | ok middle =>
                        simp only [hemit] at hshift
                        rcases Emitter.emit_follows hdepth harity hemit with ⟨last, hlast, hsame⟩
                        simp only [hlast]
                        have hshorter : (rest.drop 3).length < length := by
                          rw [List.length_drop]
                          omega
                        have hsuffix : rest.drop 3 <:+ token :: rest :=
                          (List.drop_suffix 3 rest).trans (List.suffix_cons token rest)
                        exact ih _ hshorter (hknown.drop hsuffix) pending hsame hshift rfl
          · rw [shiftAll, if_neg hder] at hshift ⊢
            cases hfirst : shift scope token (startsParen rest) pending emitter with
            | error cause =>
                rw [hfirst] at hshift
                cases hshift
            | ok result =>
                rcases result with ⟨between, middle⟩
                simp only [hfirst] at hshift
                have hname : token.kind = .identifier →
                    ∃ op : Op α, resolve other token.text = .ok op := fun hkind =>
                  exists_resolve_iff.mpr (hknown.name token List.mem_cons_self hkind)
                rcases shift_follows (startsParen rest) pending hdepth hname hfirst with
                  ⟨last, hlast, hsame⟩
                simp only [hlast]
                exact ih rest.length (by omega) (hknown.drop (List.suffix_cons token rest))
                  between hsame hshift rfl

/-- Tokens that compile for some names compile for others that give all they mention
a meaning. -/
theorem exists_ofTokens_of_known {tokens : List Token} {program : Program α}
    (hprogram : ofTokens tokens scope = .ok program) (hknown : Known other tokens) :
    ∃ program : Program α, ofTokens tokens other = .ok program := by
  unfold ofTokens at hprogram ⊢
  cases hshift : shiftAll scope tokens [] (Emitter.empty : Emitter α) with
  | error cause =>
      rw [hshift] at hprogram
      cases hprogram
  | ok result =>
      rcases result with ⟨pending, emitter⟩
      rcases shiftAll_follows hknown [] rfl hshift with ⟨after, hafter, hsame⟩
      simp only [hshift] at hprogram
      simp only [hafter]
      cases hreduce : Emitter.reduceAll pending emitter with
      | error cause =>
          rw [hreduce] at hprogram
          cases hprogram
      | ok final =>
          rcases Emitter.reduceAll_follows pending hsame hreduce with ⟨last, hlast, hheight⟩
          simp only [hreduce] at hprogram
          simp only [hlast, hheight]
          split at hprogram
          · next hone => exact ⟨_, if_pos hone⟩
          · cases hprogram

/-! ## What tokens that compile mention -/

/-- Each word for a derivative is followed by a variable in parentheses. -/
def Applied (scope : Scope) (tokens : List Token) : Prop :=
  ∀ before word after, tokens = before ++ word :: after → isDerivative word = true →
    ∃ opening target closing rest, after = opening :: target :: closing :: rest ∧
      opening.kind = .leftParen ∧ target.kind = .identifier ∧ closing.kind = .rightParen ∧
      target.text ∈ scope.vars.names

theorem Applied.append {first second : List Token} (hfirst : Applied scope first)
    (hsecond : Applied scope second) : Applied scope (first ++ second) := by
  intro before word after heq hword
  rcases List.append_eq_append_iff.mp heq with ⟨middle, rfl, hrest⟩ | ⟨middle, hrest, hafter⟩
  · exact hsecond middle word after hrest hword
  · cases middle with
    | nil => exact hsecond [] word after (by simpa using hafter.symm) hword
    | cons other middle =>
        obtain ⟨rfl, rfl⟩ := List.cons.inj hafter
        rcases hfirst before word middle hrest hword with
          ⟨opening, target, closing, rest, rfl, hkinds⟩
        exact ⟨opening, target, closing, rest ++ second, rfl, hkinds⟩

theorem applied_of_forall {tokens : List Token}
    (hplain : ∀ token ∈ tokens, isDerivative token = false) : Applied scope tokens := by
  rintro before word after rfl hword
  rw [hplain word (by simp)] at hword
  cases hword

theorem Move.applied {taken : List Token} {pending waiting : List Pending} {code : List (Op α)}
    (hmove : Move scope taken pending waiting code) : Applied scope taken := by
  have hplain : ∀ {token : Token}, token.kind ≠ .function → Applied scope [token] := fun hkind =>
    applied_of_forall (by simpa using isDerivative_of_kind hkind)
  cases hmove with
  | number hkind hop => exact hplain (by simp [hkind])
  | name hkind hop => exact hplain (by simp [hkind])
  | @derivative word opening name closing _ _ hword hopening hname hclosing hop =>
      intro before other after heq hother
      cases before with
      | nil =>
          obtain ⟨rfl, rfl⟩ := List.cons.inj heq
          exact ⟨opening, name, closing, [], rfl, hopening, hname, hclosing,
            exists_resolveDerivative_iff.mp ⟨_, hop⟩⟩
      | cons first before =>
          have hrest : Applied scope [opening, name, closing] := applied_of_forall <| by
            simp [isDerivative_of_kind, hopening, hname, hclosing]
          exact hrest before other after (List.cons.inj heq).2 hother
  | call hkind hword hf hopening =>
      exact applied_of_forall (by simp [hword, isDerivative_of_kind, hopening])
  | operator hkind hop hpopped hunary => exact hplain (by simp [hkind])
  | leftParen hkind => exact hplain (by simp [hkind])
  | closeCall hkind hpopped => exact hplain (by simp [hkind])
  | close hkind hpopped hbelow => exact hplain (by simp [hkind])
  | comma hkind hpopped => exact hplain (by simp [hkind])

theorem Move.named {taken : List Token} {pending waiting : List Pending} {code : List (Op α)}
    (hmove : Move scope taken pending waiting code) : ∀ token ∈ taken, token.kind = .identifier →
      token.text = Name.time ∨ token.text ∈ scope.vars.names ∨
        token.text ∈ scope.parameters.names := by
  cases hmove with
  | number hkind hop => simp [hkind]
  | @name token op _ hkind hop =>
      rw [List.forall_mem_singleton]
      exact fun _ => exists_resolve_iff.mp ⟨op, hop⟩
  | derivative hword hopening hname hclosing hop =>
      have htarget := exists_resolveDerivative_iff.mp ⟨_, hop⟩
      simp [kind_of_isDerivative hword, hopening, hclosing, htarget]
  | call hkind hword hf hopening => simp [hkind, hopening]
  | operator hkind hop hpopped hunary => simp [hkind]
  | leftParen hkind => simp [hkind]
  | closeCall hkind hpopped => simp [hkind]
  | close hkind hpopped hbelow => simp [hkind]
  | comma hkind hpopped => simp [hkind]

theorem applied_of_ofTokens {tokens : List Token} {program : Program α}
    (hprogram : ofTokens tokens scope = .ok program) : Applied scope tokens := by
  rcases ofTokens_cases hprogram with ⟨pending, emitter, final, hshift, -⟩
  exact shiftAll_invariant (fun before _ _ => Applied scope before)
    (applied_of_forall (List.forall_mem_nil _))
    (fun hbefore hmove _ => hbefore.append hmove.applied) hshift

/-- All names in tokens that compile have a meaning. -/
theorem known_of_ofTokens {tokens : List Token} {program : Program α}
    (hprogram : ofTokens tokens scope = .ok program) : Known scope tokens := by
  constructor
  · rcases ofTokens_cases hprogram with ⟨pending, emitter, final, hshift, -⟩
    exact shiftAll_invariant
      (fun before _ _ => ∀ token ∈ before, token.kind = .identifier →
        token.text = Name.time ∨ token.text ∈ scope.vars.names ∨
          token.text ∈ scope.parameters.names)
      (List.forall_mem_nil _)
      (fun hbefore hmove _ => List.forall_mem_append.mpr ⟨hbefore, hmove.named⟩) hshift
  · rintro name ⟨before, word, opening, target, closing, after, rfl, hword, -, -, rfl, -⟩
    rcases applied_of_ofTokens hprogram before word _ rfl hword with
      ⟨_, _, _, _, heq, -, -, -, hmem⟩
    cases heq
    exact hmem

end Program

end ImplicitDynamics
