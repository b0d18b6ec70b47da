import ImplicitDynamics.Proofs.Scanning
import ImplicitDynamics.Proofs.StackSafety
import ImplicitDynamics.Proofs.TokenGrammar

/-!
# Which tokens are accepted

The shifting loop never looks at which tokens are neighbours.  It sees to two
things: that parentheses match, which is a matter of what waits, and that the
operators take away all operands but one.  Hence tokens that become a program
are well nested, and as many operands are missing among them as are surplus.

So tokens that are no expression become a program only if both kinds of error
occur and make up for each other.  This does happen: an operator may stand
right of both its operands.
-/

namespace ImplicitDynamics

variable {α : Type}

/-- Tokens that are shifted, seen from what waits: every parenthesis that waits
has opened a group, and the tokens in it are well nested so far. -/
inductive Enclosed : List Pending → List Token → Prop where
  | outermost {tokens : List Token} (htokens : WellNested false tokens) : Enclosed [] tokens
  | waiting {op : Binop} {precedence : Nat} {pending : List Pending} {tokens : List Token}
      (htokens : Enclosed pending tokens) :
      Enclosed (.operator op precedence :: pending) tokens
  | paren {pending : List Pending} {outer inner : List Token} {opening : Token}
      (houter : Enclosed pending outer) (hopening : opening.kind = .leftParen)
      (hinner : WellNested true inner) :
      Enclosed (.leftParen :: pending) (outer ++ opening :: inner)
  | call {f : Elementary} {pending : List Pending} {outer inner : List Token}
      {word opening : Token} (houter : Enclosed pending outer) (hkind : word.kind = .function)
      (hword : Program.isDerivative word = false) (hopening : opening.kind = .leftParen)
      (hinner : WellNested true inner) :
      Enclosed (.leftParen :: .function f :: pending) (outer ++ word :: opening :: inner)

namespace Enclosed

variable {pending popped waiting : List Pending} {tokens taken : List Token}

theorem append (htokens : Enclosed pending tokens) {more : List Token}
    (hmore : ∀ {inside tokens}, WellNested inside tokens → WellNested inside (tokens ++ more)) :
    Enclosed pending (tokens ++ more) := by
  induction htokens with
  | outermost htokens => exact .outermost (hmore htokens)
  | waiting htokens ih => exact .waiting ih
  | paren houter hopening hinner =>
      rw [List.append_assoc]
      exact .paren houter hopening (hmore hinner)
  | call houter hkind hword hopening hinner =>
      rw [List.append_assoc]
      exact .call houter hkind hword hopening (hmore hinner)

theorem of_operators (htokens : Enclosed (popped ++ pending) tokens)
    (hpopped : ∀ top ∈ popped, top.isOperator = true) : Enclosed pending tokens := by
  induction popped with
  | nil => exact htokens
  | cons top popped ih =>
      cases top with
      | operator op precedence =>
          cases htokens with
          | waiting htokens => exact ih htokens fun other hother => hpopped other (by simp [hother])
      | function f => exact absurd (hpopped (.function f) (by simp)) (by simp [Pending.isOperator])
      | leftParen => exact absurd (hpopped .leftParen (by simp)) (by simp [Pending.isOperator])

/-- A function waits directly below the parenthesis after it, so what waits above
the last open parenthesis are operators. -/
theorem isOperator_of_not_mem (htokens : Enclosed (popped ++ pending) tokens)
    (hpopped : Pending.leftParen ∉ popped) : ∀ top ∈ popped, top.isOperator = true := by
  induction popped with
  | nil => simp
  | cons top popped ih =>
      rw [List.mem_cons, not_or] at hpopped
      cases top with
      | operator op precedence =>
          cases htokens with
          | waiting htokens => simpa [Pending.isOperator] using ih htokens hpopped.2
      | function f => cases htokens
      | leftParen => exact absurd rfl hpopped.1

theorem above (htokens : Enclosed (popped ++ pending) tokens)
    (hpopped : Pending.leftParen ∉ popped) : Enclosed pending tokens :=
  htokens.of_operators (htokens.isOperator_of_not_mem hpopped)

theorem move [Scalar α] {scope : Program.Scope} {code : List (Op α)}
    (htokens : Enclosed pending tokens) (hmove : Program.Move scope taken pending waiting code) :
    Enclosed waiting (tokens ++ taken) := by
  cases hmove with
  | number hkind hop => exact htokens.append fun h => h.operand (.inl hkind)
  | name hkind hop => exact htokens.append fun h => h.operand (.inr hkind)
  | derivative hword hopening hname hclosing hop =>
      exact htokens.append fun h => h.derivative hword hopening hname hclosing
  | call hkind hword hf hopening => exact .call htokens hkind hword hopening .nil
  | operator hkind hop hpopped hunary =>
      exact .waiting ((htokens.of_operators hpopped).append fun h => h.operator hkind)
  | leftParen hkind => exact .paren htokens hkind .nil
  | closeCall hkind hpopped =>
      cases htokens.above hpopped with
      | paren houter hopening hinner => cases houter
      | call houter hword hplain hopening hinner =>
          rw [List.append_assoc]
          exact houter.append fun h => h.group (.call hword hplain hopening) hinner hkind
  | close hkind hpopped hbelow =>
      cases htokens.above hpopped with
      | paren houter hopening hinner =>
          rw [List.append_assoc]
          exact houter.append fun h => h.group (.paren hopening) hinner hkind
      | call houter hword hplain hopening hinner => exact absurd rfl (hbelow _ _)
  | comma hkind hpopped =>
      cases htokens.above hpopped with
      | paren houter hopening hinner =>
          rw [List.append_assoc]
          exact .paren houter hopening (hinner.comma hkind)
      | call houter hword hplain hopening hinner =>
          rw [List.append_assoc]
          exact .call houter hword hplain hopening (hinner.comma hkind)

end Enclosed

theorem Program.wellNested_of_ofTokens [Scalar α] {scope : Scope} {tokens : List Token}
    {program : Program α} (hprogram : ofTokens tokens scope = .ok program) :
    WellNested false tokens := by
  obtain ⟨pending, emitter, final, hshift, hpending, -, -, -⟩ := ofTokens_cases hprogram
  have henclosed : Enclosed pending tokens :=
    shiftAll_invariant (fun tokens pending _ => Enclosed pending tokens) (.outermost .nil)
      (fun htokens hmove _ => htokens.move hmove) hshift
  rw [← List.append_nil pending] at henclosed
  cases henclosed.above hpending with
  | outermost htokens => exact htokens

/-! ## Operands and operators balance -/

theorem Program.arity_of_constant [Scalar α] {text : String} {op : Op α}
    (hop : constant text = .ok op) : op.arity = 0 := by
  obtain ⟨value, -, rfl⟩ := constant_eq_ok hop
  rfl

theorem Program.arity_of_resolve {scope : Scope} {name : String} {op : Op α}
    (hop : resolve scope name = .ok op) : op.arity = 0 := by
  obtain rfl | ⟨i, -, rfl⟩ | ⟨i, -, rfl⟩ := resolve_eq_ok hop <;> rfl

theorem Program.arity_of_resolveDerivative {scope : Scope} {name : String} {op : Op α}
    (hop : resolveDerivative scope name = .ok op) : op.arity = 0 := by
  obtain ⟨i, -, rfl⟩ := resolveDerivative_eq_ok hop
  rfl

namespace Emitter

variable {emitter next : Emitter α}

theorem depth_of_load {op : Op α} (harity : op.arity = 0)
    (hcode : emitter.emitAll [op] = .ok next) : next.depth = emitter.depth + 1 := by
  obtain ⟨middle, hemit, hnil⟩ := emitAll_cons_eq_ok_iff.mp hcode
  cases hnil
  rw [(emit_eq_ok_iff.mp hemit).2, harity]
  rfl

theorem depth_of_call {f : Elementary} (hcode : emitter.emitAll [.call f] = .ok next) :
    next.depth = emitter.depth := by
  obtain ⟨middle, hemit, hnil⟩ := emitAll_cons_eq_ok_iff.mp hcode
  cases hnil
  obtain ⟨harity, rfl⟩ := emit_eq_ok_iff.mp hemit
  simp only [Op.arity] at harity ⊢
  omega

/-- Operators that have waited take away one operand each, functions none. -/
theorem depth_of_code {popped : List Pending}
    (hcode : emitter.emitAll (Pending.code popped) = .ok next) :
    next.depth + popped.countP Pending.isOperator = emitter.depth := by
  induction popped generalizing emitter with
  | nil =>
      cases hcode
      rfl
  | cons top popped ih =>
      cases top with
      | operator op precedence =>
          obtain ⟨middle, hemit, hrest⟩ := emitAll_cons_eq_ok_iff.mp hcode
          obtain ⟨harity, rfl⟩ := emit_eq_ok_iff.mp hemit
          have hdepth := ih hrest
          rw [List.countP_cons_of_pos rfl]
          simp only [Op.arity] at harity hdepth
          omega
      | function f =>
          obtain ⟨middle, hemit, hrest⟩ := emitAll_cons_eq_ok_iff.mp hcode
          obtain ⟨harity, rfl⟩ := emit_eq_ok_iff.mp hemit
          have hdepth := ih hrest
          rw [List.countP_cons_of_neg (by simp [Pending.isOperator])]
          simp only [Op.arity] at harity hdepth
          omega
      | leftParen =>
          rw [List.countP_cons_of_neg (by simp [Pending.isOperator])]
          exact ih hcode

end Emitter

/-- How many operands more there are after the token. -/
def Token.gain (token : Token) : Int :=
  match token.kind with
  | .number | .identifier => 1
  | .operator => -1
  | .function | .leftParen | .rightParen | .comma => 0

namespace Gaps

/-- The operands of an expression with these gaps that no operator takes away. -/
def height (gaps : Gaps) : Int :=
  gaps.surplus - gaps.missing + if gaps.due then 0 else 1

theorem height_read (gaps : Gaps) (token : Token) :
    (gaps.read token).height = gaps.height + token.gain := by
  obtain ⟨due, missing, surplus⟩ := gaps
  cases hkind : token.kind <;> cases due <;>
    simp [height, read, Token.leavesDue, Token.beginsOperand, Token.gain, hkind] <;> omega

theorem height_foldl (gaps : Gaps) (tokens : List Token) :
    (tokens.foldl read gaps).height =
      tokens.foldl (fun height token => height + token.gain) gaps.height := by
  induction tokens generalizing gaps with
  | nil => rfl
  | cons token tokens ih => rw [List.foldl_cons, List.foldl_cons, ih, height_read]

theorem height_after_append (tokens taken : List Token) :
    (after (tokens ++ taken)).height =
      taken.foldl (fun height token => height + token.gain) (after tokens).height := by
  rw [after, List.foldl_append, height_foldl, after]

end Gaps

/-- What is on the stack is what the tokens leave there, and one operand more for
each operator that waits. -/
def Balanced (tokens : List Token) (pending : List Pending) (emitter : Emitter α) : Prop :=
  (emitter.depth : Int) = (Gaps.after tokens).height + pending.countP Pending.isOperator

theorem Balanced.empty : Balanced [] [] (Emitter.empty : Emitter α) := by
  simp [Balanced, Gaps.height, Gaps.after, Gaps.start, Emitter.empty]

theorem Balanced.move [Scalar α] {scope : Program.Scope} {tokens taken : List Token}
    {pending waiting : List Pending} {code : List (Op α)} {emitter next : Emitter α}
    (hbalanced : Balanced tokens pending emitter)
    (hmove : Program.Move scope taken pending waiting code)
    (hcode : emitter.emitAll code = .ok next) : Balanced (tokens ++ taken) waiting next := by
  unfold Balanced at hbalanced ⊢
  rw [Gaps.height_after_append]
  cases hmove with
  | number hkind hop =>
      have hdepth := Emitter.depth_of_load (Program.arity_of_constant hop) hcode
      simp only [List.foldl_cons, List.foldl_nil, Token.gain, hkind]
      omega
  | name hkind hop =>
      have hdepth := Emitter.depth_of_load (Program.arity_of_resolve hop) hcode
      simp only [List.foldl_cons, List.foldl_nil, Token.gain, hkind]
      omega
  | derivative hword hopening hname hclosing hop =>
      have hdepth := Emitter.depth_of_load (Program.arity_of_resolveDerivative hop) hcode
      simp only [List.foldl_cons, List.foldl_nil, Token.gain,
        Program.kind_of_isDerivative hword, hopening, hname, hclosing]
      omega
  | call hkind hword hf hopening =>
      cases hcode
      simpa [Token.gain, hkind, hopening, Pending.isOperator] using hbalanced
  | operator hkind hop hpopped hunary =>
      have hdepth := Emitter.depth_of_code hcode
      rw [List.countP_cons_of_pos rfl]
      simp only [List.foldl_cons, List.foldl_nil, Token.gain, hkind]
      rw [List.countP_append] at hbalanced
      omega
  | leftParen hkind =>
      cases hcode
      simpa [Token.gain, hkind, Pending.isOperator] using hbalanced
  | closeCall hkind hpopped =>
      obtain ⟨middle, hmiddle, hlast⟩ := Emitter.emitAll_append_eq_ok_iff.mp hcode
      have hpopped := Emitter.depth_of_code hmiddle
      have hcall := Emitter.depth_of_call hlast
      simp [Token.gain, hkind, Pending.isOperator] at hbalanced ⊢
      omega
  | close hkind hpopped hbelow =>
      have hdepth := Emitter.depth_of_code hcode
      simp [Token.gain, hkind, Pending.isOperator] at hbalanced ⊢
      omega
  | comma hkind hpopped =>
      have hdepth := Emitter.depth_of_code hcode
      simp [Token.gain, hkind, Pending.isOperator] at hbalanced ⊢
      omega

theorem Program.missing_eq_surplus_of_ofTokens [Scalar α] {scope : Scope}
    {tokens : List Token} {program : Program α} (hprogram : ofTokens tokens scope = .ok program) :
    missingOperands tokens = surplusOperands tokens := by
  obtain ⟨pending, emitter, final, hshift, -, hcode, hone, -⟩ := ofTokens_cases hprogram
  have hbalanced : Balanced tokens pending emitter :=
    shiftAll_invariant Balanced .empty Balanced.move hshift
  have hdepth := Emitter.depth_of_code hcode
  have hheight : (Gaps.after tokens).height = 1 := by
    unfold Balanced at hbalanced
    omega
  unfold Gaps.height at hheight
  unfold missingOperands surplusOperands
  by_cases hdue : (Gaps.after tokens).due = true
  · rw [if_pos hdue] at hheight ⊢
    omega
  · rw [if_neg hdue] at hheight ⊢
    omega

theorem signsPaired_tokensOf (operandDue : Bool) (lexemes : List Lexeme) :
    SignsPaired (Lexeme.tokensOf operandDue lexemes) := by
  induction lexemes generalizing operandDue with
  | nil => exact .nil
  | cons lexeme rest ih =>
      rw [Lexeme.tokensOf_cons]
      rcases Lexeme.tokens_cases operandDue lexeme with
        ⟨-, htokens⟩ | ⟨token, htokens, hbinary, -, -⟩
      · rw [htokens]
        exact (ih _).negation
      · rw [htokens]
        exact (ih _).cons hbinary

theorem signsPaired_of_tokenize {text : String} {tokens : List Token}
    (htokens : tokenize text = .ok tokens) : SignsPaired tokens := by
  obtain ⟨lexemes, -, rfl⟩ := exists_lexemes_of_tokenize htokens
  exact signsPaired_tokensOf true lexemes

/-! ## What is refused -/

/-- Tokens that are no expression are refused, unless as many operands are
missing among them as are surplus. -/
theorem Program.ofTokens_error_of_not_grammatical [Scalar α] {text : String}
    {tokens : List Token} (htokens : tokenize text = .ok tokens)
    (hnot : ¬ Grammatical .expression tokens)
    (hgaps : ¬ (WellNested false tokens ∧ 0 < missingOperands tokens ∧
      missingOperands tokens = surplusOperands tokens))
    (scope : Scope) : ∃ cause, ofTokens (α := α) tokens scope = .error cause := by
  cases hprogram : ofTokens (α := α) tokens scope with
  | error cause => exact ⟨cause, rfl⟩
  | ok program =>
      have hnested := wellNested_of_ofTokens hprogram
      have hbalance := missing_eq_surplus_of_ofTokens hprogram
      have hpaired := signsPaired_of_tokenize htokens
      rcases Nat.eq_zero_or_pos (missingOperands tokens) with hnone | hsome
      · exact absurd (hnested.grammatical hpaired hnone (hbalance.symm.trans hnone)) hnot
      · exact absurd ⟨hnested, hsome, hbalance⟩ hgaps

/-- The comma asks for an operand more than the call takes. -/
theorem Program.ofTokens_error_of_comma :
    let tokens : List Token :=
      [⟨.function, "sin", 0, false⟩, ⟨.leftParen, "(", 0, false⟩, ⟨.identifier, "x", 0, false⟩,
        ⟨.comma, ",", 0, false⟩, ⟨.identifier, "y", 0, false⟩, ⟨.rightParen, ")", 0, false⟩,
        ⟨.operator, "+", 2, false⟩, ⟨.identifier, "k", 0, false⟩]
    let scope : Scope := ⟨.ofList ["x", "y"], .ofList ["k"]⟩
    tokenize "sin(x, y) + k" = .ok tokens ∧ ¬ Grammatical .expression tokens ∧
      ¬ (WellNested false tokens ∧ 0 < missingOperands tokens ∧
        missingOperands tokens = surplusOperands tokens) ∧
      ∃ cause, ofTokens (α := Float) tokens scope = .error cause := by
  intro tokens scope
  have htokens : tokenize "sin(x, y) + k" = .ok tokens := by with_unfolding_all rfl
  have hnot : ¬ Grammatical .expression tokens := fun h => absurd h.foldl_read (by decide)
  have hgaps : ¬ (WellNested false tokens ∧ 0 < missingOperands tokens ∧
      missingOperands tokens = surplusOperands tokens) := fun h => absurd h.2.1 (by decide)
  exact ⟨htokens, hnot, hgaps, ofTokens_error_of_not_grammatical htokens hnot hgaps scope⟩

/-- An operator right of both its operands misses one and leaves one over, and
nothing refuses it. -/
theorem Program.ofTokens_operator_last :
    let tokens : List Token :=
      [⟨.identifier, "x", 0, false⟩, ⟨.identifier, "y", 0, false⟩, ⟨.operator, "+", 2, false⟩]
    let scope : Scope := ⟨.ofList ["x", "y"], .ofList []⟩
    tokenize "x y +" = .ok tokens ∧ ¬ Grammatical .expression tokens ∧
      ofTokens (α := Float) tokens scope =
        .ok ⟨[.variable 0, .variable 1, .binary .add], 2⟩ := by
  intro tokens scope
  have htokens : tokenize "x y +" = .ok tokens := by with_unfolding_all rfl
  have hprogram : ofTokens (α := Float) tokens scope =
      .ok ⟨[.variable 0, .variable 1, .binary .add], 2⟩ := by with_unfolding_all rfl
  exact ⟨htokens, fun h => absurd h.foldl_read (by decide), hprogram⟩

end ImplicitDynamics
