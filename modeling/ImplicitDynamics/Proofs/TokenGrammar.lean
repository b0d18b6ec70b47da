import ImplicitDynamics.Expression.Program

/-!
# Tokens of an expression

Tokens make up an expression if operands and operators between them take turns.
Where they do not, an operand is missing or one is surplus, and both can be
counted in one pass that remembers whether an operand is due.

Tokens that are well nested and have neither a missing nor a surplus operand
make up an expression.  Signs are two tokens of which the first looks like a
number; that it is followed by its second half, and the second half by nothing
else than an operand, is a matter of how tokens are read.
-/

namespace ImplicitDynamics

/-- What opens a group: a parenthesis, or the name of a function and one. -/
inductive OpensGroup : List Token → Prop where
  | paren {opening : Token} (hopening : opening.kind = .leftParen) : OpensGroup [opening]
  | call {word opening : Token} (hkind : word.kind = .function)
      (hword : Program.isDerivative word = false) (hopening : opening.kind = .leftParen) :
      OpensGroup [word, opening]

theorem Program.kind_of_isDerivative {token : Token} (htoken : isDerivative token = true) :
    token.kind = .function := by
  simp only [isDerivative, Bool.and_eq_true, decide_eq_true_eq] at htoken
  exact htoken.1

theorem OpensGroup.exists_concat {head : List Token} (hhead : OpensGroup head) :
    ∃ front opening, head = front ++ [opening] ∧ opening.kind = .leftParen := by
  cases hhead with
  | paren hopening => exact ⟨[], _, rfl, hopening⟩
  | call hkind hword hopening => exact ⟨[_], _, rfl, hopening⟩

inductive ExpressionPart where
  | primary
  | operand
  | expression

/-- The tokens of an expression and of its parts: operands that may have signs,
and operators between them. -/
inductive Grammatical : ExpressionPart → List Token → Prop where
  | number {token : Token} (hkind : token.kind = .number) : Grammatical .primary [token]
  | name {token : Token} (hkind : token.kind = .identifier) : Grammatical .primary [token]
  | derivative {word opening name closing : Token} (hword : Program.isDerivative word = true)
      (hopening : opening.kind = .leftParen) (hname : name.kind = .identifier)
      (hclosing : closing.kind = .rightParen) : Grammatical .primary [word, opening, name, closing]
  | group {head inner : List Token} {closing : Token} (hhead : OpensGroup head)
      (hinner : Grammatical .expression inner) (hclosing : closing.kind = .rightParen) :
      Grammatical .primary (head ++ (inner ++ [closing]))
  | unsigned {tokens : List Token} (htokens : Grammatical .primary tokens) :
      Grammatical .operand tokens
  | signed {tokens : List Token} (htokens : Grammatical .operand tokens) :
      Grammatical .operand (Token.negation ++ tokens)
  | single {tokens : List Token} (htokens : Grammatical .operand tokens) :
      Grammatical .expression tokens
  | binary {before after : List Token} {op : Token} (hbefore : Grammatical .expression before)
      (hkind : op.kind = .operator) (hbinary : op.unary = false)
      (hafter : Grammatical .operand after) : Grammatical .expression (before ++ op :: after)

/-- Tokens in any order, as long as parentheses match, functions stand before
parentheses, and the word for a derivative before a name in parentheses.  Commas
stand inside parentheses only. -/
inductive WellNested : Bool → List Token → Prop where
  | nil {inside : Bool} : WellNested inside []
  | operand {inside : Bool} {tokens : List Token} {token : Token}
      (htokens : WellNested inside tokens)
      (hkind : token.kind = .number ∨ token.kind = .identifier) :
      WellNested inside (tokens ++ [token])
  | operator {inside : Bool} {tokens : List Token} {token : Token}
      (htokens : WellNested inside tokens) (hkind : token.kind = .operator) :
      WellNested inside (tokens ++ [token])
  | comma {tokens : List Token} {token : Token} (htokens : WellNested true tokens)
      (hkind : token.kind = .comma) : WellNested true (tokens ++ [token])
  | derivative {inside : Bool} {tokens : List Token} {word opening name closing : Token}
      (htokens : WellNested inside tokens) (hword : Program.isDerivative word = true)
      (hopening : opening.kind = .leftParen) (hname : name.kind = .identifier)
      (hclosing : closing.kind = .rightParen) :
      WellNested inside (tokens ++ [word, opening, name, closing])
  | group {inside : Bool} {tokens head inner : List Token} {closing : Token}
      (htokens : WellNested inside tokens) (hhead : OpensGroup head)
      (hinner : WellNested true inner) (hclosing : closing.kind = .rightParen) :
      WellNested inside (tokens ++ (head ++ (inner ++ [closing])))

/-! ## Missing and surplus operands -/

namespace Token

def beginsOperand (token : Token) : Bool :=
  match token.kind with
  | .number | .identifier | .function | .leftParen => true
  | .operator | .rightParen | .comma => false

/-- An operand is due after the token. -/
def leavesDue (token : Token) : Bool :=
  match token.kind with
  | .number | .identifier | .rightParen => false
  | .operator | .function | .leftParen | .comma => true

end Token

/-- Whether an operand is due, and how many have been missing and surplus. -/
structure Gaps where
  due : Bool
  missing : Nat
  surplus : Nat
  deriving DecidableEq

namespace Gaps

def start : Gaps := ⟨true, 0, 0⟩

/-- An operand is missing if it is due and something else comes.  It is surplus
if it begins where none is due.  A comma asks for one operand more than the
parentheses around it can hold. -/
def read (gaps : Gaps) (token : Token) : Gaps where
  due := token.leavesDue
  missing := gaps.missing + if gaps.due && !token.beginsOperand then 1 else 0
  surplus :=
    gaps.surplus + (if !gaps.due && token.beginsOperand then 1 else 0)
      + if token.kind = .comma then 1 else 0

def after (tokens : List Token) : Gaps :=
  tokens.foldl read start

end Gaps

/-- The places where an operand is missing; one of them may be the end. -/
def missingOperands (tokens : List Token) : Nat :=
  (Gaps.after tokens).missing + if (Gaps.after tokens).due then 1 else 0

def surplusOperands (tokens : List Token) : Nat :=
  (Gaps.after tokens).surplus

namespace Gaps

structure Clean (gaps : Gaps) : Prop where
  missing : gaps.missing = 0
  surplus : gaps.surplus = 0

variable {gaps : Gaps} {token : Token}

theorem Clean.eq_of_due (hclean : gaps.Clean) {due : Bool} (hdue : gaps.due = due) :
    gaps = ⟨due, 0, 0⟩ := by
  obtain ⟨hmissing, hsurplus⟩ := hclean
  cases gaps
  simp_all

theorem after_concat (tokens : List Token) (token : Token) :
    after (tokens ++ [token]) = (after tokens).read token := by
  simp [after]

theorem clean_read_iff : (gaps.read token).Clean ↔
    gaps.Clean ∧ gaps.due = token.beginsOperand ∧ token.kind ≠ .comma := by
  constructor
  · rintro ⟨hmissing, hsurplus⟩
    simp only [read, Nat.add_eq_zero_iff] at hmissing hsurplus
    refine ⟨⟨hmissing.1, hsurplus.1.1⟩, ?_, by simpa using hsurplus.2⟩
    cases hdue : gaps.due <;> cases hbegins : token.beginsOperand <;>
      simp_all
  · rintro ⟨⟨hmissing, hsurplus⟩, hdue, hcomma⟩
    constructor <;> simp [read, hmissing, hsurplus, hdue, hcomma]

theorem Clean.of_foldl {tokens : List Token} (hclean : (tokens.foldl read gaps).Clean) :
    gaps.Clean := by
  induction tokens generalizing gaps with
  | nil => exact hclean
  | cons token tokens ih => exact (clean_read_iff.mp (ih hclean)).1

/-- What opens a group begins an operand, and inside the group the count starts
afresh. -/
theorem clean_foldl_head {head : List Token} (hhead : OpensGroup head)
    (hclean : (head.foldl read gaps).Clean) :
    gaps.Clean ∧ gaps.due = true ∧ head.foldl read gaps = start := by
  have hdue : (head.foldl read gaps).due = true := by
    cases hhead with
    | paren hopening => simp [read, Token.leavesDue, hopening]
    | call hkind hword hopening => simp [read, Token.leavesDue, hopening]
  refine ⟨hclean.of_foldl, ?_, hclean.eq_of_due hdue⟩
  cases hhead with
  | paren hopening =>
      simpa [Token.beginsOperand, hopening] using (clean_read_iff.mp hclean).2.1
  | call hkind hword hopening =>
      have hfirst := (clean_read_iff.mp hclean).1
      simpa [Token.beginsOperand, hkind] using (clean_read_iff.mp hfirst).2.1

theorem due_after_concat (tokens : List Token) (token : Token) :
    (after (tokens ++ [token])).due = token.leavesDue := by
  rw [after_concat]
  rfl

/-- A group without gaps stands where an operand is due and holds an expression
without gaps. -/
theorem clean_group {tokens head inner : List Token} {closing : Token}
    (hhead : OpensGroup head) (hclosing : closing.kind = .rightParen)
    (hclean : (after (tokens ++ (head ++ (inner ++ [closing])))).Clean) :
    ((after tokens).Clean ∧ (after tokens).due = true) ∧
      (after inner).Clean ∧ (after inner).due = false := by
  have hsplit : after (tokens ++ (head ++ (inner ++ [closing]))) =
      (inner.foldl read (head.foldl read (after tokens))).read closing := by
    simp [after]
  rw [hsplit] at hclean
  obtain ⟨hinner, hdue, -⟩ := clean_read_iff.mp hclean
  obtain ⟨htokens, hbegins, hfresh⟩ := clean_foldl_head hhead hinner.of_foldl
  rw [hfresh] at hinner hdue
  exact ⟨⟨htokens, hbegins⟩, hinner, hdue.trans (by simp [Token.beginsOperand, hclosing])⟩

theorem foldl_head {head : List Token} (hhead : OpensGroup head) :
    head.foldl read start = start := by
  cases hhead with
  | paren hopening => simp [read, start, Token.leavesDue, Token.beginsOperand, hopening]
  | call hkind hword hopening =>
      simp [read, start, Token.leavesDue, Token.beginsOperand, hkind, hopening]

end Gaps

/-- In an expression no operand is missing and none is surplus. -/
theorem Grammatical.foldl_read {part : ExpressionPart} {tokens : List Token}
    (hgrammatical : Grammatical part tokens) :
    tokens.foldl Gaps.read Gaps.start = ⟨false, 0, 0⟩ := by
  induction hgrammatical with
  | number hkind =>
      simp [Gaps.read, Gaps.start, Token.leavesDue, Token.beginsOperand, hkind]
  | name hkind =>
      simp [Gaps.read, Gaps.start, Token.leavesDue, Token.beginsOperand, hkind]
  | derivative hword hopening hname hclosing =>
      simp [Gaps.read, Gaps.start, Token.leavesDue, Token.beginsOperand,
        Program.kind_of_isDerivative hword, hopening, hname, hclosing]
  | group hhead hinner hclosing ih =>
      rw [List.foldl_append, Gaps.foldl_head hhead, List.foldl_append, ih]
      simp [Gaps.read, Token.leavesDue, Token.beginsOperand, hclosing]
  | unsigned htokens ih => exact ih
  | signed htokens ih =>
      rw [List.foldl_append]
      exact ih
  | single htokens ih => exact ih
  | @binary before after op hbefore hkind hbinary hafter ihBefore ihAfter =>
      have hop : Gaps.read ⟨false, 0, 0⟩ op = Gaps.start := by
        simp [Gaps.read, Gaps.start, Token.leavesDue, Token.beginsOperand, hkind]
      rw [List.foldl_append, List.foldl_cons, ihBefore, hop, ihAfter]

/-- A unary operator is the second half of a sign. -/
def SignsPaired (tokens : List Token) : Prop :=
  ∀ before token after, tokens = before ++ token :: after → token.unary = true →
    ∃ earlier, before ++ [token] = earlier ++ Token.negation

namespace SignsPaired

variable {tokens front : List Token} {token : Token}

theorem nil : SignsPaired [] := by
  intro before token after htokens
  cases before <;> cases htokens

theorem cons (htokens : SignsPaired tokens) (hbinary : token.unary = false) :
    SignsPaired (token :: tokens) := by
  intro before other after heq hunary
  cases before with
  | nil =>
      cases heq
      rw [hbinary] at hunary
      cases hunary
  | cons first before =>
      cases heq
      obtain ⟨earlier, hearlier⟩ := htokens before other after rfl hunary
      exact ⟨token :: earlier, congrArg (token :: ·) hearlier⟩

theorem negation (htokens : SignsPaired tokens) : SignsPaired (Token.negation ++ tokens) := by
  intro before other after heq hunary
  rcases before with _ | ⟨first, _ | ⟨second, before⟩⟩
  · cases heq
    cases hunary
  · cases heq
    exact ⟨[], rfl⟩
  · cases heq
    obtain ⟨earlier, hearlier⟩ := htokens before other after rfl hunary
    exact ⟨Token.negation ++ earlier, congrArg (Token.negation ++ ·) hearlier⟩

theorem left {back : List Token} (hpaired : SignsPaired (tokens ++ back)) :
    SignsPaired tokens := by
  intro before other after heq hunary
  exact hpaired before other (after ++ back) (by simp [heq]) hunary

/-- What stands after something other than a number is paired by itself. -/
theorem right (hpaired : SignsPaired (front ++ tokens))
    (hfront : ∀ last ∈ front.getLast?, last.kind ≠ .number) : SignsPaired tokens := by
  intro before other after heq hunary
  obtain ⟨earlier, hearlier⟩ :=
    hpaired (front ++ before) other after (by simp [heq]) hunary
  obtain ⟨htail, hother⟩ : front ++ before = earlier ++ [⟨.number, "-1", 0, false⟩] ∧
      other = { Token.operator .mul with unary := true } := by
    have hsplit : (front ++ before) ++ [other] =
        (earlier ++ [⟨.number, "-1", 0, false⟩]) ++
          [{ Token.operator .mul with unary := true }] := by
      simpa [Token.negation] using hearlier
    exact ⟨(List.append_inj' hsplit rfl).1, by simpa using (List.append_inj' hsplit rfl).2⟩
  rcases List.eq_nil_or_concat before with rfl | ⟨rest, last, rfl⟩
  · rw [List.append_nil] at htail
    exact absurd rfl (hfront ⟨.number, "-1", 0, false⟩ (by simp [htail]))
  · rw [List.concat_eq_append, ← List.append_assoc] at htail
    obtain ⟨-, hlast⟩ := List.append_inj' htail rfl
    refine ⟨rest, ?_⟩
    rw [List.concat_eq_append, hlast, hother, List.append_assoc]
    rfl

theorem group {head inner : List Token} {closing : Token}
    (hpaired : SignsPaired (tokens ++ (head ++ (inner ++ [closing])))) (hhead : OpensGroup head) :
    SignsPaired inner := by
  obtain ⟨front, opening, rfl, hopening⟩ := hhead.exists_concat
  have hinner : SignsPaired (tokens ++ front ++ [opening] ++ inner) := by
    have hclosed : SignsPaired ((tokens ++ front ++ [opening] ++ inner) ++ [closing]) := by
      simpa using hpaired
    exact hclosed.left
  refine hinner.right ?_
  simp [hopening]

end SignsPaired

/-! ## Without gaps, well nested tokens make up an expression -/

/-- Any operand may follow. -/
def OpenEnded (tokens : List Token) : Prop :=
  ∀ operand, Grammatical .operand operand → Grammatical .expression (tokens ++ operand)

/-- Tokens that an operand may follow, or whose last operand is known. -/
structure Stands (tokens : List Token) : Prop where
  openEnded : (Gaps.after tokens).due = true → OpenEnded tokens
  exists_last : (Gaps.after tokens).due = false →
    ∃ before last, tokens = before ++ last ∧ OpenEnded before ∧ Grammatical .primary last

theorem Stands.expression {tokens : List Token} (hstands : Stands tokens)
    (hdue : (Gaps.after tokens).due = false) : Grammatical .expression tokens := by
  obtain ⟨before, last, rfl, hbefore, hlast⟩ := hstands.exists_last hdue
  exact hbefore last (.unsigned hlast)

theorem OpenEnded.stands {tokens last : List Token} (htokens : OpenEnded tokens)
    (hlast : Grammatical .primary last) (hdue : (Gaps.after (tokens ++ last)).due = false) :
    Stands (tokens ++ last) where
  openEnded h := by
    rw [hdue] at h
    cases h
  exists_last _ := ⟨tokens, last, rfl, htokens, hlast⟩

/-- Only a number that stands alone ends in a number. -/
theorem Grammatical.eq_singleton_of_number {before last earlier : List Token} {token : Token}
    (hlast : Grammatical .primary last) (hkind : token.kind = .number)
    (heq : before ++ last = earlier ++ [token]) : last = [token] := by
  cases hlast with
  | number hnumber => exact (List.append_inj' heq rfl).2
  | name hname => exact (List.append_inj' heq rfl).2
  | @derivative word opening name closing hword hopening hname hclosing =>
      have hend : (before ++ [word, opening, name]) ++ [closing] = earlier ++ [token] := by
        simpa using heq
      cases (List.append_inj' hend rfl).2
      rw [hkind] at hclosing
      cases hclosing
  | @group head inner closing hhead hinner hclosing =>
      have hend : (before ++ (head ++ inner)) ++ [closing] = earlier ++ [token] := by
        simpa using heq
      cases (List.append_inj' hend rfl).2
      rw [hkind] at hclosing
      cases hclosing

theorem Stands.concat_operator {tokens : List Token} {token : Token}
    (hstands : Stands tokens) (hdue : (Gaps.after tokens).due = false)
    (hkind : token.kind = .operator) (hpaired : SignsPaired (tokens ++ [token])) :
    OpenEnded (tokens ++ [token]) := by
  intro operand hoperand
  by_cases hunary : token.unary = true
  · -- the sign is the last operand so far, and the operator its second half
    obtain ⟨before, last, rfl, hbefore, hlast⟩ := hstands.exists_last hdue
    obtain ⟨earlier, hearlier⟩ := hpaired (before ++ last) token [] rfl hunary
    obtain ⟨hsign, htoken⟩ : before ++ last = earlier ++ [⟨.number, "-1", 0, false⟩] ∧
        [token] = [{ Token.operator .mul with unary := true }] :=
      List.append_inj' (by simpa [Token.negation] using hearlier) rfl
    obtain rfl := hlast.eq_singleton_of_number rfl hsign
    rw [htoken]
    simpa [Token.negation] using hbefore _ (.signed hoperand)
  · rw [List.append_assoc]
    exact .binary (hstands.expression hdue) hkind (by simpa using hunary) hoperand

theorem WellNested.stands {inside : Bool} {tokens : List Token}
    (hnested : WellNested inside tokens) (hpaired : SignsPaired tokens)
    (hclean : (Gaps.after tokens).Clean) : Stands tokens := by
  induction hnested with
  | nil =>
      refine ⟨fun _ operand hoperand => .single hoperand, fun hdue => ?_⟩
      cases hdue
  | @operand inside tokens token htokens hkind ih =>
      rw [Gaps.after_concat] at hclean
      obtain ⟨hbefore, hdue, -⟩ := Gaps.clean_read_iff.mp hclean
      have hopen : OpenEnded tokens := by
        refine (ih hpaired.left hbefore).openEnded (hdue.trans ?_)
        rcases hkind with hkind | hkind <;> simp [Token.beginsOperand, hkind]
      refine hopen.stands (hkind.elim .number .name) ?_
      rw [Gaps.due_after_concat]
      rcases hkind with hkind | hkind <;> simp [Token.leavesDue, hkind]
  | @operator inside tokens token htokens hkind ih =>
      have hleaves : (Gaps.after (tokens ++ [token])).due = true := by
        rw [Gaps.due_after_concat]
        simp [Token.leavesDue, hkind]
      rw [Gaps.after_concat] at hclean
      obtain ⟨hbefore, hdue, -⟩ := Gaps.clean_read_iff.mp hclean
      refine ⟨fun _ => (ih hpaired.left hbefore).concat_operator (hdue.trans ?_) hkind hpaired,
        fun hnot => ?_⟩
      · simp [Token.beginsOperand, hkind]
      · rw [hleaves] at hnot
        cases hnot
  | @comma tokens token htokens hkind ih =>
      rw [Gaps.after_concat] at hclean
      exact absurd hkind (Gaps.clean_read_iff.mp hclean).2.2
  | @derivative inside tokens word opening name closing htokens hword hopening hname hclosing ih =>
      have hafter : Gaps.after (tokens ++ [word, opening, name, closing]) =
          ((((Gaps.after tokens).read word).read opening).read name).read closing := by
        simp [Gaps.after]
      have hopen : OpenEnded tokens := by
        rw [hafter] at hclean
        have hname' := (Gaps.clean_read_iff.mp hclean).1
        have hopening' := (Gaps.clean_read_iff.mp hname').1
        obtain ⟨hbefore, hdue, -⟩ :=
          Gaps.clean_read_iff.mp (Gaps.clean_read_iff.mp hopening').1
        refine (ih hpaired.left hbefore).openEnded (hdue.trans ?_)
        simp [Token.beginsOperand, Program.kind_of_isDerivative hword]
      refine hopen.stands (.derivative hword hopening hname hclosing) ?_
      rw [hafter]
      simp [Gaps.read, Token.leavesDue, hclosing]
  | @group inside tokens head inner closing htokens hhead hinner hclosing ih ihInner =>
      obtain ⟨⟨hbefore, hdue⟩, hinnerClean, hinnerDue⟩ :=
        Gaps.clean_group hhead hclosing hclean
      have hexpression := (ihInner (hpaired.group hhead) hinnerClean).expression hinnerDue
      refine OpenEnded.stands ((ih hpaired.left hbefore).openEnded hdue)
        (.group hhead hexpression hclosing) ?_
      rw [← List.append_assoc, ← List.append_assoc, Gaps.due_after_concat]
      simp [Token.leavesDue, hclosing]

/-- Well nested tokens without a gap are an expression. -/
theorem WellNested.grammatical {inside : Bool} {tokens : List Token}
    (hnested : WellNested inside tokens) (hpaired : SignsPaired tokens)
    (hmissing : missingOperands tokens = 0) (hsurplus : surplusOperands tokens = 0) :
    Grammatical .expression tokens := by
  obtain ⟨hnone, hdue⟩ := Nat.add_eq_zero_iff.mp hmissing
  exact (hnested.stands hpaired ⟨hnone, hsurplus⟩).expression (by simpa using hdue)

end ImplicitDynamics
