import ImplicitDynamics.Proofs.Resolution
import ImplicitDynamics.Proofs.Scanning
import Mathlib.Data.String.Basic

/-!
# The search for names without a meaning

Before anything is compiled, the tokens of all right sides are searched for names
that mean nothing.  The search does not know what an expression is: it takes every
name two places behind the word for a derivative as the target of one.  What it
reports is settled place by place, and in tokens that compile there is none such.
-/

namespace ImplicitDynamics

namespace Statement

variable {vars : SymbolTable} {isParameter : String → Bool} {tokens : List Token} {name : String}

/-- A name among tokens that means nothing: it is neither the time nor a variable, and
it is no parameter either, or it stands two places behind the word for a derivative. -/
def Undefined (vars : SymbolTable) (isParameter : String → Bool) (tokens : List Token)
    (name : String) : Prop :=
  ∃ before token after, tokens = before ++ token :: after ∧ token.kind = .identifier ∧
    token.text = name ∧ name ≠ Name.time ∧ name ∉ vars.names ∧
    (isParameter name = false ∨
      ∃ front word opening, before = front ++ [word, opening] ∧ word.text = Name.derivative)

theorem exists_getElem?_reverse_one_iff {P : Token → Prop} {before : List Token} :
    (∃ word ∈ before.reverse[1]?, P word) ↔
      ∃ front word opening, before = front ++ [word, opening] ∧ P word := by
  constructor
  · rintro ⟨word, hword, hP⟩
    match hreverse : before.reverse, hword with
    | opening :: second :: earlier, hword =>
        cases hword
        exact ⟨earlier.reverse, word, opening, by simpa using congrArg List.reverse hreverse, hP⟩
  · rintro ⟨front, word, opening, rfl, hP⟩
    exact ⟨word, by simp, hP⟩

/-- A place among tokens is the first or one among the others. -/
theorem exists_place_cons_iff {P : List Token → Token → List Token → Prop} {first : Token} :
    (∃ before token after, first :: tokens = before ++ token :: after ∧ P before token after) ↔
      P [] first tokens ∨
        ∃ before token after, tokens = before ++ token :: after ∧
          P (first :: before) token after := by
  constructor
  · rintro ⟨before, token, after, hsplit, hplace⟩
    rcases List.cons_eq_append_iff.mp hsplit with ⟨rfl, hfirst⟩ | ⟨rest, rfl, rfl⟩
    · cases hfirst
      exact .inl hplace
    · exact .inr ⟨rest, token, after, rfl, hplace⟩
  · rintro (hplace | ⟨before, token, after, rfl, hplace⟩)
    · exact ⟨[], first, tokens, rfl, hplace⟩
    · exact ⟨first :: before, token, after, rfl, hplace⟩

/-- One token is reported by what it is and by the second of those before it. -/
theorem mem_undefinedAmong_cons_iff {token : Token} {previous : List Token} :
    name ∈ undefinedAmong vars isParameter previous (token :: tokens) ↔
      (token.kind = .identifier ∧ token.text = name ∧ name ≠ Name.time ∧ name ∉ vars.names ∧
        (isParameter name = false ∨ ∃ word ∈ previous[1]?, word.text = Name.derivative)) ∨
      name ∈ undefinedAmong vars isParameter (token :: previous) tokens := by
  have htarget : (previous[1]?.map fun earlier => decide (earlier.text = Name.derivative)) =
      some true ↔ ∃ word ∈ previous[1]?, word.text = Name.derivative := by
    simp
  have hvariable : vars.contains token.text = false ↔ token.text ∉ vars.names := by
    rw [← SymbolTable.contains_eq_true_iff, Bool.not_eq_true]
  rw [undefinedAmong, ← htarget]
  split
  · next hunknown =>
    simp only [Bool.and_eq_true, decide_eq_true_eq, ne_eq, Bool.not_eq_true',
      Bool.or_eq_false_iff, Bool.and_eq_false_iff, bne_eq_false_iff_eq, hvariable] at hunknown
    obtain ⟨⟨hkind, htime⟩, hvars, hparameter⟩ := hunknown
    rw [List.mem_cons]
    refine or_congr_left ⟨?_, fun h => h.2.1.symm⟩
    rintro rfl
    exact ⟨hkind, rfl, htime, hvars, hparameter.symm⟩
  · next hknown =>
    refine (or_iff_right fun hunknown => hknown ?_).symm
    obtain ⟨hkind, rfl, htime, hvars, hparameter⟩ := hunknown
    simp only [Bool.and_eq_true, decide_eq_true_eq, ne_eq, Bool.not_eq_true',
      Bool.or_eq_false_iff, Bool.and_eq_false_iff, bne_eq_false_iff_eq, hvariable]
    exact ⟨⟨hkind, htime⟩, hvars, hparameter.symm⟩

theorem mem_undefinedAmong_iff {previous : List Token} :
    name ∈ undefinedAmong vars isParameter previous tokens ↔
      ∃ before token after, tokens = before ++ token :: after ∧ token.kind = .identifier ∧
        token.text = name ∧ name ≠ Name.time ∧ name ∉ vars.names ∧
        (isParameter name = false ∨
          ∃ word ∈ (before.reverse ++ previous)[1]?, word.text = Name.derivative) := by
  induction tokens generalizing previous with
  | nil => simp [undefinedAmong]
  | cons token rest ih =>
      rw [mem_undefinedAmong_cons_iff, exists_place_cons_iff, ih]
      simp only [List.reverse_cons, List.append_assoc, List.singleton_append, List.reverse_nil,
        List.nil_append]

theorem mem_undefinedAmong_nil_iff :
    name ∈ undefinedAmong vars isParameter [] tokens ↔ Undefined vars isParameter tokens name := by
  simp only [mem_undefinedAmong_iff, List.append_nil, exists_getElem?_reverse_one_iff, Undefined]

theorem nodup_eraseDups (names : List String) : names.eraseDups.Nodup := by
  induction hlength : names.length using Nat.strongRecOn generalizing names with
  | ind length ih =>
      cases names with
      | nil => exact List.nodup_nil
      | cons name rest =>
          rw [List.eraseDups_cons, List.nodup_cons]
          refine ⟨by simp, ih _ ?_ _ rfl⟩
          have hshorter := List.length_filter_le (fun other => !other == name) rest
          rw [List.length_cons] at hlength
          omega

variable {statements : List Statement}

theorem mem_undefinedSymbols_iff :
    name ∈ undefinedSymbols vars isParameter statements ↔
      ∃ statement ∈ statements, Undefined vars isParameter statement.tokens name := by
  simp only [undefinedSymbols, List.mem_mergeSort, List.mem_eraseDups, List.mem_flatMap,
    mem_undefinedAmong_nil_iff]

theorem pairwise_undefinedSymbols :
    (undefinedSymbols vars isParameter statements).Pairwise (· < ·) := by
  unfold undefinedSymbols
  generalize (statements.flatMap _) = names
  have hsorted : (names.eraseDups.mergeSort fun a b => decide (a ≤ b)).Pairwise (· ≤ ·) := by
    refine (List.pairwise_mergeSort ?_ ?_ names.eraseDups).imp of_decide_eq_true
    · intro a b c hab hbc
      exact decide_eq_true ((of_decide_eq_true hab).trans (of_decide_eq_true hbc))
    · intro a b
      simpa using le_total a b
  have hnodup : (names.eraseDups.mergeSort fun a b => decide (a ≤ b)).Nodup :=
    (List.mergeSort_perm _ _).nodup_iff.mpr (nodup_eraseDups names)
  exact hsorted.imp₂ (fun a b hle hne => lt_of_le_of_ne hle hne) hnodup

theorem undefinedSymbols_eq_nil_iff :
    undefinedSymbols vars isParameter statements = [] ↔
      ∀ statement ∈ statements, ∀ name,
        ¬ Undefined vars isParameter statement.tokens name := by
  rw [List.eq_nil_iff_forall_not_mem]
  simp only [mem_undefinedSymbols_iff, not_exists, not_and]
  exact ⟨fun h statement hstatement name => h name statement hstatement,
    fun h name statement hstatement => h statement hstatement name⟩

/-- Whether all names have a meaning does not depend on the order of anything. -/
theorem undefinedSymbols_perm {other : SymbolTable} {moved : List Statement}
    (hnames : vars.names.Perm other.names) (hperm : statements.Perm moved)
    (hknown : undefinedSymbols vars isParameter statements = []) :
    undefinedSymbols other isParameter moved = [] := by
  rw [undefinedSymbols_eq_nil_iff] at hknown ⊢
  intro statement hstatement name hundefined
  refine hknown statement (hperm.mem_iff.mpr hstatement) name ?_
  simpa only [Undefined, hnames.mem_iff] using hundefined

end Statement

theorem Token.isDerivative_ofWord {word : List Char}
    (htext : (ofWord word).text = Name.derivative) : Program.isDerivative (ofWord word) = true := by
  unfold ofWord at htext ⊢
  split
  · next hfunction =>
    rw [if_pos hfunction] at htext
    simp only [plain] at htext
    simp [Program.isDerivative, plain, htext]
  · next hfunction =>
    rw [if_neg hfunction] at htext
    simp only [plain] at htext
    rw [htext] at hfunction
    exact absurd (by decide) hfunction

theorem Lexeme.isDerivative_of_text (operandDue : Bool) (lexeme : Lexeme) :
    ∀ token ∈ lexeme.tokens operandDue, token.text = Name.derivative →
      Program.isDerivative token = true := by
  cases lexeme with
  | number n =>
      rw [tokens, List.forall_mem_singleton]
      intro htext
      have hlist : n.text = Name.derivative.toList := by
        simpa [Token.plain] using congrArg String.toList htext
      have hmem : 'd' ∈ n.text := by
        rw [hlist]
        decide
      rcases n.isDigit_or_point hmem with hdigit | hpoint
      · exact absurd hdigit (by decide)
      · exact absurd hpoint (by decide)
  | word w =>
      rw [tokens, List.forall_mem_singleton]
      exact Token.isDerivative_ofWord
  | operator op => cases op <;> cases operandDue <;> decide
  | leftParen | rightParen | comma =>
      rw [tokens, List.forall_mem_singleton]
      decide

theorem isDerivative_of_tokenize {text : String} {tokens : List Token}
    (htokens : tokenize text = .ok tokens) :
    ∀ token ∈ tokens, token.text = Name.derivative → Program.isDerivative token = true := by
  obtain ⟨lexemes, -, rfl⟩ := exists_lexemes_of_tokenize htokens
  exact Lexeme.forall_mem_tokensOf Lexeme.isDerivative_of_text true lexemes

/-- In tokens that compile no name is without a meaning. -/
theorem Statement.not_undefined_of_ofTokens {α : Type} [Scalar α] {scope : Program.Scope}
    {isParameter : String → Bool} {expression : String} {tokens : List Token} {program : Program α}
    (htokens : tokenize expression = .ok tokens)
    (hprogram : Program.ofTokens tokens scope = .ok program)
    (hparameters : ∀ name, isParameter name = true ↔ name ∈ scope.parameters.names)
    (name : String) : ¬ Undefined scope.vars isParameter tokens name := by
  rintro ⟨before, token, after, rfl, hkind, rfl, htime, hvariable, hmeaning⟩
  rcases hmeaning with hparameter | ⟨front, word, opening, rfl, htext⟩
  · have hknown := (Program.known_of_ofTokens hprogram).name token (by simp) hkind
    rw [← hparameters, hparameter] at hknown
    exact absurd hknown (by simp [htime, hvariable])
  · -- the word stands two tokens before this one, so this is what it applies to
    have hder := isDerivative_of_tokenize htokens word (by simp) htext
    rcases Program.applied_of_ofTokens hprogram front word (opening :: token :: after)
      (by simp) hder with ⟨_, _, _, _, heq, -, -, -, htarget⟩
    cases heq
    exact hvariable htarget

end ImplicitDynamics
