import ImplicitDynamics.Proofs.AcceptedSystems
import ImplicitDynamics.Proofs.RefusedTokens

/-!
# What the search for names leaves to the compiler

Names are looked up twice, by the search that goes through the tokens one by one and
by the compiler, which takes a derivative as a whole.  Both agree, except on the time,
which the search passes by and which has no derivative: what the search reports does
not compile, and what it lets pass fails for no other name.
-/

namespace ImplicitDynamics

namespace Program

variable {scope : Scope} {isParameter : String → Bool} {tokens : List Token} {cause : Malformed}

/-- Of names that the search passes only the time may still be refused, where a
derivative is taken of it. -/
theorem Refused.of_passed (hrefused : Refused scope tokens cause)
    (hparameters : ∀ name, isParameter name = true ↔ name ∈ scope.parameters.names)
    (hpassed : ∀ name, ¬ Statement.Undefined scope.vars isParameter tokens name) :
    cause.IsStructural ∨ cause = .unknownSymbol "der(t)" := by
  cases hrefused with
  | shape hcause => exact .inl hcause
  | @name token htoken hkind htime hvariable hparameter =>
      obtain ⟨before, after, rfl⟩ := List.append_of_mem htoken
      rw [← hparameters, Bool.not_eq_true] at hparameter
      exact absurd ⟨before, token, after, rfl, hkind, rfl, htime, hvariable, .inl hparameter⟩
        (hpassed token.text)
  | @target name hname hvariable =>
      obtain ⟨before, word, opening, target, closing, after, rfl, hword, -, hkind, rfl, -⟩ := hname
      by_cases htime : target.text = Name.time
      · rw [htime]
        exact .inr rfl
      · have htext : word.text = Name.derivative := by
          simp only [isDerivative, Bool.and_eq_true, decide_eq_true_eq] at hword
          exact hword.2
        exact absurd ⟨before ++ [word, opening], target, closing :: after, by simp, hkind, rfl,
          htime, hvariable, .inr ⟨before, word, opening, rfl, htext⟩⟩ (hpassed target.text)

end Program

variable {α : Type} [Scalar α]

theorem Equation.compileAll_error {scope : Program.Scope} {index : Nat}
    {statements : List Statement} {cause : ParseError}
    (herror : compileAll (α := α) scope index statements = .error cause) :
    ∃ statement ∈ statements, ∃ found,
      Program.ofTokens (α := α) statement.tokens scope = .error found ∧
        cause = .expression statement.source found := by
  induction statements generalizing index with
  | nil => cases herror
  | cons statement rest ih =>
      rw [compileAll] at herror
      split at herror
      · next found hfound =>
        cases herror
        exact ⟨statement, List.mem_cons_self, found, hfound, rfl⟩
      · simp only at herror
        cases hrest : compileAll (α := α) scope (index + 1) rest with
        | error later =>
            rw [hrest] at herror
            cases herror
            obtain ⟨failing, hmem, hfailing⟩ := ih hrest
            exact ⟨failing, List.mem_cons_of_mem _ hmem, hfailing⟩
        | ok equations =>
            rw [hrest] at herror
            cases herror

namespace CompiledSystem

variable {parameters : ParameterMap α} {vars : SymbolTable} {statements : List Statement}
  {lines : List String}

/-- What the search for undefined names says about compiling statements to a result:
it lists the names that mean nothing, in order and once.  If there are any, they are
the result, and rightly so, because the right sides that mention them do not compile.
If there are none, a right side may still have a wrong shape or a derivative of the
time, and if it has not, there is a system. -/
structure SearchesNames (parameters : ParameterMap α) (vars : SymbolTable)
    (statements : List Statement) (result : Except ParseError (CompiledSystem α)) : Prop where
  sorted : (Statement.undefinedSymbols vars parameters.contains statements).Pairwise (· < ·)
  reported : ∀ name, name ∈ Statement.undefinedSymbols vars parameters.contains statements ↔
    ∃ statement ∈ statements, Statement.Undefined vars parameters.contains statement.tokens name
  failing : ∀ name ∈ Statement.undefinedSymbols vars parameters.contains statements,
    ∃ statement ∈ statements,
      Statement.Undefined vars parameters.contains statement.tokens name ∧
      ∃ cause, Program.ofTokens (α := α) statement.tokens ⟨vars, parameters.symbols⟩ = .error cause
  refused : Statement.undefinedSymbols vars parameters.contains statements ≠ [] →
    result = .error
      (.undefinedSymbols (Statement.undefinedSymbols vars parameters.contains statements))
  passed : Statement.undefinedSymbols vars parameters.contains statements = [] →
    (∃ system, result = .ok system) ∨
      ∃ statement ∈ statements, ∃ cause,
        Program.ofTokens (α := α) statement.tokens ⟨vars, parameters.symbols⟩ = .error cause ∧
          result = .error (.expression statement.source cause) ∧
          (cause.IsStructural ∨ cause = .unknownSymbol "der(t)")
  accepted : (∀ statement ∈ statements, ∃ program : Program α,
      Program.ofTokens statement.tokens ⟨vars, parameters.symbols⟩ = .ok program) →
    ∃ system, result = .ok system

theorem searchesNames_ofStatements (htokens : ∀ statement ∈ statements, statement.Tokenized) :
    SearchesNames parameters vars statements (ofStatements parameters vars statements) := by
  have hreported := @Statement.mem_undefinedSymbols_iff vars parameters.contains
  constructor
  case sorted => exact Statement.pairwise_undefinedSymbols
  case reported => exact fun name => hreported
  case failing =>
    intro name hname
    obtain ⟨statement, hstatement, hundefined⟩ := hreported.mp hname
    refine ⟨statement, hstatement, hundefined, ?_⟩
    cases hprogram : Program.ofTokens (α := α) statement.tokens ⟨vars, parameters.symbols⟩ with
    | error cause => exact ⟨cause, rfl⟩
    | ok program =>
        exact absurd hundefined
          (Statement.not_undefined_of_ofTokens (htokens statement hstatement) hprogram
            (fun name => ParameterMap.contains_iff) name)
  case refused =>
    intro hnonempty
    unfold ofStatements
    split
    · next hnone => exact absurd hnone hnonempty
    · rfl
  case passed =>
    intro hnone
    have hpassed := Statement.undefinedSymbols_eq_nil_iff.mp hnone
    simp only [ofStatements, hnone]
    cases hequations : Equation.compileAll (α := α) ⟨vars, parameters.symbols⟩ 0 statements with
    | ok equations => exact .inl ⟨_, rfl⟩
    | error found =>
        obtain ⟨statement, hstatement, cause, hcause, rfl⟩ := Equation.compileAll_error hequations
        have hrefused := Program.refused_of_ofTokens
          (lexical_of_tokenize (htokens statement hstatement)) hcause
        exact .inr ⟨statement, hstatement, cause, hcause, rfl,
          hrefused.of_passed (fun name => ParameterMap.contains_iff) (hpassed statement hstatement)⟩
  case accepted =>
    intro hprograms
    have hnone : Statement.undefinedSymbols vars parameters.contains statements = [] := by
      rw [Statement.undefinedSymbols_eq_nil_iff]
      intro statement hstatement
      obtain ⟨program, hprogram⟩ := hprograms statement hstatement
      exact Statement.not_undefined_of_ofTokens (htokens statement hstatement) hprogram
        fun name => ParameterMap.contains_iff
    obtain ⟨equations, hequations⟩ := Equation.exists_compileAll_iff.mpr hprograms
    exact ⟨_, ofStatements_eq_ok_iff.mpr ⟨hnone, equations, hequations, rfl⟩⟩

/-- For lines that can be read, and for variables that are declared as they are
defined, the search for undefined names refuses nothing that would compile, and leaves
the compiler nothing to refuse but wrong shapes and the derivative of the time. -/
theorem undefinedSymbols_exact
    (hlines : Statement.parseLines parameters.contains lines = .ok statements) :
    SearchesNames parameters (.ofList (statements.map (·.variableName))) statements
      (compile parameters lines) ∧
    ∀ declared : List String,
      (∀ name, name ∈ declared ↔ name ∈ statements.map (·.variableName)) →
      SearchesNames parameters (.ofList declared) (inOrderOf (.ofList declared) statements)
        (compileDeclared parameters lines declared) := by
  have htokens := Statement.tokenized_of_parseLines hlines
  refine ⟨?_, fun declared hdeclared => ?_⟩
  · rw [compile, hlines]
    exact searchesNames_ofStatements htokens
  · rw [compileDeclared_of_parseLines hlines hdeclared]
    exact searchesNames_ofStatements fun statement hstatement =>
      htokens statement (List.mem_mergeSort.mp hstatement)

/-- The derivative of a parameter is reported, and that of the time is left to the
compiler. -/
theorem undefinedSymbols_exact_of_derivative :
    let tokens (name : String) : List Token :=
      [⟨.function, "der", 0, false⟩, ⟨.leftParen, "(", 0, false⟩, ⟨.identifier, name, 0, false⟩,
        ⟨.rightParen, ")", 0, false⟩]
    let slope : Statement := ⟨"x = der(k)", "x", .algebraic, "der(k)", tokens "k"⟩
    let clock : Statement := ⟨"x = der(t)", "x", .algebraic, "der(t)", tokens "t"⟩
    let parameters : ParameterMap Float := .ofList [("k", 1)]
    (Statement.parseLines parameters.contains ["x = der(k)"] = .ok [slope] ∧
      SearchesNames parameters (.ofList ["x"]) [slope] (compile parameters ["x = der(k)"]) ∧
      compile parameters ["x = der(k)"] = .error (.undefinedSymbols ["k"])) ∧
    Statement.parseLines parameters.contains ["x = der(t)"] = .ok [clock] ∧
      SearchesNames parameters (.ofList ["x"]) (inOrderOf (.ofList ["x"]) [clock])
        (compileDeclared parameters ["x = der(t)"] ["x"]) ∧
      compileDeclared parameters ["x = der(t)"] ["x"] =
        .error (.expression "x = der(t)" (.unknownSymbol "der(t)")) := by
  intro tokens slope clock parameters
  have hslope : Statement.parseLines parameters.contains ["x = der(k)"] = .ok [slope] := by
    with_unfolding_all rfl
  have hclock : Statement.parseLines parameters.contains ["x = der(t)"] = .ok [clock] := by
    with_unfolding_all rfl
  refine ⟨⟨hslope, (undefinedSymbols_exact hslope).1, ?_⟩, hclock,
    (undefinedSymbols_exact hclock).2 ["x"] ?_, ?_⟩
  · with_unfolding_all rfl
  · exact fun name => Iff.rfl
  · with_unfolding_all rfl

end CompiledSystem

end ImplicitDynamics
