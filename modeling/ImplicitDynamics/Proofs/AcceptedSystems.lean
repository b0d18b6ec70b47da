import ImplicitDynamics.Proofs.EquationOrder
import ImplicitDynamics.Proofs.Resolution
import ImplicitDynamics.Proofs.Texts

/-!
# Which systems are accepted

A list of lines makes up a system if each line that says anything is one equation
for a variable of its own, and if everything on its right side has a meaning.
The compiler spreads this over checks of single lines, a list of names seen so far
and a search for names without a meaning.  Together the checks refuse nothing else
and let nothing else pass.
-/

namespace ImplicitDynamics

/-- What one line says: the variable that it defines, the kind of its equation, and
the right side. -/
structure Definition where
  name : String
  kind : EquationKind
  expression : String

/-- A left side is a name, or the word for a derivative with a name in parentheses,
which may have blanks before and behind them. -/
inductive Announces (name : List Char) : EquationKind → List Char → Prop where
  | algebraic : Announces name .algebraic name
  | differential {gap inner : List Char} (hgap : Text.Blank gap) (hinner : Text.Padded name inner) :
      Announces name .differential (Name.derivative.toList ++ (gap ++ '(' :: (inner ++ [')'])))

/-- A text with exactly one equals sign, between what announces the variable and the
right side, blanks aside. -/
def Definition.WrittenAs (definition : Definition) (text : String) : Prop :=
  ∃ left right announced, text.toList = left ++ '=' :: right ∧ '=' ∉ left ∧ '=' ∉ right ∧
    Text.Padded announced left ∧ Announces definition.name.toList definition.kind announced ∧
    Text.Padded definition.expression.toList right ∧ Text.Tight definition.expression.toList ∧
    definition.expression ≠ ""

/-- A name that an equation may define. -/
structure Definable (isParameter : String → Bool) (name : String) : Prop where
  isIdentifier : Name.isIdentifier name = true
  ne_time : name ≠ Name.time
  isFunction : Name.isFunction name = false
  isParameter : isParameter name = false

namespace Statement

variable {isParameter : String → Bool} {text : List Char} {kind : EquationKind}

theorem isReserved_eq_false_iff {name : String} :
    Name.isReserved name = false ↔ name ≠ Name.time ∧ Name.isFunction name = false := by
  simp [Name.isReserved]

theorem announces_of_leftSide? (htext : Text.Tight text) {name : List Char}
    (hside : leftSide? text = some (name, kind)) : Announces name kind text := by
  unfold leftSide? at hside
  split at hside
  · next rest hrest =>
    rw [Text.after?_eq_some_iff] at hrest
    split at hside
    · rcases Option.map_eq_some_iff.mp hside with ⟨found, hfound, heq⟩
      cases heq
      unfold parenthesized? at hfound
      split at hfound
      · next inner htrim =>
        split at hfound
        · next hlast =>
          cases hfound
          rcases Text.padded_trim rest with ⟨before, after, hbefore, hafter, hparts⟩
          -- a text without blanks at its end leaves none after the parenthesis
          have hnone : after = [] := by
            rcases List.eq_nil_or_concat after with hnil | ⟨front, last, rfl⟩
            · exact hnil
            · have hend : last ∈ text.getLast? := by
                rw [hrest, hparts]
                simp
              have hblank := hafter last (by simp)
              rw [htext.last last hend] at hblank
              cases hblank
          rw [hnone, List.append_nil, htrim] at hparts
          rw [hrest, hparts, ← List.dropLast_append_getLast? _ hlast]
          simpa using .differential hbefore (Text.padded_trim _)
        · cases hfound
      · cases hfound
    · cases hside
      exact .algebraic
  · cases hside
    exact .algebraic

theorem leftSide?_of_announces {name : String} (hname : Name.isIdentifier name = true)
    (htext : Announces name.toList kind text) : leftSide? text = some (name.toList, kind) := by
  have hpart := Name.isPart_of_isIdentifier hname
  unfold leftSide?
  cases htext with
  | algebraic =>
      split
      · next rest hrest =>
        rw [Text.after?_eq_some_iff] at hrest
        have hno : ∀ c ∈ rest, c ≠ '(' := by
          rintro c hc rfl
          have hparen := hpart '(' (by simp [hrest, hc])
          exact absurd hparen (by decide)
        rw [if_neg]
        intro hhead
        have hmem := List.mem_of_mem_head? (Option.mem_def.mpr hhead)
        exact hno '(' ((List.dropWhile_sublist _).subset hmem) rfl
      · rfl
  | @differential gap inner hgap hinner =>
      have hparen : Text.isBlank '(' = false := by decide
      have hclosing : Text.isBlank ')' = false := by decide
      have hafter : Text.after? Name.derivative.toList
          (Name.derivative.toList ++ (gap ++ '(' :: (inner ++ [')']))) =
            some (gap ++ '(' :: (inner ++ [')'])) := Text.after?_eq_some_iff.mpr rfl
      have hstart : Text.trimStart (gap ++ '(' :: (inner ++ [')'])) = '(' :: (inner ++ [')']) :=
        dropWhile_append_of_apart hgap (by simp [hparen])
      have htrim : Text.trim (gap ++ '(' :: (inner ++ [')'])) = '(' :: (inner ++ [')']) := by
        refine Text.trim_of_padded ⟨by simp [hparen], ?_⟩ ⟨gap, [], hgap, ?_, by simp⟩
        · rw [← List.cons_append, List.getLast?_concat]
          simp [hclosing]
        · exact List.forall_mem_nil _
      have hname' := Text.trim_of_padded (Name.tight_of_isIdentifier hname) hinner
      rw [hafter]
      simp only [hstart, List.head?_cons, if_true, parenthesized?, htrim]
      simp [hname']

theorem parseLeftSide_eq_ok_iff (htext : Text.Tight text) {name : String} :
    parseLeftSide text = .ok (name, kind) ↔
      Announces name.toList kind text ∧ Name.isIdentifier name = true ∧
        Name.isReserved name = false := by
  unfold parseLeftSide
  constructor
  · intro hparse
    split at hparse
    · next found foundKind hside =>
      simp only at hparse
      split at hparse
      · cases hparse
      · next hok =>
        cases hparse
        simp only [Bool.or_eq_true, Bool.not_eq_true', not_or, Bool.not_eq_false,
          Bool.not_eq_true] at hok
        exact ⟨by simpa using announces_of_leftSide? htext hside, hok⟩
    · cases hparse
  · rintro ⟨hannounces, hname, hreserved⟩
    rw [leftSide?_of_announces hname hannounces]
    simp [hname, hreserved]

theorem tight_of_announces {name : String} (hname : Name.isIdentifier name = true)
    (htext : Announces name.toList kind text) : Text.Tight text := by
  cases htext with
  | algebraic => exact Name.tight_of_isIdentifier hname
  | @differential gap inner hgap hinner =>
      have hword : Text.isBlank 'd' = false := by decide
      have hclosing : Text.isBlank ')' = false := by decide
      refine ⟨by simpa [Name.derivative] using hword, ?_⟩
      rw [← List.cons_append, ← List.append_assoc, ← List.append_assoc, List.getLast?_concat]
      simpa using hclosing

theorem ne_nil_of_announces {name : String} (hname : Name.isIdentifier name = true)
    (htext : Announces name.toList kind text) : text ≠ [] := by
  cases htext with
  | algebraic => exact Name.toList_ne_nil_of_isIdentifier hname
  | differential hgap hinner => simp

end Statement

/-- What the line of a statement says. -/
def Statement.definition (statement : Statement) : Definition :=
  ⟨statement.variableName, statement.kind, statement.expression⟩

theorem Statement.writtenAs_of_parse {isParameter : String → Bool} {text : String}
    {statement : Statement} (hparse : parse isParameter text = .ok statement) :
    statement.source = text ∧ statement.definition.WrittenAs text ∧
      Definable isParameter statement.variableName ∧ statement.Tokenized := by
  unfold parse at hparse
  split at hparse
  · next left right hpieces =>
    rcases Text.pieces_eq_pair_iff.mp hpieces with ⟨sign, htext, hsign, hleft, hright⟩
    simp only at hparse
    split at hparse
    · cases hparse
    · next hsides =>
      simp only [Bool.or_eq_true, not_or, List.isEmpty_iff] at hsides
      split at hparse
      · cases hparse
      · next name kind hside =>
        rcases (parseLeftSide_eq_ok_iff (Text.tight_trim left)).mp hside with
          ⟨hannounces, hname, hreserved⟩
        rcases isReserved_eq_false_iff.mp hreserved with ⟨htime, hfunction⟩
        split at hparse
        · cases hparse
        · next hparameter =>
          rcases map_eq_ok_iff.mp hparse with ⟨tokens, htokens, rfl⟩
          refine ⟨rfl,
            ⟨left, right, Text.trim left, ?_, ?_, ?_, Text.padded_trim left, hannounces, ?_⟩,
            ⟨hname, htime, hfunction, by simpa using hparameter⟩, htokens⟩
          · rwa [← of_decide_eq_true hsign]
          · exact fun hmem => absurd (hleft _ hmem) (by simp)
          · exact fun hmem => absurd (hright _ hmem) (by simp)
          · simp only [definition, String.toList_ofList]
            refine ⟨Text.padded_trim right, Text.tight_trim right, fun hempty => hsides.2 ?_⟩
            simpa using congrArg String.toList hempty
  · cases hparse

theorem Statement.parse_source {isParameter : String → Bool} {statement : Statement}
    (hwritten : statement.definition.WrittenAs statement.source)
    (hdefinable : Definable isParameter statement.variableName) (htokens : statement.Tokenized) :
    parse isParameter statement.source = .ok statement := by
  rcases statement with ⟨text, name, kind, expression, tokens⟩
  rcases hwritten with
    ⟨left, right, announced, htext, hleft, hright, hpadded, hannounces, hexpression, htight,
      hnonempty⟩
  have hpieces : Text.pieces (· = '=') text.toList = [left, right] := by
    refine Text.pieces_eq_pair_iff.mpr ⟨'=', htext, by simp, ?_, ?_⟩
    · rintro c hc
      exact decide_eq_false fun heq => hleft (heq ▸ hc)
    · rintro c hc
      exact decide_eq_false fun heq => hright (heq ▸ hc)
  have htrimLeft := Text.trim_of_padded
    (tight_of_announces hdefinable.isIdentifier hannounces) hpadded
  have htrimRight := Text.trim_of_padded htight hexpression
  have hreserved := isReserved_eq_false_iff.mpr ⟨hdefinable.ne_time, hdefinable.isFunction⟩
  have hside := (parseLeftSide_eq_ok_iff
    (tight_of_announces hdefinable.isIdentifier hannounces)).mpr
      ⟨hannounces, hdefinable.isIdentifier, hreserved⟩
  have hannounced := ne_nil_of_announces hdefinable.isIdentifier hannounces
  have hparameter : isParameter name = false := hdefinable.isParameter
  simp only [definition, Tokenized] at hnonempty htokens hside htrimRight
  simp only [parse, hpieces, htrimLeft, htrimRight, hside]
  simp [hannounced, hnonempty, hparameter, htokens, Except.map]

theorem Statement.parse_eq_ok_iff {isParameter : String → Bool} {text : String}
    {statement : Statement} :
    parse isParameter text = .ok statement ↔
      statement.source = text ∧ statement.definition.WrittenAs text ∧
        Definable isParameter statement.variableName ∧ statement.Tokenized := by
  constructor
  · exact writtenAs_of_parse
  · rintro ⟨rfl, hwritten, hdefinable, htokens⟩
    exact parse_source hwritten hdefinable htokens

/-- What the lines of a list say, comments, final semicolons and the blanks around
taken away, where they say anything. -/
def bodiesOf (lines : List String) : List String :=
  ((Comment.stripAll false lines).1.map Statement.body).filter fun text => !text.isEmpty

variable {α : Type} [Scalar α]

/-- A right side that can be compiled on its own, with some meaning for its names,
and that mentions only names that have one here. -/
def RightSide (parameters : ParameterMap α) (defined : List String) (expression : String) :
    Prop :=
  ∃ tokens, tokenize expression = .ok tokens ∧
    (∃ (scope : Program.Scope) (program : Program α),
      Program.ofTokens tokens scope = .ok program) ∧
    (∀ token ∈ tokens, token.kind = .identifier →
      token.text = Name.time ∨ token.text ∈ defined ∨ parameters.contains token.text = true) ∧
    ∀ name, Reference.ToDerivative tokens name → name ∈ defined

/-- Each line that says anything is one equation for a variable of its own, and
everything on the right sides has a meaning. -/
structure WellFormed (parameters : ParameterMap α) (lines : List String)
    (definitions : List Definition) : Prop where
  written : List.Forall₂ (fun text definition => definition.WrittenAs text)
    (bodiesOf lines) definitions
  nonempty : definitions ≠ []
  definable : ∀ definition ∈ definitions, Definable parameters.contains definition.name
  distinct : (definitions.map (·.name)).Nodup
  rightSide : ∀ definition ∈ definitions,
    RightSide parameters (definitions.map (·.name)) definition.expression

/-- One equation for each definition, in order, and the variables numbered alike. -/
structure CompiledSystem.Presents (system : CompiledSystem α) (definitions : List Definition) :
    Prop where
  names : system.vars.names = definitions.map (·.name)
  equations : List.Forall₂
    (fun numbered equation => equation.variableName = numbered.1.name ∧
      equation.index = numbered.2 ∧ equation.kind = numbered.1.kind ∧
      equation.expression = numbered.1.expression)
    definitions.zipIdx system.equations

/-! ## Acceptance -/

theorem ParameterMap.contains_iff {α : Type} {parameters : ParameterMap α} {name : String} :
    parameters.contains name = true ↔ name ∈ parameters.symbols.names := by
  simp [contains, symbols]

/-- A list of preimages, chosen one by one. -/
theorem exists_map_eq {β γ δ : Type} {related : β → γ → Prop} {chosen : β → δ → Prop}
    {f : δ → γ} {left : List β} {right : List γ} (hrelated : List.Forall₂ related left right)
    (hexists : ∀ a, ∀ b ∈ right, related a b → ∃ c, chosen a c ∧ f c = b) :
    ∃ preimages, List.Forall₂ chosen left preimages ∧ preimages.map f = right := by
  induction hrelated with
  | nil => exact ⟨[], .nil, rfl⟩
  | @cons a b left right hab hrest ih =>
      rcases hexists a b List.mem_cons_self hab with ⟨c, hchosen, rfl⟩
      rcases ih fun a b hb => hexists a b (List.mem_cons_of_mem _ hb) with
        ⟨preimages, hpreimages, rfl⟩
      exact ⟨c :: preimages, .cons hchosen hpreimages, rfl⟩

namespace CompiledSystem

variable {α : Type} [Scalar α] {parameters : ParameterMap α} {lines : List String}
  {statements : List Statement} {system : CompiledSystem α}

omit [Scalar α] in
theorem parseLines_eq_ok_iff_forall₂ :
    Statement.parseLines parameters.contains lines = .ok statements ↔
      List.Forall₂ (fun text statement =>
        Statement.parse parameters.contains text = .ok statement) (bodiesOf lines) statements ∧
      (statements.map (·.variableName)).Nodup ∧ statements ≠ [] := by
  rw [Statement.parseLines_eq_ok_iff, Statement.parseBodies_eq_ok_iff, bodiesOf, and_assoc,
    and_assoc]
  simp

theorem map_name_definition (statements : List Statement) :
    (statements.map Statement.definition).map (·.name) = statements.map (·.variableName) := by
  rw [List.map_map]
  rfl

theorem wellFormed_of_compile
    (hlines : Statement.parseLines parameters.contains lines = .ok statements)
    (hsystem : ofStatements parameters (.ofList (statements.map (·.variableName))) statements =
      .ok system) :
    WellFormed parameters lines (statements.map Statement.definition) := by
  rcases parseLines_eq_ok_iff_forall₂.mp hlines with ⟨hread, hnodup, hnonempty⟩
  rcases ofStatements_eq_ok_iff.mp hsystem with ⟨-, equations, hequations, -⟩
  have hparsed : ∀ statement ∈ statements, ∃ text,
      Statement.parse parameters.contains text = .ok statement := by
    intro statement hstatement
    rcases List.mem_iff_getElem?.mp hstatement with ⟨k, hk⟩
    rcases exists_getElem?_of_forall₂ hread hk with ⟨text, -, htext⟩
    exact ⟨text, htext⟩
  constructor
  case written =>
    rw [List.forall₂_map_right_iff]
    exact hread.imp fun text statement hparse => (Statement.parse_eq_ok_iff.mp hparse).2.1
  case nonempty => simpa using hnonempty
  case definable =>
    rw [List.forall_mem_map]
    intro statement hstatement
    rcases hparsed statement hstatement with ⟨text, hparse⟩
    exact (Statement.parse_eq_ok_iff.mp hparse).2.2.1
  case distinct => rwa [map_name_definition]
  case rightSide =>
    rw [map_name_definition, List.forall_mem_map]
    intro statement hstatement
    rcases hparsed statement hstatement with ⟨text, hparse⟩
    rcases Equation.exists_compileAll_iff.mp ⟨equations, hequations⟩ statement hstatement with
      ⟨program, hprogram⟩
    have hknown := Program.known_of_ofTokens hprogram
    have hnames := SymbolTable.names_ofList hnodup
    refine ⟨statement.tokens, Statement.tokenized_of_parse hparse, ⟨_, program, hprogram⟩, ?_, ?_⟩
    · intro token htoken hkind
      rw [← hnames, ParameterMap.contains_iff]
      exact hknown.name token htoken hkind
    · intro name hname
      rw [← hnames]
      exact hknown.target name hname

theorem exists_compile_of_wellFormed {definitions : List Definition}
    (hformed : WellFormed parameters lines definitions) :
    ∃ system, compile parameters lines = .ok system := by
  have hstatements : ∃ statements, List.Forall₂ (fun text statement =>
      Statement.parse parameters.contains text = .ok statement) (bodiesOf lines) statements ∧
      statements.map Statement.definition = definitions := by
    refine exists_map_eq hformed.written fun text definition hmem hwritten => ?_
    rcases hformed.rightSide definition hmem with ⟨tokens, htokens, -⟩
    refine ⟨⟨text, definition.name, definition.kind, definition.expression, tokens⟩, ?_, rfl⟩
    exact Statement.parse_eq_ok_iff.mpr
      ⟨rfl, hwritten, hformed.definable definition hmem, htokens⟩
  rcases hstatements with ⟨statements, hread, rfl⟩
  have hnodup : (statements.map (·.variableName)).Nodup := by
    rw [← map_name_definition]
    exact hformed.distinct
  have hlines := parseLines_eq_ok_iff_forall₂.mpr
    ⟨hread, hnodup, by simpa using hformed.nonempty⟩
  have hnames := SymbolTable.names_ofList hnodup
  have hcompiles : ∀ statement ∈ statements, tokenize statement.expression = .ok statement.tokens ∧
      ∃ program : Program α, Program.ofTokens statement.tokens
        ⟨.ofList (statements.map (·.variableName)), parameters.symbols⟩ = .ok program := by
    intro statement hstatement
    have htokenized := Statement.tokenized_of_parseLines hlines statement hstatement
    rcases hformed.rightSide statement.definition (List.mem_map_of_mem hstatement) with
      ⟨tokens, htokens, ⟨scope, program, hprogram⟩, hname, htarget⟩
    cases htokenized.symm.trans htokens
    refine ⟨htokenized, Program.exists_ofTokens_of_known hprogram ⟨?_, ?_⟩⟩
    · intro token htoken hkind
      rw [hnames, ← ParameterMap.contains_iff, ← map_name_definition]
      exact hname token htoken hkind
    · intro name hderivative
      rw [hnames, ← map_name_definition]
      exact htarget name hderivative
  have hknown : Statement.undefinedSymbols (.ofList (statements.map (·.variableName)))
      parameters.contains statements = [] := by
    rw [Statement.undefinedSymbols_eq_nil_iff]
    intro statement hstatement
    rcases hcompiles statement hstatement with ⟨htokens, program, hprogram⟩
    exact Statement.not_undefined_of_ofTokens htokens hprogram
      fun name => ParameterMap.contains_iff
  rcases Equation.exists_compileAll_iff.mpr fun statement hstatement =>
    (hcompiles statement hstatement).2 with ⟨equations, hequations⟩
  exact ⟨_, compile_of_statements hlines hknown hequations⟩

theorem presents_of_ofStatements (hnodup : (statements.map (·.variableName)).Nodup)
    (hsystem : ofStatements parameters (.ofList (statements.map (·.variableName))) statements =
      .ok system) : system.Presents (statements.map Statement.definition) := by
  rcases ofStatements_eq_ok_iff.mp hsystem with ⟨-, equations, hequations, rfl⟩
  constructor
  · rw [map_name_definition]
    exact SymbolTable.names_ofList hnodup
  · rw [List.zipIdx_map, List.forall₂_map_left_iff]
    refine (Equation.compileAll_eq_ok_iff.mp hequations).imp ?_
    rintro ⟨statement, index⟩ equation ⟨program, -, rfl⟩
    exact ⟨rfl, rfl, rfl, rfl⟩

/-- Lines are accepted if and only if they are well-formed, and the system has one
equation for each line that says anything. -/
theorem compile_accepts (parameters : ParameterMap α) (lines : List String) :
    ((∃ system, compile parameters lines = .ok system) ↔
      ∃ definitions, WellFormed parameters lines definitions) ∧
    ∀ system, compile parameters lines = .ok system →
      ∃ definitions, WellFormed parameters lines definitions ∧ system.Presents definitions := by
  have hok : ∀ system, compile parameters lines = .ok system →
      ∃ definitions, WellFormed parameters lines definitions ∧ system.Presents definitions := by
    intro system hsystem
    rcases compile_eq_ok_iff.mp hsystem with ⟨statements, hlines, hstatements⟩
    exact ⟨_, wellFormed_of_compile hlines hstatements,
      presents_of_ofStatements (Statement.nodup_of_parseLines hlines) hstatements⟩
  refine ⟨⟨?_, ?_⟩, hok⟩
  · rintro ⟨system, hsystem⟩
    rcases hok system hsystem with ⟨definitions, hformed, -⟩
    exact ⟨definitions, hformed⟩
  · rintro ⟨definitions, hformed⟩
    exact exists_compile_of_wellFormed hformed

/-- Two coupled equations are well-formed, and an equation for a name that depends on
another one that nothing defines is not. -/
theorem compile_accepts_coupled :
    (∃ definitions, WellFormed (.empty : ParameterMap ℝ) ["der(x) = t", "z = z - der(x)"]
      definitions ∧ coupled.Presents definitions) ∧
    ¬ ∃ definitions, WellFormed (.empty : ParameterMap ℝ) ["x = y"] definitions := by
  refine ⟨(compile_accepts .empty _).2 coupled compile_coupled, ?_⟩
  let statements : List Statement :=
    [⟨"x = y", "x", .algebraic, "y", [⟨.identifier, "y", 0, false⟩]⟩]
  have hlines : Statement.parseLines (ParameterMap.empty : ParameterMap ℝ).contains ["x = y"] =
      .ok statements := by
    with_unfolding_all rfl
  have hunknown : Statement.undefinedSymbols (.ofList ["x"])
      (ParameterMap.empty : ParameterMap ℝ).contains statements = ["y"] := by
    with_unfolding_all rfl
  rw [← (compile_accepts .empty _).1]
  rintro ⟨system, hsystem⟩
  rcases compile_eq_ok_iff.mp hsystem with ⟨read, hread, hstatements⟩
  cases hlines.symm.trans hread
  have hnone := (ofStatements_eq_ok_iff.mp hstatements).1
  exact absurd (hunknown.symm.trans hnone) (by simp)

end CompiledSystem

end ImplicitDynamics
