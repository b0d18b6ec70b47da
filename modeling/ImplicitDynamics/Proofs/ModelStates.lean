import ImplicitDynamics.Proofs.EquationOrder
import ImplicitDynamics.Proofs.KeyedLists
import ImplicitDynamics.Proofs.ParameterDeclarations
import ImplicitDynamics.Proofs.UndefinedNames

/-!
# Models and their initial states

Whatever a line adds to a draft, it adds in single steps, each checked against the names
that are there.  What every step keeps therefore holds of every draft and of every model
that is read.  The state of such a model has a place for each variable in the order of
their declarations, which is the order of the variables of the compiled system.
-/

namespace ImplicitDynamics

namespace Model

variable {α : Type} [Scalar α] {model next : Model α} {draft final : Draft α}

/-- What can be added to a model at once. -/
inductive Adds : Model α → Model α → Prop where
  | name (model : Model α) (name : String) : Adds model { model with name := some name }
  | var {model : Model α} {name : String} (hname : Nameable name) (hvars : name ∉ model.vars)
      (hparameters : name ∉ model.parameters.map Prod.fst) :
      Adds model { model with vars := model.vars ++ [name] }
  | parameter {model : Model α} {name : String} (hname : Nameable name)
      (hvars : name ∉ model.vars) (hparameters : name ∉ model.parameters.map Prod.fst)
      (value : α) : Adds model { model with parameters := model.parameters ++ [(name, value)] }
  | initialValue {model : Model α} {name : String}
      (hnew : name ∉ model.initialValues.map Prod.fst) (value : α) :
      Adds model { model with initialValues := model.initialValues ++ [(name, value)] }
  | equation (model : Model α) (text : String) :
      Adds model { model with equations := model.equations ++ [text] }

abbrev Extends (model next : Model α) : Prop :=
  Relation.ReflTransGen Adds model next

theorem nameable_of_checkName {name : String} (hname : checkName name = .ok ()) :
    Nameable name := by
  unfold checkName at hname
  split at hname
  · cases hname
  · next hchecked =>
    simp only [Bool.or_eq_true, Bool.not_eq_true', not_or, Bool.not_eq_false, Bool.not_eq_true,
      List.contains_eq_mem, decide_eq_true_eq] at hchecked
    exact ⟨hchecked.1.1, hchecked.1.2, hchecked.2⟩

omit [Scalar α] in
theorem extends_of_declareVariables {names : List String}
    (hdeclare : declareVariables model names = .ok next) : Extends model next := by
  fun_induction declareVariables model names with
  | case1 model =>
      cases hdeclare
      exact .refl
  | case2 model name rest cause hname => cases hdeclare
  | case3 model name rest hname hparameter => cases hdeclare
  | case4 model name rest hname hparameter hvar => cases hdeclare
  | case5 model name rest hname hparameter hvar ih =>
      rw [List.contains_iff_mem] at hparameter hvar
      exact .head (.var (nameable_of_checkName hname) hvar hparameter) (ih hdeclare)

theorem extends_of_declareParameter {line : Nat} {text : String} {rest : List Char}
    (hdeclare : declareParameter model line text rest = .ok next) : Extends model next := by
  unfold declareParameter at hdeclare
  simp only at hdeclare
  split at hdeclare
  · cases hdeclare
  · next name value hassigned =>
    split at hdeclare
    · cases hdeclare
    · next hname =>
      split at hdeclare
      · cases hdeclare
      · next hvar =>
        split at hdeclare
        · cases hdeclare
        · next hparameter =>
          cases hdeclare
          rw [List.contains_iff_mem] at hparameter hvar
          exact .single (.parameter (nameable_of_checkName hname) hvar hparameter value)
  · cases hdeclare

omit [Scalar α] in
theorem extends_of_addInitialValues {entries : List (String × α)}
    (hadd : addInitialValues model entries = .ok next) : Extends model next := by
  fun_induction addInitialValues model entries with
  | case1 model =>
      cases hadd
      exact .refl
  | case2 model name value rest hknown => cases hadd
  | case3 model name value rest hnew ih =>
      rw [List.contains_iff_mem] at hnew
      exact .head (.initialValue hnew value) (ih hadd)

theorem extends_of_readPlain {line : Nat} {text : String}
    (hread : readPlain draft line text = .ok final) : Extends draft.model final.model := by
  unfold readPlain at hread
  split at hread
  · cases hread
  · split at hread
    · cases hread
    · obtain ⟨model, hadd, rfl⟩ := map_eq_ok_iff.mp hread
      exact extends_of_addInitialValues hadd
  · cases hread
    exact .single (.equation _ text)

/-- A line adds to the draft before it, if it can be read. -/
theorem extends_of_readLine {line : Nat} {text : String}
    (hread : readLine draft line text = .ok final) : Extends draft.model final.model := by
  unfold readLine at hread
  simp only at hread
  split at hread
  · cases hread
    exact .single (.name _ _)
  · split at hread
    · cases hread
      exact .refl
    · split at hread
      · cases hread
        exact .refl
      · split at hread
        · cases hread
          exact .refl
        · split at hread
          · obtain ⟨model, hdeclare, rfl⟩ := map_eq_ok_iff.mp hread
            exact extends_of_declareVariables hdeclare
          · split at hread
            · obtain ⟨model, hdeclare, rfl⟩ := map_eq_ok_iff.mp hread
              exact extends_of_declareParameter hdeclare
            · exact extends_of_readPlain hread

theorem extends_of_readLines {number : Nat} {bodies : List String}
    (hread : readLines draft number bodies = .ok final) : Extends draft.model final.model := by
  fun_induction readLines draft number bodies with
  | case1 draft number =>
      cases hread
      exact .refl
  | case2 draft number text rest hempty ih => exact ih hread
  | case3 draft number text rest hempty cause hline => cases hread
  | case4 draft number text rest hempty next hline ih =>
      exact (extends_of_readLine hline).trans (ih hread)

/-- Names that are declared once, for one purpose, and given one initial value. -/
structure Coherent (model : Model α) : Prop where
  nodup_vars : model.vars.Nodup
  nodup_parameters : (model.parameters.map Prod.fst).Nodup
  disjoint : model.vars.Disjoint (model.parameters.map Prod.fst)
  nodup_initialValues : (model.initialValues.map Prod.fst).Nodup

omit [Scalar α] in
theorem coherent_empty : (empty : Model α).Coherent :=
  ⟨List.nodup_nil, List.nodup_nil, List.disjoint_nil_left _, List.nodup_nil⟩

omit [Scalar α] in
theorem Adds.coherent (hadds : Adds model next) (hmodel : model.Coherent) : next.Coherent := by
  cases hadds with
  | name name => exact { hmodel with }
  | @var name hname hvars hparameters =>
      refine { hmodel with nodup_vars := ?_, disjoint := ?_ }
      · exact List.concat_eq_append ▸ hmodel.nodup_vars.concat hvars
      · rw [List.disjoint_append_left, List.singleton_disjoint]
        exact ⟨hmodel.disjoint, hparameters⟩
  | @parameter name hname hvars hparameters value =>
      refine { hmodel with nodup_parameters := ?_, disjoint := ?_ }
      · rw [List.map_append, List.map_singleton]
        exact List.concat_eq_append ▸ hmodel.nodup_parameters.concat hparameters
      · rw [List.map_append, List.map_singleton, List.disjoint_append_right,
          List.disjoint_singleton]
        exact ⟨hmodel.disjoint, hvars⟩
  | @initialValue name hnew value =>
      refine { hmodel with nodup_initialValues := ?_ }
      rw [List.map_append, List.map_singleton]
      exact List.concat_eq_append ▸ hmodel.nodup_initialValues.concat hnew
  | equation text => exact { hmodel with }

omit [Scalar α] in
theorem Coherent.of_extends (hmodel : model.Coherent) (hextends : Extends model next) :
    next.Coherent := by
  induction hextends with
  | refl => exact hmodel
  | tail hbefore hlast ih => exact hlast.coherent ih

theorem coherent_of_parse {text : String} (hparse : parse text = .ok model) :
    model.Coherent ∧ ∀ entry ∈ model.initialValues, entry.1 ∈ model.vars := by
  obtain ⟨draft, hdraft, rfl, hdeclared⟩ := parse_eq_ok_iff.mp hparse
  exact ⟨coherent_empty.of_extends (extends_of_readLines hdraft), hdeclared⟩

omit [Scalar α] in
/-- Writing to the place of a name changes the value of this name. -/
theorem set_map_names {vars : SymbolTable} {name : String} {index : Nat}
    (hindex : vars.indexOf? name = some index) (start : String → α) (value : α) :
    (vars.names.map start).set index value =
      vars.names.map (Function.update start name value) := by
  have hname : vars.names[index]? = some name := SymbolTable.indexOf?_eq_some_iff.mp hindex
  apply List.ext_getElem?
  intro i
  rw [List.getElem?_set, List.getElem?_map, List.getElem?_map, List.length_map]
  by_cases hi : index = i
  · subst hi
    rw [if_pos rfl, if_pos (List.getElem?_eq_some_iff.mp hname).1, hname, Option.map_some,
      Function.update_self]
  · rw [if_neg hi]
    cases hother : vars.names[i]? with
    | none => rfl
    | some other =>
        have hne : other ≠ name := by
          rintro rfl
          exact hi ((List.getElem?_inj (List.getElem?_eq_some_iff.mp hname).1 vars.nodup).mp
            (hname.trans hother.symm))
        rw [Option.map_some, Option.map_some, Function.update_of_ne hne]

omit [Scalar α] in
/-- Initial values of declared variables can be given, and each comes to its place. -/
theorem setInitial_eq {vars : SymbolTable} {entries : List (String × α)}
    (hdeclared : ∀ entry ∈ entries, entry.1 ∈ vars.names)
    (hnodup : (entries.map Prod.fst).Nodup) (start : String → α) :
    setInitial vars entries (vars.names.map start) =
      .ok (vars.names.map fun name => (entries.lookup name).getD (start name)) := by
  induction entries generalizing start with
  | nil => rfl
  | cons entry rest ih =>
      obtain ⟨name, value⟩ := entry
      rw [List.forall_mem_cons] at hdeclared
      rw [List.map_cons, List.nodup_cons] at hnodup
      have hindex := SymbolTable.indexOf?_of_mem hdeclared.1
      simp only [setInitial, hindex]
      rw [set_map_names hindex, ih hdeclared.2 hnodup.2]
      congr 1
      apply List.map_congr_left
      intro other hother
      rw [List.lookup_cons]
      by_cases heq : other = name
      · subst heq
        rw [lookup_of_not_mem hnodup.1, Option.getD_none, Function.update_self, beq_self_eq_true]
        rfl
      · have hne : (other == name) = false := by simpa using heq
        rw [hne, Function.update_of_ne heq]

end Model

/-! ## What the compiler does not report -/

theorem tokenize_ne_unknownVariable (text name : String) :
    tokenize text ≠ .error (.unknownVariable name) := by
  intro herror
  unfold tokenize at herror
  split at herror <;> cases herror

namespace Statement

variable {isParameter : String → Bool}

theorem parseLeftSide_ne_unknownVariable (text : List Char) (name : String) :
    parseLeftSide text ≠ .error (.unknownVariable name) := by
  intro herror
  unfold parseLeftSide at herror
  split at herror
  · simp only at herror
    split at herror <;> cases herror
  · cases herror

theorem parse_ne_unknownVariable (text name : String) :
    parse isParameter text ≠ .error (.unknownVariable name) := by
  intro herror
  unfold parse at herror
  split at herror
  · simp only at herror
    split at herror
    · cases herror
    · split at herror
      · next hleft =>
        cases herror
        exact parseLeftSide_ne_unknownVariable _ _ hleft
      · split at herror
        · cases herror
        · exact tokenize_ne_unknownVariable _ _ (map_eq_error_iff.mp herror)
  · cases herror

theorem parseBodies_ne_unknownVariable (seen bodies : List String) (name : String) :
    parseBodies isParameter seen bodies ≠ .error (.unknownVariable name) := by
  intro herror
  fun_induction parseBodies isParameter seen bodies with
  | case1 seen => cases herror
  | case2 seen text rest hempty ih => exact ih herror
  | case3 seen text rest hempty cause hparse =>
      cases herror
      exact parse_ne_unknownVariable _ _ hparse
  | case4 seen text rest hempty statement hparse hseen => cases herror
  | case5 seen text rest hempty statement hparse hseen ih => exact ih (map_eq_error_iff.mp herror)

theorem parseLines_ne_unknownVariable (lines : List String) (name : String) :
    parseLines isParameter lines ≠ .error (.unknownVariable name) := by
  intro herror
  unfold parseLines at herror
  split at herror
  · next hbodies =>
    cases herror
    exact parseBodies_ne_unknownVariable _ _ _ hbodies
  · cases herror
  · cases herror

end Statement

namespace CompiledSystem

variable {α : Type} [Scalar α] {parameters : ParameterMap α}

theorem ofStatements_ne_unknownVariable (vars : SymbolTable) (statements : List Statement)
    (name : String) : ofStatements parameters vars statements ≠ .error (.unknownVariable name) := by
  intro herror
  unfold ofStatements at herror
  split at herror
  · obtain ⟨statement, -, cause, -, hcause⟩ :=
      Equation.compileAll_error (map_eq_error_iff.mp herror)
    cases hcause
  · cases herror

theorem compileDeclared_ne_unknownVariable (lines declared : List String) (name : String) :
    compileDeclared parameters lines declared ≠ .error (.unknownVariable name) := by
  intro herror
  unfold compileDeclared at herror
  split at herror
  · next hlines =>
    cases herror
    exact Statement.parseLines_ne_unknownVariable _ _ hlines
  · simp only at herror
    split at herror
    · split at herror
      · exact ofStatements_ne_unknownVariable _ _ _ herror
      · cases herror
    · cases herror

theorem exists_compileDeclared {lines declared : List String} {statements : List Statement}
    (hlines : Statement.parseLines parameters.contains lines = .ok statements)
    (hnames : ∀ name, name ∈ declared ↔ name ∈ statements.map (·.variableName))
    (hprograms : ∀ statement ∈ statements, ∃ program : Program α,
      Program.ofTokens statement.tokens ⟨.ofList declared, parameters.symbols⟩ = .ok program) :
    ∃ system, compileDeclared parameters lines declared = .ok system := by
  have htokens := Statement.tokenized_of_parseLines hlines
  have hmem : ∀ statement ∈ inOrderOf (.ofList declared) statements, statement ∈ statements :=
    fun statement => List.mem_mergeSort.mp
  rw [compileDeclared_of_parseLines hlines hnames]
  refine (searchesNames_ofStatements fun statement hstatement => ?_).accepted
    fun statement hstatement => ?_
  · exact htokens statement (hmem statement hstatement)
  · exact hprograms statement (hmem statement hstatement)

end CompiledSystem

namespace Model

variable {α : Type} [Scalar α] {model : Model α}

/-- The value of each variable that has an initial one, and zero for the others. -/
def initialState (model : Model α) : List α :=
  model.vars.map fun name => (model.initialValues.lookup name).getD 0

/-- Once the equations compile, the initial values can be given. -/
theorem compile_eq (hmodel : model.Coherent)
    (hdeclared : ∀ entry ∈ model.initialValues, entry.1 ∈ model.vars) :
    model.compile =
      (CompiledSystem.compileDeclared (ParameterMap.ofList model.parameters) model.equations
        model.vars).map fun system => (system, model.initialState) := by
  unfold compile
  cases hsystem : CompiledSystem.compileDeclared (ParameterMap.ofList model.parameters)
      model.equations model.vars with
  | error cause => rfl
  | ok system =>
      have hnames := (CompiledSystem.numbered_of_compileDeclared hmodel.nodup_vars hsystem).1
      have hset := setInitial_eq (hnames ▸ hdeclared) hmodel.nodup_initialValues fun _ => (0 : α)
      rw [List.map_const', hnames] at hset
      simp only [hset, initialState]
      rfl

/-- A model that is read has distinct names, each for one purpose, and initial values for
variables only.  Its compiled system has the declared variables in their order, and its
initial state has a place for each, with the value given for it or zero. -/
theorem compile_of_parse {text : String} (hparse : parse text = .ok model) :
    model.Coherent ∧ (∀ entry ∈ model.initialValues, entry.1 ∈ model.vars) ∧
    (∀ (system : CompiledSystem α) (state : List α), model.compile = .ok (system, state) →
      system.dimension = model.vars.length ∧
      (∀ k, system.vars.name? k = model.vars[k]? ∧
        system.equations[k]?.map (·.variableName) = model.vars[k]?) ∧
      state.length = model.vars.length ∧
      ∀ k : Nat, state[k]? =
        model.vars[k]?.map fun name => (model.initialValues.lookup name).getD 0) ∧
    ∀ name, model.compile ≠ .error (.unknownVariable name) := by
  obtain ⟨hmodel, hdeclared⟩ := coherent_of_parse hparse
  have hcompile := compile_eq hmodel hdeclared
  refine ⟨hmodel, hdeclared, fun system state hsystem => ?_, fun name herror => ?_⟩
  · rw [hcompile] at hsystem
    obtain ⟨compiled, hcompiled, hpair⟩ := map_eq_ok_iff.mp hsystem
    obtain ⟨rfl, rfl⟩ := Prod.mk.inj hpair
    obtain ⟨hnames, hequations, -⟩ :=
      CompiledSystem.numbered_of_compileDeclared hmodel.nodup_vars hcompiled
    refine ⟨?_, fun k => ⟨?_, ?_⟩, ?_, fun k => ?_⟩
    · rw [CompiledSystem.dimension, ← hequations, List.length_map]
    · rw [SymbolTable.name?, hnames]
    · rw [← List.getElem?_map, hequations]
    · rw [initialState, List.length_map]
    · rw [initialState, List.getElem?_map]
  · rw [hcompile] at herror
    exact CompiledSystem.compileDeclared_ne_unknownVariable _ _ _ (map_eq_error_iff.mp herror)

/-- A variable that is declared late, and given its value before. -/
theorem compile_of_parse_lagging :
    let text := "Real x;\ninitial equation\n  y = -2; /* later */\nparameter k = 3;\n" ++
      "Real y;\nequation\nder(y) = k*x;\nx = y - t"
    let number (negative : Bool) (digits : Nat) : Float :=
      Scalar.ofNumeral (.decimal negative digits 0)
    let model : Model Float :=
      ⟨none, ["x", "y"], [("k", number false 3)], [("y", number true 2)],
        ["der(y) = k*x", "x = y - t"]⟩
    parse text = .ok model ∧ model.Coherent ∧
      ∃ system, model.compile = .ok (system, [0, number true 2]) ∧ system.dimension = 2 ∧
        system.vars.name? 1 = some "y" := by
  intro text number model
  have hparse : parse text = .ok model := by
    have hbodies : (Comment.stripAll false ((Text.lines text.toList).map String.ofList)).1.map
        Statement.body = ["Real x", "initial equation", "y = -2", "parameter k = 3", "Real y",
          "equation", "der(y) = k*x", "x = y - t"] := by decide +kernel
    refine parse_eq_ok_iff.mpr ⟨⟨model, .equations⟩, ?_, rfl, by simp [model]⟩
    rw [draftOf, hbodies]
    with_unfolding_all rfl
  have hread := compile_of_parse hparse
  let parameters : ParameterMap Float := .ofList model.parameters
  let vars : SymbolTable := .ofList model.vars
  obtain ⟨statements, hlines, hnames, hprograms⟩ : ∃ statements,
      Statement.parseLines parameters.contains model.equations = .ok statements ∧
        statements.map (·.variableName) = ["y", "x"] ∧
        ∀ statement ∈ statements, ∃ program : Program Float,
          Program.ofTokens statement.tokens ⟨vars, parameters.symbols⟩ = .ok program := by
    refine ⟨_, by with_unfolding_all rfl, rfl, ?_⟩
    simp only [List.forall_mem_cons]
    exact ⟨⟨_, by with_unfolding_all rfl⟩, ⟨_, by with_unfolding_all rfl⟩, List.forall_mem_nil _⟩
  have hdefined : ∀ name, name ∈ model.vars ↔ name ∈ statements.map (·.variableName) := by
    simp [model, hnames, or_comm]
  obtain ⟨system, hsystem⟩ := CompiledSystem.exists_compileDeclared hlines hdefined hprograms
  have hcompile : model.compile = .ok (system, [0, number true 2]) := by
    rw [compile_eq hread.1 hread.2.1, hsystem]
    rfl
  obtain ⟨hdimension, hvars, -⟩ := hread.2.2.1 system _ hcompile
  exact ⟨hparse, hread.1, system, hcompile, hdimension, (hvars 1).1⟩

end Model

end ImplicitDynamics
