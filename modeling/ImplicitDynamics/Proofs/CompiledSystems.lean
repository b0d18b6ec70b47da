import ImplicitDynamics.Equation.System
import ImplicitDynamics.Proofs.ResidualForm
import ImplicitDynamics.Proofs.Shifting
import Mathlib.Data.List.Forall2

/-!
# What compiling leaves behind

A compiled system numbers its equations in order, and the program of each is
made from the tokens of its right side.  Both survive a change of a parameter,
which keeps the names that the programs refer to by number.

A right side that never uses the word for a derivative gives a program that
does not look at the derivatives.  Hence moving a derivative moves one row of
the residual at most, by the same amount, and only if that row is differential.
-/

namespace ImplicitDynamics

variable {α : Type}

namespace Emitter

def Satisfies (P : Op α → Prop) (emitter : Emitter α) : Prop :=
  ∀ op ∈ emitter.ops, P op

theorem Satisfies.emitAll {P : Op α → Prop} {emitter next : Emitter α} {code : List (Op α)}
    (hemitter : emitter.Satisfies P) (hcode : ∀ op ∈ code, P op)
    (hemit : emitter.emitAll code = .ok next) : next.Satisfies P := by
  intro op hop
  rw [ops_of_emitAll hemit] at hop
  rcases List.mem_append.mp hop with hop | hop
  · exact hemitter op hop
  · exact hcode op hop

end Emitter

namespace Program

variable [Scalar α]

/-- A property of whatever tokens may be compiled to, the word for a derivative
aside. -/
structure Closed (scope : Scope) (P : Op α → Prop) : Prop where
  const : ∀ {text op}, constant text = .ok op → P op
  name : ∀ {n op}, resolve scope n = .ok op → P op
  binary : ∀ op, P (.binary op)
  call : ∀ f, P (.call f)

variable {scope : Scope} {P : Op α → Prop}

theorem Closed.move (hP : Closed scope P) {taken : List Token} {pending waiting : List Pending}
    {code : List (Op α)} (hmove : Move scope taken pending waiting code)
    (hplain : ∀ token ∈ taken, isDerivative token = false) : ∀ op ∈ code, P op := by
  refine hmove.forall_code hP.const hP.name (fun word hword hder => ?_) hP.binary hP.call
  rw [hplain word hword] at hder
  cases hder

/-- Tokens without the word for a derivative give a program of operations that
all have the property. -/
theorem Closed.ofTokens (hP : Closed scope P) {tokens : List Token}
    (hplain : ∀ token ∈ tokens, isDerivative token = false) {program : Program α}
    (hprogram : Program.ofTokens tokens scope = .ok program) : ∀ op ∈ program.ops, P op := by
  obtain ⟨pending, emitter, final, hshift, -, hcode, -, rfl⟩ := ofTokens_cases hprogram
  have hempty : (Emitter.empty (α := α)).Satisfies P := by
    simp [Emitter.Satisfies, Emitter.empty]
  have hemitter : (∀ token ∈ tokens, isDerivative token = false) → emitter.Satisfies P := by
    refine shiftAll_invariant
      (fun before _ emitter => (∀ token ∈ before, isDerivative token = false) →
        emitter.Satisfies P) (fun _ => hempty) ?_ hshift
    intro before taken pending waiting code emitter next hbefore hmove hemit hall
    rw [List.forall_mem_append] at hall
    exact (hbefore hall.1).emitAll (hP.move hmove hall.2) hemit
  exact (hemitter hplain).emitAll (Pending.forall_code hP.binary hP.call) hcode

def IgnoresDerivatives (program : Program α) : Prop :=
  ∀ op ∈ program.ops, ∀ index, op ≠ .derivative index

theorem closed_ne_derivative (scope : Scope) :
    Closed (α := α) scope fun op => ∀ index, op ≠ .derivative index where
  const {text op} hop index := by
    obtain ⟨value, -, rfl⟩ := constant_eq_ok hop
    exact nofun
  name {n op} hop index := by
    obtain rfl | ⟨i, -, rfl⟩ | ⟨i, -, rfl⟩ := resolve_eq_ok hop <;> exact nofun
  binary op index := nofun
  call f index := nofun

end Program

/-- What an operation puts on the stack without taking anything from it. -/
def Op.loaded [Scalar α] (bindings : Bindings α) : Op α → Option (Except (EvalError α) α)
  | .const value => some (.ok value)
  | .time => some (.ok bindings.time)
  | .variable index => some (Machine.load bindings.state index)
  | .derivative index => some (Machine.load bindings.derivatives index)
  | .parameter index => some (Machine.load bindings.parameters index)
  | .binary _ => none
  | .call _ => none

namespace Machine

variable [Scalar α]

/-- Bindings are looked at only through what is loaded from them. -/
theorem step_congr {left right : Bindings α} {op : Op α} (hop : op.loaded left = op.loaded right)
    (machine : Machine α) : step op left machine = step op right machine := by
  cases op with
  | binary op => rcases machine with ⟨_ | ⟨b, _ | ⟨a, stack⟩⟩⟩ <;> rfl
  | call f => rcases machine with ⟨_ | ⟨a, stack⟩⟩ <;> rfl
  | _ => exact congrArg (push machine.stack) (Option.some.inj hop)

theorem steps_congr {left right : Bindings α} {ops : List (Op α)}
    (hops : ∀ op ∈ ops, op.loaded left = op.loaded right) (machine : Machine α) :
    steps left ops machine = steps right ops machine := by
  induction ops generalizing machine with
  | nil => rfl
  | cons op ops ih =>
      rw [steps, steps, step_congr (hops op List.mem_cons_self)]
      split
      · exact ih (fun other hother => hops other (List.mem_cons_of_mem _ hother)) _
      · rfl

theorem steps_eq_of_ignores (bindings : Bindings α) (derivatives : List α) {ops : List (Op α)}
    (hops : ∀ op ∈ ops, ∀ index, op ≠ .derivative index) (machine : Machine α) :
    steps { bindings with derivatives } ops machine = steps bindings ops machine := by
  apply steps_congr
  intro op hop
  cases op with
  | derivative index => exact absurd rfl (hops _ hop index)
  | _ => rfl

end Machine

theorem Program.IgnoresDerivatives.eval_eq [Scalar α] {program : Program α}
    (hprogram : program.IgnoresDerivatives) (bindings : Bindings α) (derivatives : List α) :
    program.eval { bindings with derivatives } = program.eval bindings := by
  unfold Program.eval Machine.run
  rw [Machine.steps_eq_of_ignores bindings derivatives hprogram]

/-! ## Equations and what they are compiled from -/

theorem exists_getElem?_of_forall₂ {β γ : Type} {related : β → γ → Prop} {left : List β}
    {right : List γ} (hrelated : List.Forall₂ related left right) {k : Nat} {second : γ}
    (hsecond : right[k]? = some second) :
    ∃ first, left[k]? = some first ∧ related first second := by
  rcases List.getElem?_eq_some_iff.mp hsecond with ⟨hright, rfl⟩
  have hleft : k < left.length := hrelated.length_eq ▸ hright
  exact ⟨left[k], List.getElem?_eq_getElem hleft, hrelated.get hleft hright⟩

namespace Statement

def Tokenized (statement : Statement) : Prop :=
  tokenize statement.expression = .ok statement.tokens

theorem tokenized_of_parse {isParameter : String → Bool} {text : String}
    {statement : Statement} (hparse : parse isParameter text = .ok statement) :
    statement.Tokenized := by
  unfold parse at hparse
  split at hparse
  · next left right hpieces =>
    simp only at hparse
    split at hparse
    · cases hparse
    · split at hparse
      · cases hparse
      · split at hparse
        · cases hparse
        · rcases map_eq_ok_iff.mp hparse with ⟨tokens, htokens, rfl⟩
          exact htokens
  · cases hparse

/-- Bodies are read one by one, the empty ones left out, and no two of them define
the same variable. -/
theorem parseBodies_eq_ok_iff {isParameter : String → Bool} {seen texts : List String}
    {statements : List Statement} :
    parseBodies isParameter seen texts = .ok statements ↔
      List.Forall₂ (fun text statement => parse isParameter text = .ok statement)
        (texts.filter fun text => !text.isEmpty) statements ∧
      (statements.map (·.variableName)).Nodup ∧
      (statements.map (·.variableName)).Disjoint seen := by
  induction texts generalizing seen statements with
  | nil =>
      constructor
      · intro hparse
        cases hparse
        simp
      · rintro ⟨hread, -, -⟩
        cases hread
        rfl
  | cons text rest ih =>
      rw [parseBodies]
      by_cases hempty : text.isEmpty = true
      · rw [if_pos hempty, List.filter_cons_of_neg (by simp [hempty])]
        exact ih
      rw [if_neg hempty, List.filter_cons_of_pos (by simpa using hempty),
        List.forall₂_cons_left_iff]
      cases hfirst : parse isParameter text with
      | error cause => simp
      | ok first =>
          by_cases hseen : seen.contains first.variableName = true
          · simp only [hseen, if_true]
            constructor
            · intro hparse
              cases hparse
            · rintro ⟨⟨head, others, hhead, -, rfl⟩, -, hnew⟩
              cases hhead
              exact absurd (List.contains_iff_mem.mp hseen) (List.disjoint_cons_left.mp hnew).1
          · simp only [if_neg hseen, map_eq_ok_iff, ih]
            rw [List.contains_iff_mem] at hseen
            constructor
            · rintro ⟨others, ⟨hread, hnodup, hnew⟩, rfl⟩
              rw [List.disjoint_cons_right] at hnew
              exact ⟨⟨first, others, rfl, hread, rfl⟩, List.nodup_cons.mpr ⟨hnew.1, hnodup⟩,
                List.disjoint_cons_left.mpr ⟨hseen, hnew.2⟩⟩
            · rintro ⟨⟨head, others, hhead, hread, rfl⟩, hnodup, hnew⟩
              cases hhead
              rw [List.map_cons, List.nodup_cons] at hnodup
              rw [List.map_cons, List.disjoint_cons_left] at hnew
              exact ⟨others, ⟨hread, hnodup.2,
                List.disjoint_cons_right.mpr ⟨hnodup.1, hnew.2⟩⟩, rfl⟩

theorem parseLines_eq_ok_iff {isParameter : String → Bool} {lines : List String}
    {statements : List Statement} :
    parseLines isParameter lines = .ok statements ↔
      parseBodies isParameter [] ((Comment.stripAll false lines).1.map body) = .ok statements ∧
        statements ≠ [] := by
  unfold parseLines
  cases parseBodies isParameter [] ((Comment.stripAll false lines).1.map body) with
  | error cause => simp
  | ok read =>
      cases read with
      | nil => simp +contextual [eq_comm]
      | cons first rest => simp +contextual [eq_comm]

theorem tokenized_of_parseLines {isParameter : String → Bool} {lines : List String}
    {statements : List Statement} (hparse : parseLines isParameter lines = .ok statements) :
    ∀ statement ∈ statements, statement.Tokenized := by
  intro statement hstatement
  have hread := (parseBodies_eq_ok_iff.mp (parseLines_eq_ok_iff.mp hparse).1).1
  rcases List.mem_iff_getElem?.mp hstatement with ⟨k, hk⟩
  rcases exists_getElem?_of_forall₂ hread hk with ⟨text, -, htext⟩
  exact tokenized_of_parse htext

end Statement

theorem ParameterMap.map_fst_setEntry {name : String} {value : α}
    {entries : List (String × α)} (hmem : name ∈ entries.map Prod.fst)
    (hsorted : entries.Pairwise fun a b => a.1 < b.1) :
    (setEntry name value entries).map Prod.fst = entries.map Prod.fst := by
  induction entries with
  | nil => simp at hmem
  | cons head rest ih =>
      obtain ⟨key, old⟩ := head
      obtain ⟨hhead, hrest⟩ := List.pairwise_cons.mp hsorted
      rcases List.mem_cons.mp hmem with rfl | hmem
      · rw [setEntry, if_neg (String.lt_irrefl _), if_pos rfl, List.map_cons, List.map_cons]
      · obtain ⟨entry, hentry, hname⟩ := List.mem_map.mp hmem
        have hlt : key < name := by
          rw [← hname]
          exact hhead entry hentry
        have hnot : ¬ name < key := fun h => String.lt_irrefl _ (String.lt_trans hlt h)
        have hne : name ≠ key := by
          rintro rfl
          exact String.lt_irrefl _ hlt
        simp [setEntry, hnot, hne, ih hmem hrest]

theorem ParameterMap.symbols_set {parameters : ParameterMap α} {name : String} {value : α}
    (hcontains : parameters.contains name = true) :
    (parameters.set name value).symbols = parameters.symbols := by
  have hmem : name ∈ parameters.entries.map Prod.fst := by
    simpa [ParameterMap.contains] using hcontains
  simp only [ParameterMap.symbols, ParameterMap.set,
    ParameterMap.map_fst_setEntry hmem parameters.sorted]

variable [Scalar α]

/-- The program of an equation is made from the tokens of its right side. -/
def Equation.Faithful (scope : Program.Scope) (equation : Equation α) : Prop :=
  ∃ tokens, tokenize equation.expression = .ok tokens ∧
    Program.ofTokens tokens scope = .ok equation.program

/-- An equation is what a statement and its number are compiled to. -/
def Equation.CompiledFrom (scope : Program.Scope) (numbered : Statement × Nat)
    (equation : Equation α) : Prop :=
  ∃ program, Program.ofTokens numbered.1.tokens scope = .ok program ∧
    equation =
      { variableName := numbered.1.variableName
        index := numbered.2
        kind := numbered.1.kind
        source := numbered.1.source
        expression := numbered.1.expression
        program }

theorem Equation.CompiledFrom.unique {scope : Program.Scope} {numbered : Statement × Nat}
    {first second : Equation α} (hfirst : first.CompiledFrom scope numbered)
    (hsecond : second.CompiledFrom scope numbered) : first = second := by
  rcases hfirst with ⟨program, hprogram, rfl⟩
  rcases hsecond with ⟨other, hother, rfl⟩
  cases hprogram.symm.trans hother
  rfl

theorem Equation.compileAll_eq_ok_iff {scope : Program.Scope} {first : Nat}
    {statements : List Statement} {equations : List (Equation α)} :
    compileAll scope first statements = .ok equations ↔
      List.Forall₂ (CompiledFrom scope) (statements.zipIdx first) equations := by
  induction statements generalizing first equations with
  | nil => simp [compileAll, eq_comm]
  | cons statement rest ih =>
      rw [compileAll, List.zipIdx_cons, List.forall₂_cons_left_iff]
      cases hprogram : Program.ofTokens (α := α) statement.tokens scope with
      | error cause => simp [CompiledFrom, hprogram]
      | ok program =>
          simp only [map_eq_ok_iff, ih]
          constructor
          · rintro ⟨others, hothers, rfl⟩
            exact ⟨_, others, ⟨program, hprogram, rfl⟩, hothers, rfl⟩
          · rintro ⟨equation, others, ⟨compiled, hcompiled, rfl⟩, hothers, rfl⟩
            cases hprogram.symm.trans hcompiled
            exact ⟨others, hothers, rfl⟩

/-- The place of a name, after all places for a name that is not there. -/
def SymbolTable.rank (table : SymbolTable) (name : String) : Nat :=
  (table.indexOf? name).getD table.size

namespace CompiledSystem

/-- The systems that the compiler hands out, also after changes of
parameters. -/
inductive IsCompiled : CompiledSystem α → Prop where
  | compile {parameters lines system} :
      CompiledSystem.compile parameters lines = .ok system → IsCompiled system
  | compileDeclared {parameters lines declared system} :
      CompiledSystem.compileDeclared parameters lines declared = .ok system →
      IsCompiled system
  | setParameter {system} (name : String) (value : α) :
      IsCompiled system → IsCompiled (system.setParameter name value)

def scope (system : CompiledSystem α) : Program.Scope :=
  ⟨system.vars, system.parameters.symbols⟩

/-- Equations are numbered in order and their programs stand for their right
sides. -/
structure Sound (system : CompiledSystem α) : Prop where
  index : ∀ k (equation : Equation α), system.equations[k]? = some equation →
    equation.index = k
  faithful : ∀ equation ∈ system.equations, equation.Faithful system.scope

variable {parameters : ParameterMap α} {vars : SymbolTable} {lines declared : List String}
  {statements : List Statement} {system : CompiledSystem α}

theorem ofStatements_eq_ok_iff : ofStatements parameters vars statements = .ok system ↔
    Statement.undefinedSymbols vars parameters.contains statements = [] ∧
      ∃ equations, Equation.compileAll ⟨vars, parameters.symbols⟩ 0 statements = .ok equations ∧
        system = ⟨vars, parameters, equations⟩ := by
  unfold ofStatements
  split
  · next hknown =>
    rw [map_eq_ok_iff]
    constructor
    · rintro ⟨equations, hequations, rfl⟩
      exact ⟨hknown, equations, hequations, rfl⟩
    · rintro ⟨-, equations, hequations, rfl⟩
      exact ⟨equations, hequations, rfl⟩
  · next hunknown =>
    constructor
    · intro hcompile
      cases hcompile
    · exact fun hcompile => absurd hcompile.1 hunknown

theorem compile_eq_ok_iff : compile parameters lines = .ok system ↔
    ∃ statements, Statement.parseLines parameters.contains lines = .ok statements ∧
      ofStatements parameters (.ofList (statements.map (·.variableName))) statements =
        .ok system := by
  unfold compile
  cases Statement.parseLines parameters.contains lines <;> simp

/-- Statements in the order in which their variables are declared. -/
def inOrderOf (vars : SymbolTable) (statements : List Statement) : List Statement :=
  statements.mergeSort fun a b => decide (vars.rank a.variableName ≤ vars.rank b.variableName)

theorem compileDeclared_of_parseLines
    (hlines : Statement.parseLines parameters.contains lines = .ok statements)
    (hnames : ∀ name, name ∈ declared ↔ name ∈ statements.map (·.variableName)) :
    compileDeclared parameters lines declared =
      ofStatements parameters (.ofList declared) (inOrderOf (.ofList declared) statements) := by
  have hmissing : (declared.filter fun name =>
      !(statements.map (·.variableName)).contains name) = [] := by
    simpa using fun name => (hnames name).mp
  have hundeclared : ((statements.map (·.variableName)).filter fun name =>
      !declared.contains name) = [] := by
    simpa using fun name => (hnames name).mpr
  unfold compileDeclared
  simp only [hlines, hmissing, hundeclared]
  rfl

theorem compileDeclared_eq_ok_iff : compileDeclared parameters lines declared = .ok system ↔
    ∃ statements, Statement.parseLines parameters.contains lines = .ok statements ∧
      (∀ name, name ∈ declared ↔ name ∈ statements.map (·.variableName)) ∧
      ofStatements parameters (.ofList declared) (inOrderOf (.ofList declared) statements) =
        .ok system := by
  constructor
  · intro hcompile
    unfold compileDeclared at hcompile
    split at hcompile
    · cases hcompile
    · next statements hlines =>
      simp only at hcompile
      split at hcompile
      · next hmissing =>
        split at hcompile
        · next hundeclared =>
          simp only [List.filter_eq_nil_iff, Bool.not_eq_true', Bool.not_eq_false,
            List.contains_iff_mem] at hmissing hundeclared
          exact ⟨statements, hlines, fun name => ⟨hmissing name, hundeclared name⟩, hcompile⟩
        · cases hcompile
      · cases hcompile
  · rintro ⟨statements, hlines, hnames, hcompile⟩
    rwa [compileDeclared_of_parseLines hlines hnames]

theorem sound_of_ofStatements (htokenized : ∀ statement ∈ statements, statement.Tokenized)
    (hcompile : ofStatements parameters vars statements = .ok system) : system.Sound := by
  rcases ofStatements_eq_ok_iff.mp hcompile with ⟨-, equations, hequations, rfl⟩
  have hcompiled : ∀ k (equation : Equation α), equations[k]? = some equation →
      ∃ statement ∈ statements, equation.CompiledFrom ⟨vars, parameters.symbols⟩ (statement, k) := by
    intro k equation hk
    rcases exists_getElem?_of_forall₂ (Equation.compileAll_eq_ok_iff.mp hequations) hk with
      ⟨⟨statement, number⟩, hnumbered, hequation⟩
    rw [List.getElem?_zipIdx, Option.map_eq_some_iff] at hnumbered
    rcases hnumbered with ⟨found, hfound, hpair⟩
    cases hpair
    rw [Nat.zero_add] at hequation
    exact ⟨statement, List.mem_of_getElem? hfound, hequation⟩
  constructor
  · intro k equation hk
    rcases hcompiled k equation hk with ⟨statement, -, program, -, rfl⟩
    rfl
  · intro equation hequation
    rcases List.mem_iff_getElem?.mp hequation with ⟨k, hk⟩
    rcases hcompiled k equation hk with ⟨statement, hstatement, program, hprogram, rfl⟩
    exact ⟨statement.tokens, htokenized statement hstatement, hprogram⟩

/-- Lines compile if they are read as statements in which every name has a meaning,
and these statements compile. -/
theorem compile_of_statements {equations : List (Equation α)}
    (hlines : Statement.parseLines parameters.contains lines = .ok statements)
    (hknown : Statement.undefinedSymbols (.ofList (statements.map (·.variableName)))
      parameters.contains statements = [])
    (hequations : Equation.compileAll
      ⟨.ofList (statements.map (·.variableName)), parameters.symbols⟩ 0 statements =
        .ok equations) :
    compile parameters lines =
      .ok ⟨.ofList (statements.map (·.variableName)), parameters, equations⟩ :=
  compile_eq_ok_iff.mpr ⟨statements, hlines,
    ofStatements_eq_ok_iff.mpr ⟨hknown, equations, hequations, rfl⟩⟩

theorem IsCompiled.sound (hcompiled : system.IsCompiled) : system.Sound := by
  induction hcompiled with
  | compile hcompile =>
      rcases compile_eq_ok_iff.mp hcompile with ⟨statements, hlines, hsystem⟩
      exact sound_of_ofStatements (Statement.tokenized_of_parseLines hlines) hsystem
  | compileDeclared hcompile =>
      rcases compileDeclared_eq_ok_iff.mp hcompile with ⟨statements, hlines, -, hsystem⟩
      refine sound_of_ofStatements (fun statement hstatement => ?_) hsystem
      exact Statement.tokenized_of_parseLines hlines statement
        (List.mem_mergeSort.mp hstatement)
  | @setParameter system name value hcompiled ih =>
      unfold CompiledSystem.setParameter
      split
      · next hcontains =>
        refine ⟨ih.index, fun equation hequation => ?_⟩
        rw [scope, ParameterMap.symbols_set hcontains]
        exact ih.faithful equation hequation
      · exact ih

/-! ## The residual of a compiled system -/

def RowsAre (system : CompiledSystem α) (bindings : Bindings α) (values : List α) : Prop :=
  List.Forall₂ (fun equation value => Equation.row equation bindings = .ok value)
    system.equations values

theorem writeRows_of_forall₂ {bindings : Bindings α} {equations : List (Equation α)}
    {values slots : List α}
    (hrows : List.Forall₂ (fun equation value => Equation.row equation bindings = .ok value)
      equations values)
    (hslots : slots.length = equations.length) :
    writeRows bindings equations slots = ⟨values, none⟩ := by
  induction hrows generalizing slots with
  | nil =>
      rw [List.length_eq_zero_iff.mp hslots]
      rfl
  | cons hrow hrest ih =>
      cases slots with
      | nil => cases hslots
      | cons slot slots =>
          rw [writeRows, hrow]
          simp only [ih (by simpa using hslots)]

theorem forall₂_of_writeRows {bindings : Bindings α} {equations : List (Equation α)}
    {slots : List α} (hslots : slots.length = equations.length)
    (hwritten : (writeRows bindings equations slots).failure = none) :
    List.Forall₂ (fun equation value => Equation.row equation bindings = .ok value)
      equations (writeRows bindings equations slots).out := by
  induction equations generalizing slots with
  | nil =>
      rw [List.length_eq_zero_iff.mp hslots]
      exact .nil
  | cons equation equations ih =>
      cases slots with
      | nil => cases hslots
      | cons slot slots =>
          rw [writeRows] at hwritten ⊢
          cases hrow : Equation.row equation bindings with
          | error cause =>
              rw [hrow] at hwritten
              cases hwritten
          | ok value =>
              rw [hrow] at hwritten
              exact .cons hrow (ih (by simpa using hslots) hwritten)

def bindings (system : CompiledSystem α) (t : α) (y yp : List α) : Bindings α :=
  { time := t, state := y, derivatives := yp, parameters := system.parameters.values }

theorem residual_of_rows {system : CompiledSystem α} {t : α} {y yp out values : List α}
    (hy : y.length = system.dimension) (hyp : yp.length = system.dimension)
    (hout : out.length = system.dimension)
    (hrows : system.RowsAre (system.bindings t y yp) values) :
    system.toResidual.residual t y yp out = ⟨values, none⟩ := by
  simp only [toResidual, ResidualSystem.mismatch?_eq_none_iff.mpr ⟨hy, hyp, hout⟩]
  exact writeRows_of_forall₂ hrows hout

/-- What is written without a failure are the rows, and everything has the length
that it should have. -/
theorem rows_of_residual {system : CompiledSystem α} {t : α} {y yp out : List α}
    (hfailure : (system.toResidual.residual t y yp out).failure = none) :
    y.length = system.dimension ∧ yp.length = system.dimension ∧
      out.length = system.dimension ∧
      system.RowsAre (system.bindings t y yp) (system.toResidual.residual t y yp out).out := by
  cases hmatch : ResidualSystem.mismatch? system.dimension y yp out with
  | some cause =>
      simp only [toResidual, hmatch] at hfailure
      cases hfailure
  | none =>
      rcases ResidualSystem.mismatch?_eq_none_iff.mp hmatch with ⟨hy, hyp, hout⟩
      simp only [toResidual, hmatch] at hfailure ⊢
      exact ⟨hy, hyp, hout, forall₂_of_writeRows hout hfailure⟩

theorem rows_of_evaluate {system : CompiledSystem α} {t : α} {y yp base : List α}
    (hbase : system.toResidual.evaluate t y yp = .ok base) :
    y.length = system.dimension ∧ yp.length = system.dimension ∧
      system.RowsAre (system.bindings t y yp) base := by
  unfold ResidualSystem.evaluate at hbase
  simp only at hbase
  split at hbase
  · next hwritten =>
    cases hbase
    rcases rows_of_residual hwritten with ⟨hy, hyp, -, hrows⟩
    exact ⟨hy, hyp, hrows⟩
  · cases hbase

end CompiledSystem

/-- The right side of an equation never uses the word for a derivative. -/
def Equation.WithoutDerivative (equation : Equation α) : Prop :=
  ∀ tokens, tokenize equation.expression = .ok tokens →
    ∀ token ∈ tokens, Program.isDerivative token = false

theorem Equation.Faithful.ignoresDerivatives {scope : Program.Scope} {equation : Equation α}
    (hfaithful : equation.Faithful scope) (hfree : equation.WithoutDerivative) :
    equation.program.IgnoresDerivatives := by
  obtain ⟨tokens, htokens, hprogram⟩ := hfaithful
  exact (Program.closed_ne_derivative scope).ofTokens (hfree tokens htokens) hprogram

end ImplicitDynamics
