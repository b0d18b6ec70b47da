import ImplicitDynamics.Proofs.ConsistentPoints
import ImplicitDynamics.Proofs.NameSearch
import ImplicitDynamics.Proofs.Reordering

/-!
# The order of equations

Variables are numbered as their equations come, or as they are declared.  Lines
in another order therefore give a system with other numbers: programs refer to
other places, equations have another index, and rows are written elsewhere.

All three change in the same way.  A block comment could spoil this, since it
hides whatever line comes after its start; where each line closes its own blocks,
lines are read one by one.  The statements are then the same ones in another
order, and each is compiled to its program with the variables in their new places.
-/

namespace ImplicitDynamics

/-- No block comment crosses the end of a line. -/
def Comment.Closed (lines : List String) : Prop :=
  ∀ line ∈ lines, (strip false line).2 = false

theorem Comment.Closed.perm {lines others : List String} (hclosed : Closed lines)
    (hlines : lines.Perm others) : Closed others :=
  fun line hline => hclosed line (hlines.mem_iff.mpr hline)

theorem Comment.Closed.stripAll {lines : List String} (hclosed : Closed lines) :
    (stripAll false lines).1 = lines.map fun line => (strip false line).1 := by
  induction lines with
  | nil => rfl
  | cons line rest ih =>
      have hline := hclosed line List.mem_cons_self
      have hrest := ih fun other hother => hclosed other (List.mem_cons_of_mem _ hother)
      simp only [Comment.stripAll, hline, hrest, List.map_cons]

namespace Statement

variable {isParameter : String → Bool} {lines others : List String}
  {statements moved : List Statement}

theorem parseBodies_perm {texts others : List String} (htexts : texts.Perm others)
    (hparse : parseBodies isParameter [] texts = .ok statements) :
    ∃ moved, parseBodies isParameter [] others = .ok moved ∧ statements.Perm moved := by
  rcases parseBodies_eq_ok_iff.mp hparse with ⟨hread, hnodup, -⟩
  have hfilter := htexts.filter fun text => !text.isEmpty
  rcases List.perm_comp_forall₂ hfilter.symm hread with ⟨moved, hmoved, hperm⟩
  have hnames := hperm.map (·.variableName)
  have hdistinct := hnames.nodup_iff.mpr hnodup
  exact ⟨moved, parseBodies_eq_ok_iff.mpr ⟨hmoved, hdistinct, List.disjoint_nil_right _⟩,
    hperm.symm⟩

theorem parseLines_perm (hclosed : Comment.Closed lines) (hlines : lines.Perm others)
    (hparse : parseLines isParameter lines = .ok statements) :
    ∃ moved, parseLines isParameter others = .ok moved ∧ statements.Perm moved := by
  rcases parseLines_eq_ok_iff.mp hparse with ⟨hbodies, hnonempty⟩
  rw [hclosed.stripAll] at hbodies
  have htexts := (hlines.map fun line => (Comment.strip false line).1).map body
  rcases parseBodies_perm htexts hbodies with ⟨moved, hmoved, hperm⟩
  refine ⟨moved, parseLines_eq_ok_iff.mpr ⟨?_, ?_⟩, hperm⟩
  · rw [(hclosed.perm hlines).stripAll]
    exact hmoved
  · rintro rfl
    exact hnonempty hperm.eq_nil

theorem parseLines_error_of_perm (hclosed : Comment.Closed lines) (hlines : lines.Perm others)
    {cause : ParseError} (hparse : parseLines isParameter lines = .error cause) :
    ∃ found, parseLines isParameter others = .error found := by
  cases hothers : parseLines isParameter others with
  | error found => exact ⟨found, rfl⟩
  | ok moved =>
      rcases parseLines_perm (hclosed.perm hlines) hlines.symm hothers with ⟨read, hread, -⟩
      cases hparse.symm.trans hread

/-- The variables of lines that are read are distinct. -/
theorem nodup_of_parseLines (hparse : parseLines isParameter lines = .ok statements) :
    (statements.map (·.variableName)).Nodup :=
  (parseBodies_eq_ok_iff.mp (parseLines_eq_ok_iff.mp hparse).1).2.1

end Statement

variable {α : Type} [Scalar α]

/-! ## Compiling in another order -/

namespace SymbolTable

theorem names_foldl_insert {table : SymbolTable} {names : List String}
    (hnodup : (table.names ++ names).Nodup) :
    (names.foldl insert table).names = table.names ++ names := by
  induction names generalizing table with
  | nil => simp
  | cons name rest ih =>
      have hnew : name ∉ table.names := fun hmem =>
        (List.nodup_append.mp hnodup).2.2 name hmem name List.mem_cons_self rfl
      have hinsert : (table.insert name).names = table.names ++ [name] := by
        rw [names_insert, if_neg hnew]
      rw [List.foldl_cons, ih]
      · rw [hinsert, List.append_assoc, List.singleton_append]
      · rwa [hinsert, List.append_assoc, List.singleton_append]

theorem names_ofList {names : List String} (hnodup : names.Nodup) :
    (ofList names).names = names :=
  @names_foldl_insert empty names hnodup

theorem rank_of_name? {table : SymbolTable} {name : String} {i : Nat}
    (hname : table.name? i = some name) : table.rank name = i := by
  rw [rank, indexOf?_eq_some_iff.mpr hname]
  rfl

theorem name?_rank {table : SymbolTable} {name : String} (hname : name ∈ table.names) :
    table.name? (table.rank name) = some name := by
  rcases List.mem_iff_getElem?.mp hname with ⟨i, hi⟩
  rw [rank_of_name? hi]
  exact hi

end SymbolTable

namespace Equation

variable {scope : Program.Scope} {statements : List Statement} {equations : List (Equation α)}

theorem exists_compileAll_iff {first : Nat} :
    (∃ equations : List (Equation α), compileAll scope first statements = .ok equations) ↔
      ∀ statement ∈ statements, ∃ program : Program α,
        Program.ofTokens statement.tokens scope = .ok program := by
  induction statements generalizing first with
  | nil => simp [compileAll]
  | cons statement rest ih =>
      rw [compileAll, List.forall_mem_cons]
      cases hprogram : Program.ofTokens (α := α) statement.tokens scope with
      | error cause => simp
      | ok program =>
          simp only [map_eq_ok_iff]
          constructor
          · rintro ⟨-, others, hothers, -⟩
            exact ⟨⟨program, rfl⟩, ih.mp ⟨others, hothers⟩⟩
          · rintro ⟨-, hrest⟩
            rcases ih.mpr hrest with ⟨others, hothers⟩
            exact ⟨_, others, hothers, rfl⟩

theorem length_of_compileAll {first : Nat}
    (hcompile : compileAll scope first statements = .ok equations) :
    equations.length = statements.length := by
  have hlength := (compileAll_eq_ok_iff.mp hcompile).length_eq
  rwa [List.length_zipIdx, eq_comm] at hlength

theorem exists_of_compileAll (hcompile : compileAll scope 0 statements = .ok equations)
    {i : Nat} {statement : Statement} (hi : statements[i]? = some statement) :
    ∃ equation : Equation α, equations[i]? = some equation ∧
      equation.CompiledFrom scope (statement, i) := by
  have hnumbered : (statements.zipIdx 0)[i]? = some (statement, i) := by
    rw [List.getElem?_zipIdx, hi, Option.map_some, Nat.zero_add]
  exact exists_getElem?_of_forall₂ (compileAll_eq_ok_iff.mp hcompile).flip hnumbered

theorem map_variableName_of_compileAll
    (hcompile : compileAll scope 0 statements = .ok equations) :
    equations.map (·.variableName) = statements.map (·.variableName) := by
  apply List.ext_getElem?
  intro i
  rw [List.getElem?_map, List.getElem?_map]
  cases hi : statements[i]? with
  | none =>
      rw [List.getElem?_eq_none_iff, ← length_of_compileAll hcompile] at hi
      rw [List.getElem?_eq_none hi]
      rfl
  | some statement =>
      rcases exists_of_compileAll hcompile hi with ⟨equation, hequation, program, -, rfl⟩
      rw [hequation]
      rfl

variable {other : Program.Scope} {moved : List Statement} {reordered : List (Equation α)}

theorem exists_compileAll_relocate {place : Nat → Nat} (hscope : scope.Relocates place other)
    (hperm : statements.Perm moved) (hcompile : compileAll scope 0 statements = .ok equations) :
    ∃ reordered : List (Equation α), compileAll other 0 moved = .ok reordered := by
  rw [exists_compileAll_iff]
  intro statement hstatement
  rcases exists_compileAll_iff.mp ⟨equations, hcompile⟩ statement
    (hperm.mem_iff.mpr hstatement) with ⟨program, hprogram⟩
  rw [Program.ofTokens_relocate hscope, hprogram]
  exact ⟨_, rfl⟩

theorem getElem?_compileAll_relocate {place : Nat → Nat} (hscope : scope.Relocates place other)
    (hcompile : compileAll scope 0 statements = .ok equations)
    (hreordered : compileAll other 0 moved = .ok reordered) {i : Nat}
    (hplace : moved[place i]? = statements[i]?) :
    reordered[place i]? = equations[i]?.map (relocate place) := by
  cases hi : statements[i]? with
  | none =>
      rw [hi, List.getElem?_eq_none_iff, ← length_of_compileAll hreordered] at hplace
      rw [List.getElem?_eq_none_iff, ← length_of_compileAll hcompile] at hi
      rw [List.getElem?_eq_none hi, List.getElem?_eq_none hplace]
      rfl
  | some statement =>
      rw [hi] at hplace
      rcases exists_of_compileAll hcompile hi with ⟨equation, hequation, hfrom⟩
      rcases exists_of_compileAll hreordered hplace with ⟨image, himage, himageFrom⟩
      rw [hequation, himage, himageFrom.unique (hfrom.relocate hscope)]
      rfl

end Equation

namespace CompiledSystem

variable {parameters : ParameterMap α} {vars other : SymbolTable}
  {statements moved : List Statement} {system : CompiledSystem α}

theorem getElem?_placeIn (hvars : vars.names = statements.map (·.variableName))
    (hother : other.names = moved.map (·.variableName)) (hperm : statements.Perm moved) (i : Nat) :
    moved[vars.placeIn other i]? = statements[i]? := by
  have hnames : vars.names.Perm other.names := by
    rw [hvars, hother]
    exact hperm.map _
  cases hi : statements[i]? with
  | none =>
      have hlength : statements.length ≤ i := List.getElem?_eq_none_iff.mp hi
      have hsize : vars.size ≤ i := by
        rwa [SymbolTable.size, hvars, List.length_map]
      rw [SymbolTable.placeIn_of_size_le hsize]
      exact List.getElem?_eq_none (hperm.length_eq ▸ hlength)
  | some statement =>
      have hname := SymbolTable.name?_placeIn hnames i
      rw [SymbolTable.name?, SymbolTable.name?, hvars, hother, List.getElem?_map, List.getElem?_map,
        hi, Option.map_some, Option.map_eq_some_iff] at hname
      rcases hname with ⟨found, hfound, hsame⟩
      -- a variable has one statement
      have hnodup : (moved.map (·.variableName)).Nodup := hother ▸ other.nodup
      rw [hfound, List.inj_on_of_nodup_map hnodup (List.mem_of_getElem? hfound)
        (hperm.mem_iff.mp (List.mem_of_getElem? hi)) hsame]

/-- Statements compile in any order, to systems that differ in their numbers only. -/
theorem ofStatements_reorders (hvars : vars.names = statements.map (·.variableName))
    (hother : other.names = moved.map (·.variableName)) (hperm : statements.Perm moved)
    (hsystem : ofStatements parameters vars statements = .ok system) :
    ∃ place reordered, ofStatements parameters other moved = .ok reordered ∧
      Reorders place system reordered := by
  rcases ofStatements_eq_ok_iff.mp hsystem with ⟨hknown, equations, hequations, rfl⟩
  have hnames : vars.names.Perm other.names := by
    rw [hvars, hother]
    exact hperm.map _
  have hscope : Program.Scope.Relocates (vars.relocation hnames) ⟨vars, parameters.symbols⟩
      ⟨other, parameters.symbols⟩ := ⟨SymbolTable.indexOf?_placeIn hnames, rfl⟩
  have hmovedKnown := Statement.undefinedSymbols_perm hnames hperm hknown
  rcases Equation.exists_compileAll_relocate hscope hperm hequations with ⟨reordered, hreordered⟩
  have hlength := Equation.length_of_compileAll hequations
  refine ⟨vars.relocation hnames, ⟨other, parameters, reordered⟩,
    ofStatements_eq_ok_iff.mpr ⟨hmovedKnown, reordered, hreordered, rfl⟩, ?_⟩
  constructor
  case dimension =>
    have hmovedLength := Equation.length_of_compileAll hreordered
    exact hmovedLength.trans (hperm.length_eq.symm.trans hlength.symm)
  case fixed =>
    intro i hi
    apply SymbolTable.placeIn_of_size_le
    rwa [SymbolTable.size, hvars, List.length_map, ← hlength]
  case vars => exact SymbolTable.name?_placeIn hnames
  case parameters => rfl
  case equations =>
    intro i
    exact Equation.getElem?_compileAll_relocate hscope hequations hreordered
      (getElem?_placeIn hvars hother hperm i)

/-- Both are refused, or both are systems that differ in their numbers only and have
the same residual up to that. -/
def SameUpToOrder (first second : Except ParseError (CompiledSystem α)) : Prop :=
  ((∃ moved, second = .ok moved) ↔ ∃ system, first = .ok system) ∧
    ∀ system moved, first = .ok system → second = .ok moved →
      ∃ place, Reorders place system moved ∧ AgreesAt place system moved

theorem sameUpToOrder_of_error (first second : ParseError) :
    SameUpToOrder (α := α) (.error first) (.error second) := by
  simp [SameUpToOrder]

theorem ofStatements_sameUpToOrder (hvars : vars.names = statements.map (·.variableName))
    (hother : other.names = moved.map (·.variableName)) (hperm : statements.Perm moved) :
    SameUpToOrder (ofStatements parameters vars statements)
      (ofStatements parameters other moved) := by
  refine ⟨⟨?_, ?_⟩, ?_⟩
  · rintro ⟨reordered, hreordered⟩
    rcases ofStatements_reorders hother hvars hperm.symm hreordered with ⟨-, system, hsystem, -⟩
    exact ⟨system, hsystem⟩
  · rintro ⟨system, hsystem⟩
    rcases ofStatements_reorders hvars hother hperm hsystem with ⟨-, reordered, hreordered, -⟩
    exact ⟨reordered, hreordered⟩
  · intro system reordered hsystem hreordered
    rcases ofStatements_reorders hvars hother hperm hsystem with ⟨place, found, hfound, horder⟩
    cases hreordered.symm.trans hfound
    exact ⟨place, horder, horder.agrees⟩

variable {lines others declared : List String}

theorem compile_sameUpToOrder (hclosed : Comment.Closed lines) (hlines : lines.Perm others) :
    SameUpToOrder (compile parameters lines) (compile parameters others) := by
  cases hparse : Statement.parseLines parameters.contains lines with
  | error cause =>
      rcases Statement.parseLines_error_of_perm hclosed hlines hparse with ⟨found, hfound⟩
      simp only [compile, hparse, hfound]
      exact sameUpToOrder_of_error cause found
  | ok statements =>
      rcases Statement.parseLines_perm hclosed hlines hparse with ⟨moved, hmoved, hperm⟩
      simp only [compile, hparse, hmoved]
      exact ofStatements_sameUpToOrder
        (SymbolTable.names_ofList (Statement.nodup_of_parseLines hparse))
        (SymbolTable.names_ofList (Statement.nodup_of_parseLines hmoved)) hperm

theorem map_inOrderOf (hvars : vars.names.Perm (statements.map (·.variableName))) :
    (inOrderOf vars statements).map (·.variableName) = vars.names := by
  have hperm : ((inOrderOf vars statements).map (·.variableName)).Perm vars.names :=
    ((List.mergeSort_perm statements _).map _).trans hvars.symm
  have hsorted : ((inOrderOf vars statements).map (·.variableName)).Pairwise
      fun a b => vars.rank a ≤ vars.rank b := by
    rw [List.pairwise_map]
    refine (List.pairwise_mergeSort ?_ ?_ statements).imp of_decide_eq_true
    · intro a b c hab hbc
      exact decide_eq_true ((of_decide_eq_true hab).trans (of_decide_eq_true hbc))
    · intro a b
      simpa using Nat.le_total _ _
  have hdeclared : vars.names.Pairwise fun a b => vars.rank a ≤ vars.rank b := by
    rw [List.pairwise_iff_getElem]
    intro i j hi hj hlt
    rw [SymbolTable.rank_of_name? (List.getElem?_eq_getElem hi),
      SymbolTable.rank_of_name? (List.getElem?_eq_getElem hj)]
    exact hlt.le
  refine hperm.eq_of_pairwise (fun a b ha hb hab hba => ?_) hsorted hdeclared
  have hfirst := SymbolTable.name?_rank (hperm.mem_iff.mp ha)
  rw [Nat.le_antisymm hab hba, SymbolTable.name?_rank hb] at hfirst
  exact (Option.some.inj hfirst).symm

theorem compileDeclared_sameUpToOrder (hclosed : Comment.Closed lines)
    (hlines : lines.Perm others)
    (hdeclared : ∀ statements, Statement.parseLines parameters.contains lines = .ok statements →
      declared.Perm (statements.map (·.variableName))) :
    SameUpToOrder (compile parameters lines) (compileDeclared parameters others declared) := by
  cases hparse : Statement.parseLines parameters.contains lines with
  | error cause =>
      rcases Statement.parseLines_error_of_perm hclosed hlines hparse with ⟨found, hfound⟩
      simp only [compile, compileDeclared, hparse, hfound]
      exact sameUpToOrder_of_error cause found
  | ok statements =>
      rcases Statement.parseLines_perm hclosed hlines hparse with ⟨moved, hmoved, hperm⟩
      have hnames := (hdeclared statements hparse).trans (hperm.map (·.variableName))
      have hdistinct := SymbolTable.names_ofList
        (hnames.nodup_iff.mpr (Statement.nodup_of_parseLines hmoved))
      rw [compileDeclared_of_parseLines hmoved fun name => hnames.mem_iff]
      simp only [compile, hparse]
      refine ofStatements_sameUpToOrder
        (SymbolTable.names_ofList (Statement.nodup_of_parseLines hparse)) ?_
        (hperm.trans (List.mergeSort_perm moved _).symm)
      exact (map_inOrderOf (hdistinct.symm ▸ hnames)).symm

theorem names_of_compile
    (hlines : Statement.parseLines parameters.contains lines = .ok statements)
    (hsystem : compile parameters lines = .ok system) :
    system.vars.names = statements.map (·.variableName) := by
  rcases compile_eq_ok_iff.mp hsystem with ⟨read, hread, hstatements⟩
  cases hlines.symm.trans hread
  rcases ofStatements_eq_ok_iff.mp hstatements with ⟨-, equations, -, rfl⟩
  exact SymbolTable.names_ofList (Statement.nodup_of_parseLines hlines)

/-- In a system for declared variables, variable and equation `i` are the ones
declared in place `i`. -/
theorem numbered_of_compileDeclared (hnodup : declared.Nodup)
    (hsystem : compileDeclared parameters others declared = .ok system) :
    system.vars.names = declared ∧ system.equations.map (·.variableName) = declared ∧
      ∀ i (equation : Equation α), system.equations[i]? = some equation → equation.index = i := by
  have hindex := (IsCompiled.compileDeclared hsystem).sound.index
  rcases compileDeclared_eq_ok_iff.mp hsystem with ⟨statements, hlines, hnames, hstatements⟩
  rcases ofStatements_eq_ok_iff.mp hstatements with ⟨-, equations, hequations, rfl⟩
  have hdistinct := SymbolTable.names_ofList hnodup
  have hperm : declared.Perm (statements.map (·.variableName)) :=
    (List.perm_ext_iff_of_nodup hnodup (Statement.nodup_of_parseLines hlines)).mpr hnames
  refine ⟨hdistinct, ?_, hindex⟩
  rw [Equation.map_variableName_of_compileAll hequations, map_inOrderOf (hdistinct.symm ▸ hperm)]
  exact hdistinct

/-- Where no block comment crosses the end of a line, the order of the lines does not
matter, and neither does the order in which the variables are declared. -/
theorem compile_order (hclosed : Comment.Closed lines) (hlines : lines.Perm others) :
    SameUpToOrder (compile parameters lines) (compile parameters others) ∧
      ∀ declared : List String,
        (∀ statements, Statement.parseLines parameters.contains lines = .ok statements →
          declared.Perm (statements.map (·.variableName))) →
        SameUpToOrder (compile parameters lines) (compileDeclared parameters others declared) ∧
          ∀ system, compileDeclared parameters others declared = .ok system →
            system.vars.names = declared ∧ system.equations.map (·.variableName) = declared ∧
            ∀ i (equation : Equation α), system.equations[i]? = some equation →
              equation.index = i := by
  refine ⟨compile_sameUpToOrder hclosed hlines, fun declared hdeclared => ?_⟩
  have hsame := compileDeclared_sameUpToOrder hclosed hlines hdeclared
  refine ⟨hsame, fun system hsystem => ?_⟩
  rcases hsame.1.mp ⟨system, hsystem⟩ with ⟨original, horiginal⟩
  rcases compile_eq_ok_iff.mp horiginal with ⟨statements, hstatements, -⟩
  have hnames := hdeclared statements hstatements
  exact numbered_of_compileDeclared
    (hnames.nodup_iff.mpr (Statement.nodup_of_parseLines hstatements)) hsystem

theorem compile_order_coupled :
    Comment.Closed ["der(x) = t", "z = z - der(x)"] ∧
    ["der(x) = t", "z = z - der(x)"].Perm ["z = z - der(x)", "der(x) = t"] ∧
    (∃ system place, compile .empty ["z = z - der(x)", "der(x) = t"] = .ok system ∧
      Reorders place coupled system ∧ AgreesAt place coupled system) ∧
    ∃ system place, compileDeclared .empty ["z = z - der(x)", "der(x) = t"] ["z", "x"] =
        .ok system ∧
      system.vars.names = ["z", "x"] ∧ Reorders place coupled system ∧
      AgreesAt place coupled system := by
  have hclosed : Comment.Closed ["der(x) = t", "z = z - der(x)"] := by
    rw [Comment.Closed, List.forall_mem_cons, List.forall_mem_singleton]
    constructor <;> with_unfolding_all rfl
  have hlines : ["der(x) = t", "z = z - der(x)"].Perm ["z = z - der(x)", "der(x) = t"] :=
    .swap _ _ _
  have hdefined : ∀ statements,
      Statement.parseLines (ParameterMap.empty : ParameterMap ℝ).contains
        ["der(x) = t", "z = z - der(x)"] = .ok statements →
      ["z", "x"].Perm (statements.map (·.variableName)) := by
    intro statements hstatements
    have hnames : coupled.vars.names = ["x", "z"] := SymbolTable.names_ofList (by decide)
    rw [← names_of_compile hstatements compile_coupled, hnames]
    exact .swap _ _ _
  rcases @compile_order ℝ _ .empty _ _ hclosed hlines with ⟨⟨hok, hsame⟩, hdeclared⟩
  rcases hdeclared ["z", "x"] hdefined with ⟨⟨hokDeclared, hsameDeclared⟩, hnumbered⟩
  rcases hok.mpr ⟨coupled, compile_coupled⟩ with ⟨system, hsystem⟩
  rcases hsame coupled system compile_coupled hsystem with ⟨place, horder⟩
  rcases hokDeclared.mpr ⟨coupled, compile_coupled⟩ with ⟨declared, hcompile⟩
  rcases hsameDeclared coupled declared compile_coupled hcompile with ⟨other, hother⟩
  exact ⟨hclosed, hlines, ⟨system, place, hsystem, horder⟩,
    declared, other, hcompile, (hnumbered declared hcompile).1, hother⟩

end CompiledSystem

end ImplicitDynamics
