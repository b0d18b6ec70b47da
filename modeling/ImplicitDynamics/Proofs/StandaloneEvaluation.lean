import ImplicitDynamics.Proofs.CompiledSystems
import ImplicitDynamics.Proofs.Exact

/-!
# Right sides evaluated by themselves

A row of the residual is computed from a program that is compiled once, for
parameters that are numbered when the system is made, and all rows share a
stack.  An expression that is evaluated by itself is read and compiled on the
spot, its parameters come in any order, and its stack is new.

Both number parameters in the order of their names, and a program clears the
stack before it runs.  So the row of an equation can be told from its right side
alone: whether it has a value, which one, and why not.
-/

namespace ImplicitDynamics

variable {α : Type}

namespace ParameterMap

theorem perm_setEntry {name : String} {value : α} {entries : List (String × α)}
    (hnew : name ∉ entries.map Prod.fst) :
    (setEntry name value entries).Perm ((name, value) :: entries) := by
  induction entries with
  | nil => exact .rfl
  | cons head rest ih =>
      obtain ⟨key, old⟩ := head
      rw [List.map_cons, List.mem_cons, not_or] at hnew
      unfold setEntry
      split
      · exact .rfl
      · rw [if_neg hnew.1]
        exact ((ih hnew.2).cons _).trans (.swap ..)

theorem perm_foldl_set {entries : List (String × α)} {parameters : ParameterMap α}
    (hnodup : ((parameters.entries ++ entries).map Prod.fst).Nodup) :
    (entries.foldl (fun parameters entry => parameters.set entry.1 entry.2)
      parameters).entries.Perm (parameters.entries ++ entries) := by
  induction entries generalizing parameters with
  | nil => simp
  | cons entry rest ih =>
      have hmiddle : (parameters.entries ++ entry :: rest).Perm
          (entry :: (parameters.entries ++ rest)) := List.perm_middle
      have hdistinct := (hmiddle.map Prod.fst).nodup_iff.mp hnodup
      rw [List.map_cons, List.nodup_cons, List.map_append, List.mem_append, not_or] at hdistinct
      have hset : (parameters.set entry.1 entry.2).entries.Perm (entry :: parameters.entries) :=
        perm_setEntry hdistinct.1.1
      have happend := (hset.append_right rest).trans hmiddle.symm
      exact (ih ((happend.map Prod.fst).nodup_iff.mpr hnodup)).trans happend

/-- A map does not depend on the order in which its entries are listed. -/
theorem ofList_eq_of_perm {parameters : ParameterMap α} {listed : List (String × α)}
    (hlisted : listed.Perm parameters.entries) : ofList listed = parameters := by
  have hnodup : (listed.map Prod.fst).Nodup :=
    (hlisted.map Prod.fst).nodup_iff.mpr parameters.symbols.nodup
  have hfold : (ofList listed).entries.Perm (empty.entries ++ listed) := perm_foldl_set hnodup
  have hperm : (ofList listed).entries.Perm parameters.entries := hfold.trans hlisted
  have hentries : (ofList listed).entries = parameters.entries :=
    hperm.eq_of_pairwise
      (fun a b _ _ hab hba => absurd (String.lt_trans hab hba) (String.lt_irrefl _))
      (ofList listed).sorted parameters.sorted
  cases hmap : ofList listed
  cases parameters
  simp_all

theorem entries_ofList_descending {first second : String} (hlt : second < first) (a b : α) :
    (ofList [(first, a), (second, b)]).entries = [(second, b), (first, a)] := by
  simp [ofList, set, setEntry, empty, hlt]

end ParameterMap

def Context.bindings (context : Context α) : Bindings α where
  time := context.time
  state := context.state
  derivatives := context.derivatives
  parameters := context.parameters.values

variable [Scalar α]

namespace Equation

/-- What evaluating the right side by itself gives. -/
def Evaluates (equation : Equation α) (vars : SymbolTable) (context : Context α)
    (result : Except (EvalError α) α) : Prop :=
  ∃ tokens, tokenize equation.expression = .ok tokens ∧ evaluate tokens vars context = result

/-- The row of a differential equation is its derivative less the value of its
right side, the row of an algebraic one is the value. -/
def RowHolds (equation : Equation α) (vars : SymbolTable) (context : Context α) (i : Nat)
    (slot : Option α) : Prop :=
  ∃ value, equation.Evaluates vars context (.ok value) ∧
    match equation.kind with
    | .differential => ∃ rate, context.derivatives[i]? = some rate ∧ slot = some (rate - value)
    | .algebraic => slot = some value

/-- The row of an equation whose program runs on a stack that is already there,
and the stack that it leaves. -/
def rowOn (equation : Equation α) (bindings : Bindings α) (machine : Machine α) :
    Except (EvalError α) α × Machine α :=
  match Machine.run equation.program bindings machine with
  | (.error cause, left) => (.error cause, left)
  | (.ok value, left) =>
    match equation.kind with
    | .differential => (.ok (bindings.derivatives.getD equation.index 0 - value), left)
    | .algebraic => (.ok value, left)

variable {equation : Equation α} {vars : SymbolTable} {context : Context α}
  {bindings : Bindings α}

theorem Evaluates.unique {first second : Except (EvalError α) α}
    (hfirst : equation.Evaluates vars context first)
    (hsecond : equation.Evaluates vars context second) : first = second := by
  obtain ⟨tokens, htokens, rfl⟩ := hfirst
  obtain ⟨others, hothers, rfl⟩ := hsecond
  rw [htokens] at hothers
  cases hothers
  rfl

theorem Faithful.evaluates
    (hfaithful : equation.Faithful ⟨vars, context.parameters.symbols⟩) :
    equation.Evaluates vars context (equation.program.eval context.bindings) := by
  obtain ⟨tokens, htokens, hprogram⟩ := hfaithful
  refine ⟨tokens, htokens, ?_⟩
  rw [evaluate, hprogram]
  rfl

theorem Faithful.evaluates_error
    (hfaithful : equation.Faithful ⟨vars, context.parameters.symbols⟩) {cause : EvalError α}
    (hrow : equation.row context.bindings = .error cause) :
    equation.Evaluates vars context (.error cause) := by
  have hevaluates := hfaithful.evaluates
  unfold row at hrow
  split at hrow
  · next hvalue =>
    cases hrow
    rwa [hvalue] at hevaluates
  · split at hrow <;> cases hrow

theorem Faithful.rowHolds
    (hfaithful : equation.Faithful ⟨vars, context.parameters.symbols⟩)
    (hindex : equation.index < context.derivatives.length) {value : α}
    (hrow : equation.row context.bindings = .ok value) :
    equation.RowHolds vars context equation.index (some value) := by
  have hevaluates := hfaithful.evaluates
  unfold row at hrow
  split at hrow
  · cases hrow
  · next right hright =>
    rw [hright] at hevaluates
    refine ⟨right, hevaluates, ?_⟩
    cases hkind : equation.kind with
    | differential =>
        rw [hkind] at hrow
        cases hrow
        refine ⟨_, List.getElem?_eq_getElem hindex, ?_⟩
        simp [Context.bindings, hindex]
    | algebraic =>
        rw [hkind] at hrow
        cases hrow
        rfl

theorem fst_rowOn (machine : Machine α) :
    (equation.rowOn bindings machine).1 = equation.row bindings := by
  have hrun : Machine.run equation.program bindings machine =
      Machine.run equation.program bindings ⟨[]⟩ := rfl
  unfold rowOn row Program.eval
  rw [hrun]
  split
  · next hfailed => rw [hfailed]
  · next hvalue =>
    rw [hvalue]
    cases equation.kind <;> rfl

end Equation

/-! ## All rows -/

namespace CompiledSystem

/-- Writes the rows like `writeRows`, with one stack that all programs run on. -/
def writeRowsOn (bindings : Bindings α) : Machine α → List (Equation α) → List α →
    Written α × Machine α
  | machine, equation :: equations, slot :: slots =>
    match equation.rowOn bindings machine with
    | (.error cause, left) => (⟨slot :: slots, some cause⟩, left)
    | (.ok value, left) =>
      let rest := writeRowsOn bindings left equations slots
      (⟨value :: rest.1.out, rest.1.failure⟩, rest.2)
  | machine, _, slots => (⟨slots, none⟩, machine)

theorem fst_writeRowsOn (bindings : Bindings α) (machine : Machine α)
    (equations : List (Equation α)) (slots : List α) :
    (writeRowsOn bindings machine equations slots).1 = writeRows bindings equations slots := by
  induction equations generalizing machine slots with
  | nil => rfl
  | cons equation equations ih =>
      cases slots with
      | nil => rfl
      | cons slot slots =>
          rw [writeRowsOn, writeRows, ← equation.fst_rowOn machine]
          split
          · next hrow => rw [hrow]
          · next left hrow =>
            rw [hrow]
            simp only [ih]

variable {bindings : Bindings α} {equations : List (Equation α)} {slots : List α}

/-- If writing stops, it is at a row that has no value, with the rows before it
written and the others as they were. -/
theorem exists_of_failure_writeRows (hslots : slots.length = equations.length)
    {cause : EvalError α} (hfailure : (writeRows bindings equations slots).failure = some cause) :
    ∃ (i : Nat) (equation : Equation α), equations[i]? = some equation ∧
      equation.row bindings = .error cause ∧
      (∀ k < i, ∀ other : Equation α, equations[k]? = some other → ∃ value,
        other.row bindings = .ok value ∧
          (writeRows bindings equations slots).out[k]? = some value) ∧
      ∀ k, i ≤ k → (writeRows bindings equations slots).out[k]? = slots[k]? := by
  induction equations generalizing slots with
  | nil => cases hfailure
  | cons equation equations ih =>
      cases slots with
      | nil => cases hslots
      | cons slot slots =>
          rw [writeRows] at hfailure ⊢
          cases hrow : equation.row bindings with
          | error found =>
              rw [hrow] at hfailure
              cases hfailure
              exact ⟨0, equation, rfl, hrow, fun k hk => absurd hk (Nat.not_lt_zero k),
                fun k _ => rfl⟩
          | ok value =>
              rw [hrow] at hfailure
              obtain ⟨i, failing, hfailing, hcause, hbefore, hafter⟩ :=
                ih (by simpa using hslots) hfailure
              refine ⟨i + 1, failing, hfailing, hcause, fun k hk other hother => ?_,
                fun k hk => ?_⟩
              · cases k with
                | zero =>
                    cases hother
                    exact ⟨value, hrow, rfl⟩
                | succ k => exact hbefore k (Nat.lt_of_succ_lt_succ hk) other hother
              · cases k with
                | zero => cases hk
                | succ k => exact hafter k (Nat.le_of_succ_le_succ hk)

theorem row_of_writeRows (hslots : slots.length = equations.length)
    (hwritten : (writeRows bindings equations slots).failure = none) {i : Nat}
    {equation : Equation α} (hi : equations[i]? = some equation) :
    ∃ value, equation.row bindings = .ok value ∧
      (writeRows bindings equations slots).out[i]? = some value := by
  have hrows := forall₂_of_writeRows hslots hwritten
  obtain ⟨hbound, rfl⟩ := List.getElem?_eq_some_iff.mp hi
  have hvalue := hrows.get hbound (hrows.length_eq ▸ hbound)
  exact ⟨_, hvalue, List.getElem?_eq_getElem _⟩

theorem parameters_of_ofStatements {parameters : ParameterMap α} {vars : SymbolTable}
    {statements : List Statement} {system : CompiledSystem α}
    (hsystem : ofStatements parameters vars statements = .ok system) :
    system.parameters = parameters := by
  rcases ofStatements_eq_ok_iff.mp hsystem with ⟨-, equations, -, rfl⟩
  rfl

/-- A system as it is compiled for certain parameters. -/
def CompiledFor (parameters : ParameterMap α) (system : CompiledSystem α) : Prop :=
  ∃ lines, compile parameters lines = .ok system ∨
    ∃ declared, compileDeclared parameters lines declared = .ok system

theorem CompiledFor.isCompiled {parameters : ParameterMap α} {system : CompiledSystem α}
    (hsystem : system.CompiledFor parameters) : system.IsCompiled := by
  obtain ⟨lines, hcompile | ⟨declared, hcompile⟩⟩ := hsystem
  · exact .compile hcompile
  · exact .compileDeclared hcompile

theorem CompiledFor.parameters_eq {parameters : ParameterMap α} {system : CompiledSystem α}
    (hsystem : system.CompiledFor parameters) : system.parameters = parameters := by
  obtain ⟨lines, hcompile | ⟨declared, hcompile⟩⟩ := hsystem
  · rcases compile_eq_ok_iff.mp hcompile with ⟨statements, -, hstatements⟩
    exact parameters_of_ofStatements hstatements
  · rcases compileDeclared_eq_ok_iff.mp hcompile with ⟨statements, -, -, hstatements⟩
    exact parameters_of_ofStatements hstatements

theorem residual_eq_writeRows {system : CompiledSystem α} {t : α} {y yp out : List α}
    (hy : y.length = system.dimension) (hyp : yp.length = system.dimension)
    (hout : out.length = system.dimension) :
    system.toResidual.residual t y yp out =
      writeRows (system.bindings t y yp) system.equations out := by
  simp only [toResidual, ResidualSystem.mismatch?_eq_none_iff.mpr ⟨hy, hyp, hout⟩]
  rfl

namespace Sound

variable {system : CompiledSystem α} {context : Context α} {out : List α}
  {i : Nat} {equation : Equation α}

theorem faithful_context (hsound : system.Sound)
    (hparameters : context.parameters = system.parameters)
    (hi : system.equations[i]? = some equation) :
    equation.Faithful ⟨system.vars, context.parameters.symbols⟩ := by
  rw [hparameters]
  exact hsound.faithful equation (List.mem_of_getElem? hi)

theorem rowHolds (hsound : system.Sound) (hparameters : context.parameters = system.parameters)
    (hrates : context.derivatives.length = system.dimension)
    (hi : system.equations[i]? = some equation) {value : α}
    (hrow : equation.row context.bindings = .ok value) :
    equation.RowHolds system.vars context i (some value) := by
  have hfaithful := hsound.faithful_context hparameters hi
  obtain rfl := hsound.index i equation hi
  refine hfaithful.rowHolds ?_ hrow
  rw [hrates]
  exact (List.getElem?_eq_some_iff.mp hi).1

theorem rowHolds_of_writeRows (hsound : system.Sound)
    (hparameters : context.parameters = system.parameters)
    (hrates : context.derivatives.length = system.dimension)
    (hout : out.length = system.dimension)
    (hwritten : (writeRows context.bindings system.equations out).failure = none)
    (hi : system.equations[i]? = some equation) :
    equation.RowHolds system.vars context i
      (writeRows context.bindings system.equations out).out[i]? := by
  obtain ⟨value, hrow, hslot⟩ := row_of_writeRows hout hwritten hi
  rw [hslot]
  exact hsound.rowHolds hparameters hrates hi hrow

/-- Where writing stops, the right side has no value either, and before it all
have. -/
theorem exists_of_failure (hsound : system.Sound)
    (hparameters : context.parameters = system.parameters)
    (hrates : context.derivatives.length = system.dimension)
    (hout : out.length = system.dimension) {cause : EvalError α}
    (hfailure : (writeRows context.bindings system.equations out).failure = some cause) :
    ∃ (i : Nat) (equation : Equation α), system.equations[i]? = some equation ∧
      equation.Evaluates system.vars context (.error cause) ∧
      (∀ k < i, ∀ other : Equation α, system.equations[k]? = some other →
        other.RowHolds system.vars context k
          (writeRows context.bindings system.equations out).out[k]?) ∧
      ∀ k, i ≤ k → (writeRows context.bindings system.equations out).out[k]? = out[k]? := by
  obtain ⟨i, equation, hi, hrow, hbefore, hafter⟩ := exists_of_failure_writeRows hout hfailure
  refine ⟨i, equation, hi, (hsound.faithful_context hparameters hi).evaluates_error hrow, ?_,
    hafter⟩
  intro k hk other hother
  obtain ⟨value, hvalue, hslot⟩ := hbefore k hk other hother
  rw [hslot]
  exact hsound.rowHolds hparameters hrates hother hvalue

theorem failure_eq_none_iff (hsound : system.Sound)
    (hparameters : context.parameters = system.parameters)
    (hrates : context.derivatives.length = system.dimension)
    (hout : out.length = system.dimension) :
    (writeRows context.bindings system.equations out).failure = none ↔
      ∀ equation ∈ system.equations,
        ∃ value, equation.Evaluates system.vars context (.ok value) := by
  constructor
  · intro hwritten equation hequation
    obtain ⟨i, hi⟩ := List.mem_iff_getElem?.mp hequation
    obtain ⟨value, hvalue, -⟩ :=
      hsound.rowHolds_of_writeRows hparameters hrates hout hwritten hi
    exact ⟨value, hvalue⟩
  · intro hvalues
    cases hfailure : (writeRows context.bindings system.equations out).failure with
    | none => rfl
    | some cause =>
        obtain ⟨i, equation, hi, hfails, -⟩ :=
          hsound.exists_of_failure hparameters hrates hout hfailure
        obtain ⟨value, hvalue⟩ := hvalues equation (List.mem_of_getElem? hi)
        cases hvalue.unique hfails

end Sound

/-- The residual writes what the right sides give when they are evaluated by
themselves, one after the other, and stops where the first of them fails. -/
theorem residual_agrees_with_evaluate {given listed : List (String × α)}
    {system : CompiledSystem α} (hsystem : system.CompiledFor (.ofList given))
    (hlisted : listed.Perm (ParameterMap.ofList given).entries) (t : α) {y yp out : List α}
    (hy : y.length = system.dimension) (hyp : yp.length = system.dimension)
    (hout : out.length = system.dimension) :
    let context : Context α := ⟨t, y, yp, .ofList listed⟩
    let written := system.toResidual.residual t y yp out
    (written.failure = none ↔ ∀ equation ∈ system.equations,
        ∃ value, equation.Evaluates system.vars context (.ok value)) ∧
      (written.failure = none → ∀ (i : Nat) (equation : Equation α),
        system.equations[i]? = some equation →
          equation.RowHolds system.vars context i written.out[i]?) ∧
      (∀ cause, written.failure = some cause → ∃ (i : Nat) (equation : Equation α),
        system.equations[i]? = some equation ∧
          equation.Evaluates system.vars context (.error cause) ∧
          (∀ k < i, ∀ other : Equation α, system.equations[k]? = some other →
            other.RowHolds system.vars context k written.out[k]?) ∧
          ∀ k, i ≤ k → written.out[k]? = out[k]?) ∧
      ∀ machine, (writeRowsOn context.bindings machine system.equations out).1 = written := by
  intro context written
  have hsound := hsystem.isCompiled.sound
  have hparameters : context.parameters = system.parameters :=
    (ParameterMap.ofList_eq_of_perm hlisted).trans hsystem.parameters_eq.symm
  have hwritten : written = writeRows context.bindings system.equations out := by
    rw [Context.bindings, hparameters]
    exact residual_eq_writeRows hy hyp hout
  rw [hwritten]
  exact ⟨hsound.failure_eq_none_iff hparameters hyp hout,
    fun hnone i equation => hsound.rowHolds_of_writeRows hparameters hyp hout hnone,
    fun cause => hsound.exists_of_failure hparameters hyp hout,
    fun machine => fst_writeRowsOn context.bindings machine system.equations out⟩

/-- Three rows, of which the second has no value where `x` is negative. -/
def rooted (k b : α) : CompiledSystem α where
  vars := .ofList ["x", "y", "z"]
  parameters := .ofList [("k", k), ("b", b)]
  equations :=
    [⟨"x", 0, .differential, "der(x) = b", "b", ⟨[.parameter 0], 1⟩⟩,
      ⟨"y", 1, .algebraic, "y = sqrt(x)", "sqrt(x)", ⟨[.variable 0, .call .sqrt], 1⟩⟩,
      ⟨"z", 2, .algebraic, "z = k", "k", ⟨[.parameter 1], 1⟩⟩]

theorem compile_rooted (k b : α) : compile (.ofList [("k", k), ("b", b)])
    ["der(x) = b", "y = sqrt(x)", "z = k"] = .ok (rooted k b) := by
  let statements : List Statement :=
    [⟨"der(x) = b", "x", .differential, "b", [⟨.identifier, "b", 0, false⟩]⟩,
      ⟨"y = sqrt(x)", "y", .algebraic, "sqrt(x)",
        [⟨.function, "sqrt", 0, false⟩, ⟨.leftParen, "(", 0, false⟩,
          ⟨.identifier, "x", 0, false⟩, ⟨.rightParen, ")", 0, false⟩]⟩,
      ⟨"z = k", "z", .algebraic, "k", [⟨.identifier, "k", 0, false⟩]⟩]
  have hentries := ParameterMap.entries_ofList_descending (show "b" < "k" by decide) k b
  have hsymbols : (ParameterMap.ofList [("k", k), ("b", b)]).symbols =
      ⟨["b", "k"], by decide⟩ := by
    simp [ParameterMap.symbols, hentries]
  have hcontains : (ParameterMap.ofList [("k", k), ("b", b)]).contains =
      fun name => ["b", "k"].contains name := by
    funext name
    simp [ParameterMap.contains, hentries, eq_comm]
  have hlines : Statement.parseLines (ParameterMap.ofList [("k", k), ("b", b)]).contains
      ["der(x) = b", "y = sqrt(x)", "z = k"] = .ok statements := by
    rw [hcontains]
    with_unfolding_all rfl
  have hknown : Statement.undefinedSymbols (.ofList ["x", "y", "z"])
      (ParameterMap.ofList [("k", k), ("b", b)]).contains statements = [] := by
    rw [hcontains]
    with_unfolding_all rfl
  have hequations : Equation.compileAll (α := α)
      ⟨.ofList ["x", "y", "z"], ParameterMap.symbols (.ofList [("k", k), ("b", b)])⟩ 0
      statements = .ok (rooted k b).equations := by
    rw [hsymbols]
    with_unfolding_all rfl
  exact compile_of_statements hlines hknown hequations

theorem residual_rooted (k b : ℝ) :
    (rooted k b).toResidual.residual 0 [-1, 5, 6] [7, 8, 9] [0, 0, 0] =
      ⟨[7 - b, 0, 0], some (.negativeSqrt (-1))⟩ := by
  have hnegative : Machine.applyCall .sqrt (-1 : ℝ) = .error (.negativeSqrt (-1)) := by
    refine if_pos ?_
    rw [Exact.lt_iff, Exact.zero_eq]
    norm_num
  have hroot : Equation.row ⟨"y", 1, .algebraic, "y = sqrt(x)", "sqrt(x)",
      ⟨[.variable 0, .call .sqrt], 1⟩⟩ ((rooted k b).bindings 0 [-1, 5, 6] [7, 8, 9]) =
        .error (.negativeSqrt (-1)) := by
    simp only [Equation.row, Program.eval, Machine.run, Machine.clear, Machine.steps,
      Machine.step, Machine.load, Machine.push, bindings, List.getElem?_cons_zero, hnegative]
  have hvalues : (rooted k b).parameters.values = [b, k] := by
    rw [ParameterMap.values, rooted, ParameterMap.entries_ofList_descending (by decide)]
    rfl
  have hfirst : Equation.row ⟨"x", 0, .differential, "der(x) = b", "b", ⟨[.parameter 0], 1⟩⟩
      ((rooted k b).bindings 0 [-1, 5, 6] [7, 8, 9]) = .ok (7 - b) := by
    rw [bindings, hvalues]
    rfl
  rw [residual_eq_writeRows rfl rfl rfl, rooted, writeRows, writeRows, ← rooted, hfirst, hroot]

/-- The second row fails: the first holds its value, the others are as they
were. -/
theorem residual_agrees_with_evaluate_root :
    let given : List (String × ℝ) := [("k", 3), ("b", 2)]
    let system : CompiledSystem ℝ := rooted 3 2
    let context : Context ℝ := ⟨0, [-1, 5, 6], [7, 8, 9], .ofList given⟩
    let written := system.toResidual.residual 0 [-1, 5, 6] [7, 8, 9] [0, 0, 0]
    system.CompiledFor (.ofList given) ∧ given.Perm (ParameterMap.ofList given).entries ∧
      written.failure = some (.negativeSqrt (-1)) ∧ written.out = [7 - 2, 0, 0] ∧
      ∃ (i : Nat) (equation : Equation ℝ), system.equations[i]? = some equation ∧
        equation.Evaluates system.vars context (.error (.negativeSqrt (-1))) ∧
        (∀ k < i, ∀ other : Equation ℝ, system.equations[k]? = some other →
          other.RowHolds system.vars context k written.out[k]?) ∧
        ∀ k, i ≤ k → written.out[k]? = [(0 : ℝ), 0, 0][k]? := by
  intro given system context written
  have hsystem : system.CompiledFor (.ofList given) := ⟨_, .inl (compile_rooted 3 2)⟩
  have hlisted : given.Perm (ParameterMap.ofList given).entries := .swap ..
  have hwritten : written = ⟨[7 - 2, 0, 0], some (.negativeSqrt (-1))⟩ := residual_rooted 3 2
  have hfailure : written.failure = some (.negativeSqrt (-1)) := congrArg Written.failure hwritten
  have hy : [(-1 : ℝ), 5, 6].length = system.dimension := rfl
  have hyp : [(7 : ℝ), 8, 9].length = system.dimension := rfl
  have hout : [(0 : ℝ), 0, 0].length = system.dimension := rfl
  have hagrees := residual_agrees_with_evaluate hsystem hlisted 0 hy hyp hout
  exact ⟨hsystem, hlisted, hfailure, congrArg Written.out hwritten,
    hagrees.2.2.1 _ hfailure⟩

end CompiledSystem

end ImplicitDynamics
