import ImplicitDynamics.Proofs.OperatorPrecedence

/-!
# Programs compute the value of their expression

The postfix code of an expression, run on a stack with whatever follows it, puts
the value of the expression on top or stops with its first error.  Together with
the tokens of a text and the program that they are shifted to, this makes the
value of the parsed tree the result of the program, for any arithmetic.
-/

namespace ImplicitDynamics

variable {α : Type}

structure Bindings.Covers (bindings : Bindings α) (scope : Program.Scope) : Prop where
  state : scope.vars.size ≤ bindings.state.length
  derivatives : scope.vars.size ≤ bindings.derivatives.length
  parameters : scope.parameters.size ≤ bindings.parameters.length

theorem lookup_zip (names : List String) (values : List α) (name : String) :
    (names.zip values).lookup name =
      (names.idxOf? name).bind fun index => values[index]? := by
  induction names generalizing values with
  | nil => rfl
  | cons first names ih =>
      cases values with
      | nil =>
          cases hindex : (first :: names).idxOf? name <;> simp
      | cons v values =>
          by_cases hname : name = first
          · subst hname
            simp [List.idxOf?, List.findIdx?_cons]
          · have hne : (name == first) = false := by simpa using hname
            have hne' : (first == name) = false := by simpa using Ne.symm hname
            rw [List.zip_cons_cons, List.lookup_cons, hne, ih values]
            simp only [List.idxOf?, List.findIdx?_cons, hne', Bool.false_eq_true, if_false]
            cases names.findIdx? (· == name) <;> simp

theorem SymbolTable.lookup_eq (table : SymbolTable) (values : List α) (name : String) :
    table.lookup values name = (table.indexOf? name).bind fun index => values[index]? :=
  lookup_zip table.names values name

theorem SymbolTable.lookup_eq_none {table : SymbolTable} {values : List α} {name : String}
    (hindex : table.indexOf? name = none) : table.lookup values name = none := by
  rw [SymbolTable.lookup_eq, hindex]
  rfl

theorem SymbolTable.load_eq_lookup {table : SymbolTable} {values : List α} {name : String}
    (hmem : name ∈ table.names) (hcovers : table.size ≤ values.length) :
    ∃ value, table.lookup values name = some value ∧
      Machine.load values (table.names.idxOf name) = .ok value := by
  have hindex : table.names.idxOf name < values.length :=
    Nat.lt_of_lt_of_le (List.idxOf_lt_length_of_mem hmem) hcovers
  refine ⟨values[table.names.idxOf name], ?_, ?_⟩
  · rw [SymbolTable.lookup_eq, SymbolTable.indexOf?_of_mem hmem]
    exact List.getElem?_eq_getElem hindex
  · rw [Machine.load, List.getElem?_eq_getElem hindex]

variable [Scalar α]

namespace Machine

/-- Code that, on any stack and before any other code, puts the value of `result`
on top or stops with its error. -/
def Yields (bindings : Bindings α) (code : List (Op α)) (result : Except (EvalError α) α) :
    Prop :=
  ∀ (rest : List (Op α)) (stack : List α),
    match result with
    | .ok value => steps bindings (code ++ rest) ⟨stack⟩ = steps bindings rest ⟨value :: stack⟩
    | .error cause => (steps bindings (code ++ rest) ⟨stack⟩).1 = .error cause

variable {bindings : Bindings α}

theorem Yields.push {op : Op α} {value : α}
    (hstep : ∀ stack, step op bindings ⟨stack⟩ = (.ok (), ⟨value :: stack⟩)) :
    Yields bindings [op] (.ok value) := by
  intro rest stack
  simp only [List.singleton_append, steps, hstep stack]

theorem Yields.call {code : List (Op α)} {result : Except (EvalError α) α}
    (hcode : Yields bindings code result) (f : Elementary) :
    Yields bindings (code ++ [.call f]) (result >>= applyCall f) := by
  intro rest stack
  cases result with
  | error cause =>
      rw [List.append_assoc]
      exact hcode _ stack
  | ok a =>
      rw [List.append_assoc, hcode _ stack]
      change match applyCall f a with
        | .ok value => steps bindings (.call f :: rest) ⟨a :: stack⟩ =
            steps bindings rest ⟨value :: stack⟩
        | .error cause => (steps bindings (.call f :: rest) ⟨a :: stack⟩).1 = .error cause
      simp only [steps, step]
      cases applyCall f a <;> simp [Machine.push]

theorem Yields.binary {leftCode rightCode : List (Op α)}
    {left right : Except (EvalError α) α} (hleft : Yields bindings leftCode left)
    (hright : Yields bindings rightCode right) (op : Binop) :
    Yields bindings (leftCode ++ (rightCode ++ [.binary op]))
      (left >>= fun a => right >>= fun b => applyBinary op a b) := by
  intro rest stack
  rw [List.append_assoc, List.append_assoc]
  cases left with
  | error cause => exact hleft _ stack
  | ok a =>
      rw [hleft _ stack]
      cases right with
      | error cause => exact hright _ (a :: stack)
      | ok b =>
          rw [hright _ (a :: stack)]
          change match applyBinary op a b with
            | .ok value => steps bindings (.binary op :: rest) ⟨b :: a :: stack⟩ =
                steps bindings rest ⟨value :: stack⟩
            | .error cause =>
                (steps bindings (.binary op :: rest) ⟨b :: a :: stack⟩).1 = .error cause
          simp only [steps, step]
          cases applyBinary op a b <;> simp [Machine.push]

theorem Yields.run_eq {program : Program α} {result : Except (EvalError α) α}
    (hyields : Yields bindings program.ops result) (machine : Machine α) :
    (run program bindings machine).1 = result := by
  have hsteps := hyields [] []
  rw [List.append_nil] at hsteps
  unfold run
  cases result with
  | ok value =>
      simp only at hsteps
      rw [show machine.clear = ⟨[]⟩ from rfl, hsteps]
      rfl
  | error cause =>
      simp only at hsteps
      rw [show machine.clear = ⟨[]⟩ from rfl]
      rcases hrun : steps bindings program.ops ⟨[]⟩ with ⟨outcome, left⟩
      rw [hrun] at hsteps
      simp only at hsteps
      subst hsteps
      rfl

end Machine

theorem Expr.yields_name {scope : Program.Scope} {bindings : Bindings α} {n : String}
    (hn : n = Name.time ∨ n ∈ scope.vars.names ∨ n ∈ scope.parameters.names)
    (hcovers : bindings.Covers scope) :
    Machine.Yields bindings [nameOp scope n] (nameValue scope bindings n) := by
  unfold nameOp nameValue
  by_cases htime : n = Name.time
  · rw [if_pos htime, if_pos htime]
    exact Machine.Yields.push fun stack => rfl
  · rw [if_neg htime, if_neg htime]
    by_cases hvar : n ∈ scope.vars.names
    · obtain ⟨value, hlookup, hload⟩ := SymbolTable.load_eq_lookup hvar hcovers.state
      rw [SymbolTable.indexOf?_of_mem hvar, hlookup]
      exact Machine.Yields.push fun stack => by simp [Machine.step, hload, Machine.push]
    · have hparameter : n ∈ scope.parameters.names :=
        (hn.resolve_left htime).resolve_left hvar
      have hindex : scope.vars.indexOf? n = none := by
        simp only [SymbolTable.indexOf?, List.idxOf?, List.findIdx?_eq_none_iff,
    beq_eq_false_iff_ne]
        exact fun other hother heq => hvar (heq ▸ hother)
      obtain ⟨value, hlookup, hload⟩ :=
        SymbolTable.load_eq_lookup hparameter hcovers.parameters
      rw [hindex, SymbolTable.lookup_eq_none hindex, hlookup]
      exact Machine.Yields.push fun stack => by simp [Machine.step, hload, Machine.push]

theorem Expr.yields_code {scope : Program.Scope} {bindings : Bindings α} {expr : Expr}
    (hscoped : expr.WellScoped scope) (hcovers : bindings.Covers scope) :
    Machine.Yields bindings (expr.code scope) (expr.value scope bindings) := by
  induction expr with
  | literal number => exact Machine.Yields.push fun stack => rfl
  | name n => exact Expr.yields_name hscoped hcovers
  | derivative n =>
      obtain ⟨slope, hlookup, hload⟩ :=
        SymbolTable.load_eq_lookup hscoped hcovers.derivatives
      rw [Expr.value, hlookup]
      exact Machine.Yields.push fun stack => by simp [Machine.step, hload, Machine.push]
  | call f argument ih => exact (ih hscoped).call f
  | negative operand ih =>
      have hminus : Machine.Yields bindings [.const Expr.minusOne] (.ok Expr.minusOne) :=
        Machine.Yields.push fun stack => rfl
      exact hminus.binary (ih hscoped) .mul
  | binary op left right ihLeft ihRight =>
      exact (ihLeft hscoped.1).binary (ihRight hscoped.2) op

/-- Whatever is written in the grammar of expressions with known names compiles,
and its program returns the value of the tree, or its first error. -/
theorem run_ofTokens_eq_value {scope : Program.Scope} {expr : Expr} {text : String}
    (hwritten : expr.IsWritten text) (hscoped : expr.WellScoped scope) :
    ∃ (tokens : List Token) (program : Program α),
      tokenize text = .ok tokens ∧
      Program.ofTokens tokens scope = .ok program ∧
      ∀ (bindings : Bindings α) (machine : Machine α), bindings.Covers scope →
        (Machine.run program bindings machine).1 = expr.value scope bindings := by
  obtain ⟨lexemes, hderives, hspells⟩ := hwritten
  obtain ⟨program, hprogram, hops⟩ := hderives.ofTokens_eq (α := α) hscoped
  refine ⟨_, program, tokenize_of_spells hspells, hprogram, ?_⟩
  intro bindings machine hcovers
  have hyields := Expr.yields_code hscoped hcovers
  rw [← hops] at hyields
  exact hyields.run_eq machine

/-- A sign right of a power takes in the power that follows its operand, and the
product comes last. -/
theorem run_ofTokens_eq_value_pow_negative :
    let x := Word.single 'x' (by decide)
    let y := Word.single 'y' (by decide)
    let k := Word.single 'k' (by decide)
    let two := WrittenNumber.single '2' (by decide)
    let expr : Expr :=
      .binary .mul
        (.binary .pow (.literal two) (.negative (.binary .pow (.name x.name) (.name y.name))))
        (.name k.name)
    let scope : Program.Scope := ⟨.ofList ["x", "y"], .ofList ["k"]⟩
    expr.IsWritten "2^-x^y *k" ∧ expr.WellScoped scope ∧
    ∃ (tokens : List Token) (program : Program Float),
      tokenize "2^-x^y *k" = .ok tokens ∧
      Program.ofTokens tokens scope = .ok program ∧
      ∀ (bindings : Bindings Float) (machine : Machine Float), bindings.Covers scope →
        (Machine.run program bindings machine).1 = expr.value scope bindings := by
  intro x y k two expr scope
  have hwritten : expr.IsWritten "2^-x^y *k" := by
    refine ⟨[.number two, .operator .pow, .operator .sub, .word x, .operator .pow, .word y,
      .operator .mul, .word k], ?_, ?_⟩
    · have hpower : Derives .signed (.binary .pow (.name x.name) (.name y.name)) _ :=
        .loosen (.binary .pow (.loosen (.name x (by decide))) (.name y (by decide)))
      have hsigned := Derives.powNegative (.loosen (.literal two)) hpower
      exact .loosen (.binary .mul (.loosen hsigned)
        (.loosen (.loosen (.name k (by decide)))))
    · have hend : Spells [] [] := .done (by simp)
      have hproduct : Spells [.operator .mul, .word k] [' ', '*', 'k'] :=
        ((hend.tight (by decide)).tight (by decide)).blank (by decide)
      exact (((((hproduct.tight (by decide)).tight (by decide)).tight (by decide)).tight
        (by decide)).tight (by decide)).tight (by decide)
  have hscoped : expr.WellScoped scope :=
    ⟨⟨trivial, .inr (.inl (by decide)), .inr (.inl (by decide))⟩, .inr (.inr (by decide))⟩
  exact ⟨hwritten, hscoped, run_ofTokens_eq_value hwritten hscoped⟩

end ImplicitDynamics
