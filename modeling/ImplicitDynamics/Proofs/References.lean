import ImplicitDynamics.FiniteDifference
import ImplicitDynamics.Proofs.CompiledSystems

/-!
# What an expression refers to

A name in an expression refers to the state of a variable, or to its derivative
if it stands in parentheses after the word for one.  A program loads a state or
a derivative only if a name of its expression refers to it.  Whatever it does
not load may take any value: the run stays the same, step by step, and with it
the row of the residual.
-/

namespace ImplicitDynamics

variable {α : Type}

namespace Reference

/-- The word for a derivative is not among the last two tokens, where it would
make the next name its target. -/
def Free (before : List Token) : Prop :=
  ∀ token ∈ before.reverse.take 2, Program.isDerivative token = false

def ToState (tokens : List Token) (name : String) : Prop :=
  ∃ before token after, tokens = before ++ token :: after ∧ token.kind = .identifier ∧
    token.text = name ∧ Free before

def ToDerivative (tokens : List Token) (name : String) : Prop :=
  ∃ before word opening target closing after,
    tokens = before ++ word :: opening :: target :: closing :: after ∧
      Program.isDerivative word = true ∧ opening.kind = .leftParen ∧
      target.kind = .identifier ∧ target.text = name ∧ closing.kind = .rightParen

variable {before tokens : List Token} {name : String}

theorem Free.concat {token : Token} (hbefore : Free before)
    (htoken : Program.isDerivative token = false) : Free (before ++ [token]) := by
  intro other hother
  rw [List.reverse_concat, List.take_succ_cons, List.mem_cons] at hother
  rcases hother with rfl | hother
  · exact htoken
  · exact hbefore other ((List.take_prefix_take_left (by decide)).subset hother)

theorem free_append_pair {first second : Token} (hfirst : Program.isDerivative first = false)
    (hsecond : Program.isDerivative second = false) : Free (before ++ [first, second]) := by
  intro other hother
  simp only [List.reverse_append, List.reverse_cons, List.reverse_nil, List.nil_append,
    List.cons_append, List.take_succ_cons, List.take_zero, List.mem_cons,
    List.not_mem_nil, or_false] at hother
  rcases hother with rfl | rfl
  · exact hsecond
  · exact hfirst

theorem ToState.append (hstate : ToState tokens name) (more : List Token) :
    ToState (tokens ++ more) name := by
  rcases hstate with ⟨before, token, after, rfl, hkind, htext, hfree⟩
  exact ⟨before, token, after ++ more, by simp, hkind, htext, hfree⟩

theorem ToDerivative.append (hderivative : ToDerivative tokens name) (more : List Token) :
    ToDerivative (tokens ++ more) name := by
  rcases hderivative with ⟨before, word, opening, target, closing, after, rfl, hrest⟩
  exact ⟨before, word, opening, target, closing, after ++ more, by simp, hrest⟩

end Reference

/-- If the operation loads a state or a derivative, one of the tokens refers to
it. -/
def Op.Backed (scope : Program.Scope) (tokens : List Token) : Op α → Prop
  | .variable index =>
    ∃ name, scope.vars.name? index = some name ∧ Reference.ToState tokens name
  | .derivative index =>
    ∃ name, scope.vars.name? index = some name ∧ Reference.ToDerivative tokens name
  | _ => True

namespace Program

variable {scope : Scope} {before taken tokens : List Token}

theorem backed_append {op : Op α} (hop : op.Backed scope tokens) (more : List Token) :
    op.Backed scope (tokens ++ more) := by
  cases op with
  | «variable» index =>
      rcases hop with ⟨name, hname, hstate⟩
      exact ⟨name, hname, hstate.append more⟩
  | derivative index =>
      rcases hop with ⟨name, hname, hderivative⟩
      exact ⟨name, hname, hderivative.append more⟩
  | _ => trivial

variable [Scalar α] {pending waiting : List Pending} {code : List (Op α)}

theorem Move.free (hmove : Move scope taken pending waiting code)
    (hbefore : Reference.Free before) : Reference.Free (before ++ taken) := by
  have hplain : ∀ {token : Token}, token.kind ≠ .function → Reference.Free (before ++ [token]) :=
    fun hkind => hbefore.concat (isDerivative_of_kind hkind)
  cases hmove with
  | number hkind hop => exact hplain (by simp [hkind])
  | name hkind hop => exact hplain (by simp [hkind])
  | @derivative word opening name closing _ _ hword hopening hname hclosing hop =>
      rw [show [word, opening, name, closing] = [word, opening] ++ [name, closing] from rfl,
        ← List.append_assoc]
      exact Reference.free_append_pair (isDerivative_of_kind (by simp [hname]))
        (isDerivative_of_kind (by simp [hclosing]))
  | call hkind hword hf hopening =>
      exact Reference.free_append_pair hword (isDerivative_of_kind (by simp [hopening]))
  | operator hkind hop hpopped hunary => exact hplain (by simp [hkind])
  | leftParen hkind => exact hplain (by simp [hkind])
  | closeCall hkind hpopped => exact hplain (by simp [hkind])
  | close hkind hpopped hbelow => exact hplain (by simp [hkind])
  | comma hkind hpopped => exact hplain (by simp [hkind])

theorem Move.backed (hmove : Move scope taken pending waiting code)
    (hbefore : Reference.Free before) : ∀ op ∈ code, op.Backed scope (before ++ taken) := by
  have hcode : ∀ {popped : List Pending}, ∀ op ∈ Pending.code (α := α) popped,
      op.Backed scope (before ++ taken) :=
    Pending.forall_code (fun _ => trivial) fun _ => trivial
  cases hmove with
  | number hkind hop =>
      rcases constant_eq_ok hop with ⟨value, -, rfl⟩
      simp [Op.Backed]
  | @name token _ _ hkind hop =>
      rw [List.forall_mem_singleton]
      rcases resolve_eq_ok hop with rfl | ⟨index, hindex, rfl⟩ | ⟨index, hindex, rfl⟩
      · trivial
      · exact ⟨token.text, SymbolTable.indexOf?_eq_some_iff.mp hindex, before, token, [], rfl,
          hkind, rfl, hbefore⟩
      · trivial
  | @derivative word opening name closing _ _ hword hopening hname hclosing hop =>
      rw [List.forall_mem_singleton]
      rcases resolveDerivative_eq_ok hop with ⟨index, hindex, rfl⟩
      exact ⟨name.text, SymbolTable.indexOf?_eq_some_iff.mp hindex, before, word, opening, name,
        closing, [], rfl, hword, hopening, hname, rfl, hclosing⟩
  | call hkind hword hf hopening => simp
  | operator hkind hop hpopped hunary => exact hcode
  | leftParen hkind => simp
  | closeCall hkind hpopped =>
      rw [List.forall_mem_append, List.forall_mem_singleton]
      exact ⟨hcode, trivial⟩
  | close hkind hpopped hbelow => exact hcode
  | comma hkind hpopped => exact hcode

/-- Each state and each derivative that a program loads is referred to in the
tokens that the program is made from. -/
theorem backed_of_ofTokens {program : Program α}
    (hprogram : ofTokens tokens scope = .ok program) :
    ∀ op ∈ program.ops, op.Backed scope tokens := by
  rcases ofTokens_cases hprogram with ⟨pending, emitter, final, hshift, -, hcode, -, rfl⟩
  have hemitter : Reference.Free tokens ∧ emitter.Satisfies (Op.Backed scope tokens) := by
    apply shiftAll_invariant (fun before _ emitter =>
      Reference.Free before ∧ emitter.Satisfies (Op.Backed scope before)) _ _ hshift
    · constructor
      · intro token htoken
        cases htoken
      · intro op hop
        cases hop
    · intro before taken pending waiting code emitter next hbefore hmove hemit
      refine ⟨hmove.free hbefore.1, Emitter.Satisfies.emitAll ?_ (hmove.backed hbefore.1) hemit⟩
      intro op hop
      exact backed_append (hbefore.2 op hop) taken
  exact hemitter.2.emitAll (Pending.forall_code (fun _ => trivial) fun _ => trivial) hcode

end Program

/-! ## What is not loaded has no influence -/

theorem Machine.load_modify_of_ne [Scalar α] {values : List α} {index j : Nat}
    (hindex : index ≠ j) (f : α → α) : load (values.modify j f) index = load values index := by
  rw [load, load, List.getElem?_modify_ne f values (Ne.symm hindex), List.length_modify]

/-- The bindings at a point of which one coordinate is moved. -/
def Bindings.move [Scalar α] (bindings : Bindings α) (perturbation : Perturbation α) (j : Nat)
    (h : α) : Bindings α :=
  let moved := (Scratch.mk bindings.state bindings.derivatives []).move perturbation j h
  { bindings with state := moved.state, derivatives := moved.derivatives }

namespace Equation

variable [Scalar α] {equation : Equation α}

/-- The right side of an equation has a name with this kind of reference. -/
def Refers (equation : Equation α) (reference : List Token → String → Prop)
    (name : String) : Prop :=
  ∃ tokens, tokenize equation.expression = .ok tokens ∧ reference tokens name

theorem row_congr {left right : Bindings α}
    (hops : ∀ op ∈ equation.program.ops, op.loaded left = op.loaded right)
    (hslope : equation.kind = .differential →
      left.derivatives.getD equation.index 0 = right.derivatives.getD equation.index 0) :
    equation.row left = equation.row right := by
  have heval : equation.program.eval left = equation.program.eval right := by
    unfold Program.eval Machine.run
    rw [Machine.steps_congr hops]
  unfold row
  rw [heval]
  cases equation.program.eval right with
  | error cause => rfl
  | ok value =>
      cases hkind : equation.kind with
      | differential => simp only [hslope hkind]
      | algebraic => rfl

/-- A state that the program of an equation does not load may be moved. -/
theorem row_move_state (bindings : Bindings α) {j : Nat}
    (hfree : .variable j ∉ equation.program.ops) (h : α) :
    equation.row (bindings.move .state j h) = equation.row bindings := by
  refine row_congr ?_ fun _ => rfl
  intro op hop
  cases op with
  | «variable» index =>
      have hindex : index ≠ j := by
        rintro rfl
        exact hfree hop
      exact congrArg some (Machine.load_modify_of_ne hindex (· + h))
  | _ => rfl

/-- So may a derivative, unless the equation is the one that defines it. -/
theorem row_move_derivative (bindings : Bindings α) {j : Nat}
    (hfree : .derivative j ∉ equation.program.ops)
    (hother : equation.kind = .differential → equation.index ≠ j) (h : α) :
    equation.row (bindings.move .derivative j h) = equation.row bindings := by
  apply row_congr
  · intro op hop
    cases op with
    | derivative index =>
        have hindex : index ≠ j := by
          rintro rfl
          exact hfree hop
        exact congrArg some (Machine.load_modify_of_ne hindex (· + h))
    | _ => rfl
  · intro hkind
    have hslope : (bindings.derivatives.modify j (· + h))[equation.index]? =
        bindings.derivatives[equation.index]? :=
      List.getElem?_modify_ne _ _ (Ne.symm (hother hkind))
    simp only [Bindings.move, Scratch.move, List.getD_eq_getElem?_getD, hslope]

/-- What the program of an equation loads is referred to in its right side. -/
theorem Faithful.backed {scope : Program.Scope} (hfaithful : equation.Faithful scope) :
    ∃ tokens, tokenize equation.expression = .ok tokens ∧
      ∀ op ∈ equation.program.ops, op.Backed scope tokens := by
  rcases hfaithful with ⟨tokens, htokens, hprogram⟩
  exact ⟨tokens, htokens, Program.backed_of_ofTokens hprogram⟩

end Equation

end ImplicitDynamics
