import ImplicitDynamics.Equation.Rebinding
import ImplicitDynamics.Proofs.AcceptedSystems
import ImplicitDynamics.Proofs.StandaloneEvaluation

/-!
# Rebinding is compiling again

A program knows a parameter only by its place in the order of names.  A value that is
put in the place of a name is the value of that name, and no name moves.  Compiling
looks at the names of parameters and never at their values, so it finds the same
equations for the changed values, and the system is the one that rebinding has left.
-/

namespace ImplicitDynamics

variable {α : Type}

namespace ParameterMap

variable {parameters : ParameterMap α} {name : String} {value : α} {place : Nat}

theorem modify_eq_setEntry {entries : List (String × α)}
    (hsorted : entries.Pairwise fun a b => a.1 < b.1)
    (hplace : (entries.map Prod.fst).idxOf? name = some place) (value : α) :
    entries.modify place (fun entry => (entry.1, value)) = setEntry name value entries := by
  induction entries generalizing place with
  | nil => simp at hplace
  | cons entry rest ih =>
      obtain ⟨key, old⟩ := entry
      obtain ⟨hbelow, hrest⟩ := List.pairwise_cons.mp hsorted
      rw [List.map_cons, List.idxOf?_cons] at hplace
      by_cases hkey : key = name
      · subst hkey
        simp only [beq_self_eq_true, if_true, Option.some.injEq] at hplace
        subst hplace
        simp [setEntry]
      · obtain ⟨below, hbelowPlace, rfl⟩ : ∃ below,
            (rest.map Prod.fst).idxOf? name = some below ∧ below + 1 = place := by
          simpa [hkey] using hplace
        have hmem : name ∈ rest.map Prod.fst := by
          rw [← List.isSome_idxOf?, hbelowPlace]
          rfl
        obtain ⟨later, hlater, rfl⟩ := List.mem_map.mp hmem
        have hlt : key < later.1 := hbelow later hlater
        have hnot : ¬ later.1 < key := fun h => String.lt_irrefl _ (String.lt_trans hlt h)
        rw [List.modify_succ_cons, ih hrest hbelowPlace, setEntry, if_neg hnot,
          if_neg (Ne.symm hkey)]

/-- The value in the place of a name is its value. -/
theorem replaceAt_eq_set (hplace : parameters.symbols.indexOf? name = some place) (value : α) :
    parameters.replaceAt place value = parameters.set name value := by
  simp only [replaceAt, set, modify_eq_setEntry parameters.sorted hplace value]

theorem contains_eq_isSome (parameters : ParameterMap α) (name : String) :
    parameters.contains name = (parameters.symbols.indexOf? name).isSome := by
  rw [Bool.eq_iff_iff, contains_iff, SymbolTable.indexOf?, List.isSome_idxOf?]

theorem getElem?_values_idxOf (entries : List (String × α)) (name : String) :
    (((entries.map Prod.fst).idxOf? name).bind fun place => (entries.map Prod.snd)[place]?) =
      (entries.find? fun entry => entry.1 = name).map Prod.snd := by
  induction entries with
  | nil => rfl
  | cons entry rest ih =>
      rw [List.map_cons, List.map_cons, List.idxOf?_cons, List.find?_cons]
      by_cases hname : entry.1 = name
      · simp [hname]
      · simpa [hname, Option.bind_map, Function.comp_def] using ih

theorem contains_set (hcontains : parameters.contains name = true) (value : α) :
    (parameters.set name value).contains = parameters.contains := by
  funext other
  rw [Bool.eq_iff_iff, contains_iff, contains_iff, symbols_set hcontains]

/-- The map after calls, of which those for names that are not in it change nothing. -/
def updated (parameters : ParameterMap α) (calls : List (String × α)) : ParameterMap α :=
  (calls.filter fun call => parameters.contains call.1).foldl
    (fun changed call => changed.set call.1 call.2) parameters

theorem updated_cons_of_contains (hcontains : parameters.contains name = true)
    (calls : List (String × α)) :
    parameters.updated ((name, value) :: calls) = (parameters.set name value).updated calls := by
  simp only [updated, List.filter_cons, hcontains, if_true, List.foldl_cons,
    contains_set hcontains]

theorem updated_cons_of_not_contains (hcontains : parameters.contains name = false)
    (calls : List (String × α)) :
    parameters.updated ((name, value) :: calls) = parameters.updated calls := by
  simp [updated, hcontains]

end ParameterMap

namespace CompiledSystem

/-- What is found in the place of a name is what the name stands for. -/
theorem valueOf?_eq_parameter? (system : CompiledSystem α) (name : String) :
    system.valueOf? name = system.parameter? name :=
  ParameterMap.getElem?_values_idxOf system.parameters.entries name

theorem rebind_eq (system : CompiledSystem α) (name : String) (value : α) :
    system.rebind name value =
      (system.parameters.contains name, system.setParameter name value) := by
  rw [rebind, setParameter, ParameterMap.contains_eq_isSome]
  cases hplace : system.parameters.symbols.indexOf? name with
  | none => rfl
  | some place =>
      simp only [Option.isSome_some, if_true, ParameterMap.replaceAt_eq_set hplace value]

end CompiledSystem

/-! ## Compiling for other values -/

/-- Lines of equations, and the variables if they are declared. -/
structure Listing where
  lines : List String
  declared : Option (List String)

variable [Scalar α]

def Listing.compile (listing : Listing) (parameters : ParameterMap α) :
    Except ParseError (CompiledSystem α) :=
  match listing.declared with
  | none => CompiledSystem.compile parameters listing.lines
  | some declared => CompiledSystem.compileDeclared parameters listing.lines declared

namespace CompiledSystem

variable {parameters : ParameterMap α} {name : String} {system : CompiledSystem α}

theorem ofStatements_set {vars : SymbolTable} {statements : List Statement}
    (hcontains : parameters.contains name = true) (value : α)
    (hsystem : ofStatements parameters vars statements = .ok system) :
    ofStatements (parameters.set name value) vars statements =
      .ok (system.setParameter name value) := by
  obtain ⟨hknown, equations, hequations, rfl⟩ := ofStatements_eq_ok_iff.mp hsystem
  refine ofStatements_eq_ok_iff.mpr ⟨?_, equations, ?_, ?_⟩
  · rwa [ParameterMap.contains_set hcontains]
  · rwa [ParameterMap.symbols_set hcontains]
  · rw [setParameter, if_pos hcontains]

end CompiledSystem

namespace Listing

variable {listing : Listing} {parameters : ParameterMap α} {system : CompiledSystem α}

theorem compile_set {name : String} (hcontains : parameters.contains name = true) (value : α)
    (hsystem : listing.compile parameters = .ok system) :
    listing.compile (parameters.set name value) = .ok (system.setParameter name value) := by
  unfold compile at hsystem ⊢
  split at hsystem
  · obtain ⟨statements, hlines, hstatements⟩ := CompiledSystem.compile_eq_ok_iff.mp hsystem
    rw [← ParameterMap.contains_set hcontains value] at hlines
    exact CompiledSystem.compile_eq_ok_iff.mpr
      ⟨statements, hlines, CompiledSystem.ofStatements_set hcontains value hstatements⟩
  · obtain ⟨statements, hlines, hnames, hstatements⟩ :=
      CompiledSystem.compileDeclared_eq_ok_iff.mp hsystem
    rw [← ParameterMap.contains_set hcontains value] at hlines
    exact CompiledSystem.compileDeclared_eq_ok_iff.mpr
      ⟨statements, hlines, hnames, CompiledSystem.ofStatements_set hcontains value hstatements⟩

theorem parameters_of_compile (hsystem : listing.compile parameters = .ok system) :
    system.parameters = parameters := by
  unfold compile at hsystem
  split at hsystem
  · exact CompiledSystem.CompiledFor.parameters_eq ⟨_, .inl hsystem⟩
  · exact CompiledSystem.CompiledFor.parameters_eq ⟨_, .inr ⟨_, hsystem⟩⟩

/-- Calls leave the system that the lines are compiled to for the values after them. -/
theorem compile_updated (hsystem : listing.compile parameters = .ok system)
    (calls : List (String × α)) :
    (system.rebindAll calls).1 = calls.map (fun call => parameters.contains call.1) ∧
      listing.compile (parameters.updated calls) = .ok (system.rebindAll calls).2 := by
  induction calls generalizing parameters system with
  | nil => exact ⟨rfl, hsystem⟩
  | cons call calls ih =>
      obtain ⟨name, value⟩ := call
      have hparameters := parameters_of_compile hsystem
      simp only [CompiledSystem.rebindAll, CompiledSystem.rebind_eq, hparameters, List.map_cons]
      cases hcontains : parameters.contains name with
      | true =>
          obtain ⟨hanswers, hcompile⟩ := ih (compile_set hcontains value hsystem)
          rw [ParameterMap.updated_cons_of_contains hcontains, hanswers,
            ParameterMap.contains_set hcontains]
          exact ⟨rfl, hcompile⟩
      | false =>
          obtain ⟨hanswers, hcompile⟩ := ih hsystem
          have hsame : system.setParameter name value = system := by
            rw [CompiledSystem.setParameter, hparameters, hcontains]
            rfl
          rw [ParameterMap.updated_cons_of_not_contains hcontains, hsame, hanswers]
          exact ⟨rfl, hcompile⟩

/-- Rebinding parameters of a compiled system answers whether there are any of those
names, and it leaves the residual and the values of the system that is compiled from
the same lines for the map with the successful calls carried out. -/
theorem rebinding_is_compiling_again (hsystem : listing.compile parameters = .ok system)
    (calls : List (String × α)) :
    let rebound := system.rebindAll calls
    rebound.1 = calls.map (fun call => parameters.contains call.1) ∧
      ∃ again, listing.compile (parameters.updated calls) = .ok again ∧
        (∀ t y yp out,
          rebound.2.toResidual.residual t y yp out = again.toResidual.residual t y yp out) ∧
        ∀ name, rebound.2.valueOf? name = again.valueOf? name ∧
          again.valueOf? name = (parameters.updated calls).get? name := by
  intro rebound
  obtain ⟨hanswers, hcompile⟩ := compile_updated hsystem calls
  refine ⟨hanswers, rebound.2, hcompile, fun t y yp out => rfl, fun name => ⟨rfl, ?_⟩⟩
  rw [CompiledSystem.valueOf?_eq_parameter?, CompiledSystem.parameter?,
    parameters_of_compile hcompile]

/-- The parameters `k` and `b` change their values, and the variable `x` is none. -/
theorem rebinding_is_compiling_again_rooted :
    let listing : Listing := ⟨["der(x) = b", "y = sqrt(x)", "z = k"], none⟩
    let calls : List (String × ℝ) := [("k", 5), ("x", 7), ("b", 4)]
    let rebound := (CompiledSystem.rooted (3 : ℝ) 2).rebindAll calls
    listing.compile (.ofList [("k", 3), ("b", 2)]) = .ok (CompiledSystem.rooted (3 : ℝ) 2) ∧
      rebound.1 = [true, false, true] ∧
      (∀ t y yp out, rebound.2.toResidual.residual t y yp out =
        (CompiledSystem.rooted 5 4).toResidual.residual t y yp out) ∧
      ∀ name, rebound.2.valueOf? name = (CompiledSystem.rooted 5 4).valueOf? name := by
  intro listing calls rebound
  let parameters : ParameterMap ℝ := .ofList [("k", 3), ("b", 2)]
  have hsystem : listing.compile parameters = .ok (CompiledSystem.rooted (3 : ℝ) 2) :=
    CompiledSystem.compile_rooted 3 2
  have hentries : parameters.entries = [("b", 2), ("k", 3)] :=
    ParameterMap.entries_ofList_descending (by decide) 3 2
  have hcontains : parameters.contains = fun name => ["b", "k"].contains name := by
    funext name
    simp [ParameterMap.contains, hentries, eq_comm]
  have hupdated : parameters.updated calls = .ofList [("k", 5), ("b", 4)] := by
    have hkept : calls.filter (fun call => parameters.contains call.1) = [("k", 5), ("b", 4)] := by
      rw [hcontains]
      rfl
    have hlt : "b" < "k" := by decide
    have hnot : ¬ "k" < "b" := by decide
    rw [ParameterMap.updated, hkept]
    simp [parameters, ParameterMap.ofList, ParameterMap.set, ParameterMap.setEntry,
      ParameterMap.empty, hlt, hnot]
  obtain ⟨hanswers, again, hcompile, hresidual, hvalue⟩ :=
    rebinding_is_compiling_again hsystem calls
  rw [hupdated] at hcompile
  cases hcompile.symm.trans (CompiledSystem.compile_rooted 5 4)
  refine ⟨hsystem, ?_, hresidual, fun name => (hvalue name).1⟩
  rw [hanswers, hcontains]
  rfl

end Listing

end ImplicitDynamics
