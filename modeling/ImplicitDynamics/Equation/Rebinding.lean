import ImplicitDynamics.Equation.System

/-!
# Rebinding parameters

The programs of a compiled system refer to parameters by their places in the order
of names.  So a parameter gets another value by having it put in its place, and
nothing is compiled again.
-/

namespace ImplicitDynamics

variable {α : Type}

namespace ParameterMap

/-- Putting a value in a place leaves all names where they are. -/
theorem map_fst_modify (entries : List (String × α)) (place : Nat) (value : α) :
    (entries.modify place fun entry => (entry.1, value)).map Prod.fst = entries.map Prod.fst := by
  apply List.ext_getElem?
  intro i
  rw [List.getElem?_map, List.getElem?_map, List.getElem?_modify]
  cases entries[i]? with
  | none => rfl
  | some entry =>
      by_cases hplace : place = i
      · simp [hplace]
      · simp [hplace]

/-- Puts a value in a place; a place behind the last changes nothing. -/
def replaceAt (parameters : ParameterMap α) (place : Nat) (value : α) : ParameterMap α where
  entries := parameters.entries.modify place fun entry => (entry.1, value)
  sorted := by
    have hsorted := List.pairwise_map.mpr parameters.sorted
    rw [← map_fst_modify parameters.entries place value] at hsorted
    exact List.pairwise_map.mp hsorted

end ParameterMap

namespace CompiledSystem

/-- The value in the place of a name. -/
def valueOf? (system : CompiledSystem α) (name : String) : Option α :=
  (system.parameters.symbols.indexOf? name).bind fun place => system.parameters.values[place]?

/-- Gives a parameter another value.  The answer is whether there is one of that
name. -/
def rebind (system : CompiledSystem α) (name : String) (value : α) : Bool × CompiledSystem α :=
  match system.parameters.symbols.indexOf? name with
  | some place => (true, { system with parameters := system.parameters.replaceAt place value })
  | none => (false, system)

/-- The answers to calls one after the other and the system after them. -/
def rebindAll (system : CompiledSystem α) : List (String × α) → List Bool × CompiledSystem α
  | [] => ([], system)
  | (name, value) :: calls =>
    let rebound := system.rebind name value
    let rest := rebound.2.rebindAll calls
    (rebound.1 :: rest.1, rest.2)

end CompiledSystem

end ImplicitDynamics
