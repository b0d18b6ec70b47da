import ImplicitDynamics.Expression.Machine

/-!
# Parameters

Parameters are named values, kept in the order of their names.  A program
refers to a parameter by its place in that order, so names and values have to
stay together; the type holds them in one list.
-/

namespace ImplicitDynamics

/-- Named values, strictly ordered by name. -/
structure ParameterMap (α : Type) where
  entries : List (String × α)
  sorted : entries.Pairwise fun a b => a.1 < b.1

namespace ParameterMap

variable {α : Type}

/-- Sets the value of a name in a sorted list. -/
def setEntry (name : String) (value : α) : List (String × α) → List (String × α)
  | [] => [(name, value)]
  | (key, old) :: rest =>
    if name < key then (name, value) :: (key, old) :: rest
    else if name = key then (name, value) :: rest
    else (key, old) :: setEntry name value rest

theorem fst_mem_setEntry {name : String} {value : α} {entries : List (String × α)}
    {entry : String × α} (hentry : entry ∈ setEntry name value entries) :
    entry.1 = name ∨ entry ∈ entries := by
  induction entries with
  | nil => simp_all [setEntry]
  | cons head rest ih =>
    obtain ⟨key, old⟩ := head
    unfold setEntry at hentry
    split at hentry
    · rcases List.mem_cons.1 hentry with rfl | h
      · exact .inl rfl
      · exact .inr h
    · split at hentry
      · rcases List.mem_cons.1 hentry with rfl | h
        · exact .inl rfl
        · exact .inr (List.mem_cons_of_mem _ h)
      · rcases List.mem_cons.1 hentry with rfl | h
        · exact .inr List.mem_cons_self
        · exact (ih h).imp_right (List.mem_cons_of_mem _)

theorem sorted_setEntry {name : String} {value : α} {entries : List (String × α)}
    (hsorted : entries.Pairwise fun a b => a.1 < b.1) :
    (setEntry name value entries).Pairwise fun a b => a.1 < b.1 := by
  induction entries with
  | nil => simp [setEntry]
  | cons head rest ih =>
    obtain ⟨key, old⟩ := head
    obtain ⟨hhead, hrest⟩ := List.pairwise_cons.1 hsorted
    unfold setEntry
    split
    · next hlt =>
      refine List.pairwise_cons.2 ⟨fun entry hentry => ?_, hsorted⟩
      rcases List.mem_cons.1 hentry with rfl | h
      · exact hlt
      · exact String.lt_trans hlt (hhead entry h)
    · split
      · next heq =>
        exact List.pairwise_cons.2 ⟨fun entry hentry => heq ▸ hhead entry hentry, hrest⟩
      · next hnlt hne =>
        refine List.pairwise_cons.2 ⟨fun entry hentry => ?_, ih hrest⟩
        rcases fst_mem_setEntry hentry with h | h
        · rw [h]
          refine Decidable.byContradiction fun hnot => hne ?_
          exact String.le_antisymm (String.not_lt.1 hnot) (String.not_lt.1 hnlt)
        · exact hhead entry h

def empty : ParameterMap α := ⟨[], .nil⟩

def set (parameters : ParameterMap α) (name : String) (value : α) : ParameterMap α :=
  ⟨setEntry name value parameters.entries, sorted_setEntry parameters.sorted⟩

/-- The last value given for a name counts. -/
def ofList (entries : List (String × α)) : ParameterMap α :=
  entries.foldl (fun parameters entry => parameters.set entry.1 entry.2) empty

def get? (parameters : ParameterMap α) (name : String) : Option α :=
  (parameters.entries.find? fun entry => entry.1 = name).map Prod.snd

def contains (parameters : ParameterMap α) (name : String) : Bool :=
  parameters.entries.any fun entry => entry.1 = name

def values (parameters : ParameterMap α) : List α :=
  parameters.entries.map Prod.snd

def symbols (parameters : ParameterMap α) : SymbolTable where
  names := parameters.entries.map Prod.fst
  nodup := by
    refine List.pairwise_map.2 (parameters.sorted.imp ?_)
    intro a b hlt heq
    exact String.lt_irrefl a.1 (heq ▸ hlt)

end ParameterMap

/-- Everything that a single evaluation of an expression may refer to. -/
structure Context (α : Type) where
  time : α
  state : List α
  derivatives : List α
  parameters : ParameterMap α

def evaluate {α : Type} [Scalar α] (tokens : List Token) (vars : SymbolTable)
    (context : Context α) : Except (EvalError α) α :=
  match Program.ofTokens (α := α) tokens ⟨vars, context.parameters.symbols⟩ with
  | .error cause => .error (.malformed cause)
  | .ok program =>
    program.eval
      { time := context.time
        state := context.state
        derivatives := context.derivatives
        parameters := context.parameters.values }

end ImplicitDynamics
