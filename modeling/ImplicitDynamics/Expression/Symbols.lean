/-!
# Symbol tables

A symbol table lists distinct names.  The index of a name is its place in the
list, so it does not change when more names are added.
-/

namespace ImplicitDynamics

structure SymbolTable where
  names : List String
  nodup : names.Nodup

namespace SymbolTable

def empty : SymbolTable := ⟨[], List.nodup_nil⟩

def size (table : SymbolTable) : Nat :=
  table.names.length

def contains (table : SymbolTable) (name : String) : Bool :=
  table.names.contains name

def indexOf? (table : SymbolTable) (name : String) : Option Nat :=
  table.names.idxOf? name

def name? (table : SymbolTable) (index : Nat) : Option String :=
  table.names[index]?

/-- Adds a name at the end; a name that is already there changes nothing. -/
def insert (table : SymbolTable) (name : String) : SymbolTable :=
  if hmem : name ∈ table.names then table
  else
    { names := table.names ++ [name]
      nodup := by
        rw [List.nodup_append]
        refine ⟨table.nodup, by simp, ?_⟩
        intro a ha b hb
        rintro rfl
        exact hmem (by simpa using (List.mem_singleton.1 hb) ▸ ha) }

/-- The index under which a name would be added, if it is new. -/
def newIndex? (table : SymbolTable) (name : String) : Option Nat :=
  if table.contains name then none else some table.size

def ofList (names : List String) : SymbolTable :=
  names.foldl insert empty

theorem names_insert (table : SymbolTable) (name : String) :
    (table.insert name).names =
      if name ∈ table.names then table.names else table.names ++ [name] := by
  unfold insert
  split <;> rfl

theorem contains_eq_true_iff {table : SymbolTable} {name : String} :
    table.contains name = true ↔ name ∈ table.names := by
  simp [contains]

end SymbolTable

end ImplicitDynamics
