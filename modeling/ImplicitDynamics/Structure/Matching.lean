/-!
# Matching rows to columns

Rows are matched one after the other.  A row takes a free column that it
lists, or a column whose owner can move to another one; the search tries each
column once, so it goes no deeper than there are columns.
-/

namespace ImplicitDynamics.Matching

/-- The columns that a search has tried and the row that owns each column. -/
structure Search where
  seen : List Bool
  owner : List (Option Nat)

/-- Finds a column for a row, moving the owners of columns if needed. -/
def augment (candidates : List (List Nat)) : (depth : Nat) → Nat → Search → Bool × Search
  | 0, _, search => (false, search)
  | depth + 1, row, search =>
    (candidates.getD row []).foldl
      (fun (found, current) column =>
        if found || current.seen.getD column true then (found, current)
        else
          let tried := { current with seen := current.seen.set column true }
          let (free, next) :=
            match tried.owner.getD column none with
            | none => (true, tried)
            | some other => augment candidates depth other tried
          if free then (true, { next with owner := next.owner.set column (some row) })
          else (false, next))
      (false, search)

/-- The row that owns each column when all rows have been matched as far as
possible.  `candidates` lists the columns that each row may take. -/
def owners (candidates : List (List Nat)) (columns : Nat) : List (Option Nat) :=
  (List.range candidates.length).foldl
    (fun owner row =>
      (augment candidates (columns + 1) row ⟨List.replicate columns false, owner⟩).2.owner)
    (List.replicate columns none)

end ImplicitDynamics.Matching
