import Mathlib.Data.List.Nodup
import Mathlib.Data.List.Perm.Basic

/-!
# Lists with keys

What is found for a key in a list of pairs is the first pair with that key.  Where no key
is in the list twice, each pair is the one that is found, so that the order of the pairs
does not matter.
-/

namespace ImplicitDynamics

variable {α : Type} {entries others : List (String × α)} {key : String}

theorem isSome_lookup_iff : (entries.lookup key).isSome = true ↔ key ∈ entries.map Prod.fst := by
  simp only [List.lookup_isSome_iff, List.mem_map, beq_iff_eq]
  exact exists_congr fun entry => and_congr_right fun _ => eq_comm

theorem lookup_of_not_mem (hkey : key ∉ entries.map Prod.fst) : entries.lookup key = none := by
  rwa [← isSome_lookup_iff, Option.not_isSome_iff_eq_none] at hkey

theorem lookup_eq_some_iff_of_nodup (hnodup : (entries.map Prod.fst).Nodup) {value : α} :
    entries.lookup key = some value ↔ (key, value) ∈ entries := by
  rw [List.lookup_eq_some_iff]
  constructor
  · rintro ⟨before, after, rfl, -⟩
    exact List.mem_append_right before List.mem_cons_self
  · intro hmem
    obtain ⟨before, after, rfl⟩ := List.append_of_mem hmem
    refine ⟨before, after, rfl, fun entry hentry => bne_iff_ne.mpr ?_⟩
    rintro rfl
    rw [List.map_append, List.nodup_append] at hnodup
    exact hnodup.2.2 _ (List.mem_map_of_mem hentry) _ List.mem_cons_self rfl

theorem lookup_perm (hnodup : (entries.map Prod.fst).Nodup) (hperm : entries.Perm others) :
    entries.lookup key = others.lookup key := by
  ext value
  have hothers := (hperm.map Prod.fst).nodup_iff.mp hnodup
  rw [lookup_eq_some_iff_of_nodup hnodup, lookup_eq_some_iff_of_nodup hothers, hperm.mem_iff]

/-- Lists with the same keys, none of them twice, are the same if they agree by key. -/
theorem eq_of_lookup (hnodup : (entries.map Prod.fst).Nodup)
    (hkeys : entries.map Prod.fst = others.map Prod.fst)
    (hlookup : ∀ key, entries.lookup key = others.lookup key) : entries = others := by
  have hlength : entries.length = others.length := by simpa using congrArg List.length hkeys
  refine List.ext_getElem hlength fun i hi hi' => ?_
  have hkey : entries[i].1 = others[i].1 := by
    have hentry := congrArg (·[i]?) hkeys
    simpa [List.getElem?_eq_getElem, hi, hi'] using hentry
  have hvalue : entries.lookup entries[i].1 = some entries[i].2 :=
    (lookup_eq_some_iff_of_nodup hnodup).mpr (List.getElem_mem hi)
  have hother : others.lookup others[i].1 = some others[i].2 :=
    (lookup_eq_some_iff_of_nodup (hkeys ▸ hnodup)).mpr (List.getElem_mem hi')
  rw [hlookup, hkey, hother] at hvalue
  exact Prod.ext hkey (Option.some.inj hvalue).symm

theorem lookup_set_of_nodup {value : α} {i : Nat} (hnodup : (entries.map Prod.fst).Nodup)
    (hi : (entries.map Prod.fst)[i]? = some key) (other : String) :
    (entries.set i (key, value)).lookup other =
      if other = key then some value else entries.lookup other := by
  induction entries generalizing i with
  | nil => cases hi
  | cons entry rest ih =>
      obtain ⟨name, old⟩ := entry
      rw [List.map_cons, List.nodup_cons] at hnodup
      cases i with
      | zero =>
          cases hi
          rw [List.set_cons_zero, List.lookup_cons, List.lookup_cons]
          by_cases hother : other = name
          · simp [hother]
          · simp [hother, beq_false_of_ne hother]
      | succ i =>
          have hkey : key ∈ rest.map Prod.fst := List.mem_of_getElem? hi
          have hne : name ≠ key := by
            rintro rfl
            exact hnodup.1 hkey
          rw [List.set_cons_succ, List.lookup_cons, List.lookup_cons, ih hnodup.2 hi]
          by_cases hother : other = name
          · simp [hother, hne]
          · simp [beq_false_of_ne hother]

end ImplicitDynamics
