import ImplicitDynamics.Proofs.Matching
import Mathlib.Data.List.GetD
import Mathlib.Order.ConditionallyCompleteLattice.Basic
import Mathlib.Order.Lattice.Nat

/-!
# Every row in its turn makes the matching as large as it can be

A matching of the first rows is compared with the owners that the search has
assigned.  When a search succeeds there is one pair more, and no matching can
gain more than one pair by one more row.

When a search fails, the columns that it tried are all owned, and the new row
and their owners list no other columns.  Any matching that uses the new row can
then be rebuilt without it: give the tried columns back to their owners, and
keep the pairs of all other columns.  No pair is lost, so the new row does not
help.
-/

namespace ImplicitDynamics.Matching

/-- Pairs of a row and a column that it lists, among the first `rows` rows.  No
row and no column occurs twice. -/
structure IsMatching (candidates : List (List Nat)) (rows : Nat)
    (pairs : Finset (Nat × Nat)) : Prop where
  row_lt : ∀ {row column}, (row, column) ∈ pairs → row < rows
  listed : ∀ {row column}, (row, column) ∈ pairs → column ∈ candidates.getD row []
  column_unique : ∀ {row column other}, (row, column) ∈ pairs → (row, other) ∈ pairs →
    column = other
  row_unique : ∀ {row other column}, (row, column) ∈ pairs → (other, column) ∈ pairs →
    row = other

/-- The number of pairs of a largest matching of the first `rows` rows. -/
noncomputable def matchingNumber (candidates : List (List Nat)) (rows : Nat) : Nat :=
  sSup {size | ∃ pairs, IsMatching candidates rows pairs ∧ pairs.card = size}

/-- The rows that own a column, each with its column. -/
def assigned (owner : List (Option Nat)) : Finset (Nat × Nat) :=
  (owner.zipIdx.filterMap fun (row?, column) => row?.map fun row => (row, column)).toFinset

variable {candidates : List (List Nat)} {columns row : Nat} {owner : List (Option Nat)}
  {pairs : Finset (Nat × Nat)}

theorem mem_assigned {r column : Nat} :
    (r, column) ∈ assigned owner ↔ owner.getD column none = some r := by
  simp only [assigned, List.mem_toFinset, List.mem_filterMap, Prod.exists, Option.map_eq_some_iff,
    Prod.mk.injEq, List.mem_zipIdx_iff_getElem?, List.getD_eq_getElem?_getD]
  constructor
  · rintro ⟨row?, place, hplace, r', rfl, rfl, rfl⟩
    rw [hplace, Option.getD_some]
  · intro howner
    cases hplace : owner[column]? with
    | none =>
        rw [hplace] at howner
        cases howner
    | some row? =>
        rw [hplace, Option.getD_some] at howner
        exact ⟨row?, column, hplace, r, howner, rfl, rfl⟩

theorem IsMatching.fst_injOn (hmatching : IsMatching candidates row pairs) :
    Set.InjOn Prod.fst (pairs : Set (Nat × Nat)) := by
  rintro ⟨r, column⟩ hpair ⟨r', other⟩ hother heq
  cases heq
  rw [hmatching.column_unique hpair hother]

theorem IsMatching.snd_injOn (hmatching : IsMatching candidates row pairs) :
    Set.InjOn Prod.snd (pairs : Set (Nat × Nat)) := by
  rintro ⟨r, column⟩ hpair ⟨r', other⟩ hother heq
  cases heq
  rw [hmatching.row_unique hpair hother]

theorem IsMatching.mono {fewer : Finset (Nat × Nat)} {rows : Nat}
    (hmatching : IsMatching candidates row pairs) (hsubset : fewer ⊆ pairs)
    (hrows : ∀ {r column}, (r, column) ∈ fewer → r < rows) : IsMatching candidates rows fewer where
  row_lt := hrows
  listed hpair := hmatching.listed (hsubset hpair)
  column_unique hpair hother := hmatching.column_unique (hsubset hpair) (hsubset hother)
  row_unique hpair hother := hmatching.row_unique (hsubset hpair) (hsubset hother)

theorem IsMatching.card_le (hmatching : IsMatching candidates row pairs) : pairs.card ≤ row := by
  have hrows : pairs.image Prod.fst ⊆ Finset.range row := by
    intro r hr
    obtain ⟨⟨r', column⟩, hpair, rfl⟩ := Finset.mem_image.mp hr
    exact Finset.mem_range.mpr (hmatching.row_lt hpair)
  have hcard := Finset.card_le_card hrows
  rwa [Finset.card_image_of_injOn hmatching.fst_injOn, Finset.card_range] at hcard

theorem bddAbove_matchingSizes (candidates : List (List Nat)) (row : Nat) :
    BddAbove {size | ∃ pairs, IsMatching candidates row pairs ∧ pairs.card = size} := by
  refine ⟨row, ?_⟩
  rintro _ ⟨pairs, hmatching, rfl⟩
  exact hmatching.card_le

theorem IsMatching.card_le_matchingNumber (hmatching : IsMatching candidates row pairs) :
    pairs.card ≤ matchingNumber candidates row :=
  le_csSup (bddAbove_matchingSizes candidates row) ⟨pairs, hmatching, rfl⟩

theorem isMatching_empty (candidates : List (List Nat)) (row : Nat) :
    IsMatching candidates row ∅ :=
  ⟨by simp, by simp, by simp, by simp⟩

theorem matchingNumber_le {bound : Nat}
    (hbound : ∀ pairs, IsMatching candidates row pairs → pairs.card ≤ bound) :
    matchingNumber candidates row ≤ bound := by
  have hnonempty : {size | ∃ pairs, IsMatching candidates row pairs ∧ pairs.card = size}.Nonempty :=
    ⟨0, ∅, isMatching_empty candidates row, rfl⟩
  apply csSup_le hnonempty
  rintro _ ⟨pairs, hmatching, rfl⟩
  exact hbound pairs hmatching

/-- One more row makes no matching larger by more than one pair. -/
theorem matchingNumber_succ_le (candidates : List (List Nat)) (row : Nat) :
    matchingNumber candidates (row + 1) ≤ matchingNumber candidates row + 1 := by
  apply matchingNumber_le
  intro pairs hmatching
  let earlier := pairs.filter fun pair => pair.1 < row
  let last := pairs.filter fun pair => ¬ pair.1 < row
  have hearlier : IsMatching candidates row earlier :=
    hmatching.mono (Finset.filter_subset _ _) fun hpair => (Finset.mem_filter.mp hpair).2
  have hlast : last.card ≤ 1 := by
    rw [Finset.card_le_one]
    rintro ⟨r, column⟩ hpair ⟨r', other⟩ hother
    obtain ⟨hpair, hr⟩ := Finset.mem_filter.mp hpair
    obtain ⟨hother, hr'⟩ := Finset.mem_filter.mp hother
    have hlt := hmatching.row_lt hpair
    have hlt' := hmatching.row_lt hother
    have heq : r = r' := by omega
    subst heq
    rw [hmatching.column_unique hpair hother]
  have hsplit : earlier.card + last.card = pairs.card := Finset.card_filter_add_card_filter_not _
  have hle := hearlier.card_le_matchingNumber
  omega

theorem Settled.isMatching (hsettled : Settled candidates columns row owner) :
    IsMatching candidates row (assigned owner) where
  row_lt hpair :=
    Finset.mem_range.mp
      (chosen_subset_range row (hsettled.owning.mp ⟨_, mem_assigned.mp hpair⟩))
  listed hpair := hsettled.listed (mem_assigned.mp hpair)
  column_unique hpair hother :=
    hsettled.unique (mem_assigned.mp hpair) (mem_assigned.mp hother)
  row_unique hpair hother := by
    have howner := mem_assigned.mp hpair
    rw [mem_assigned.mp hother] at howner
    exact (Option.some.inj howner).symm

theorem Settled.card_assigned (hsettled : Settled candidates columns row owner) :
    (assigned owner).card = (chosen candidates columns row).card := by
  have himage : (assigned owner).image Prod.fst = chosen candidates columns row := by
    ext r
    rw [← hsettled.owning, Finset.mem_image]
    constructor
    · rintro ⟨⟨r', column⟩, hpair, rfl⟩
      exact ⟨column, mem_assigned.mp hpair⟩
    · rintro ⟨column, howner⟩
      exact ⟨(r, column), mem_assigned.mpr howner, rfl⟩
  rw [← himage, Finset.card_image_of_injOn hsettled.isMatching.fst_injOn]

/-! ## A search in vain -/

theorem IsMatching.union {others : Finset (Nat × Nat)}
    (hpairs : IsMatching candidates row pairs) (hothers : IsMatching candidates row others)
    (hrows : ∀ {r column other}, (r, column) ∈ pairs → (r, other) ∉ others)
    (hcolumns : ∀ {r other column}, (r, column) ∈ pairs → (other, column) ∉ others) :
    IsMatching candidates row (pairs ∪ others) where
  row_lt hpair := (Finset.mem_union.mp hpair).elim hpairs.row_lt hothers.row_lt
  listed hpair := (Finset.mem_union.mp hpair).elim hpairs.listed hothers.listed
  column_unique hpair hother := by
    rcases Finset.mem_union.mp hpair with hpair | hpair <;>
      rcases Finset.mem_union.mp hother with hother | hother
    · exact hpairs.column_unique hpair hother
    · exact absurd hother (hrows hpair)
    · exact absurd hpair (hrows hother)
    · exact hothers.column_unique hpair hother
  row_unique hpair hother := by
    rcases Finset.mem_union.mp hpair with hpair | hpair <;>
      rcases Finset.mem_union.mp hother with hother | hother
    · exact hpairs.row_unique hpair hother
    · exact absurd hother (hcolumns hpair)
    · exact absurd hpair (hcolumns hother)
    · exact hothers.row_unique hpair hother

/-- At most one pair is lost for each column that is given up. -/
theorem IsMatching.card_le_card_filter_add (hmatching : IsMatching candidates row pairs)
    (given : Finset Nat) :
    pairs.card ≤ (pairs.filter fun pair => pair.2 ∉ given).card + given.card := by
  have hlost : (pairs.filter fun pair => ¬ pair.2 ∉ given).card ≤ given.card := by
    apply Finset.card_le_card_of_injOn Prod.snd
    · intro pair hpair
      exact not_not.mp (Finset.mem_filter.mp hpair).2
    · exact hmatching.snd_injOn.mono (Finset.filter_subset _ _)
  have hsplit : (pairs.filter fun pair => pair.2 ∉ given).card +
      (pairs.filter fun pair => ¬ pair.2 ∉ given).card = pairs.card :=
    Finset.card_filter_add_card_filter_not _
  omega

theorem card_le_card_filter {given : Finset Nat}
    (hgiven : ∀ column ∈ given, ∃ r, (r, column) ∈ pairs) :
    given.card ≤ (pairs.filter fun pair => pair.2 ∈ given).card := by
  have hsubset : given ⊆ (pairs.filter fun pair => pair.2 ∈ given).image Prod.snd := by
    intro column hcolumn
    obtain ⟨r, hpair⟩ := hgiven column hcolumn
    exact Finset.mem_image.mpr ⟨(r, column), Finset.mem_filter.mpr ⟨hpair, hcolumn⟩, rfl⟩
  exact (Finset.card_le_card hsubset).trans Finset.card_image_le

def Search.seenBelow (search : Search) (columns : Nat) : Finset Nat :=
  (Finset.range columns).filter fun column => search.saw column = true

variable {after : Search}

theorem mem_seenBelow (hcolumns : ∀ row ∈ candidates, ∀ column ∈ row, column < columns)
    {r column : Nat} (hlisted : column ∈ candidates.getD r [])
    (hsaw : after.saw column = true) : column ∈ after.seenBelow columns := by
  refine Finset.mem_filter.mpr ⟨Finset.mem_range.mpr ?_, hsaw⟩
  by_cases hr : r < candidates.length
  · rw [List.getD_eq_getElem _ _ hr] at hlisted
    exact hcolumns _ (List.getElem_mem hr) column hlisted
  · simp [Nat.le_of_not_lt hr] at hlisted

theorem Exhausted.owned_of_mem_seenBelow
    (hcolumns : ∀ row ∈ candidates, ∀ column ∈ row, column < columns) {listed : List Nat}
    (hexhausted : Exhausted candidates listed (fresh columns owner) after) {column : Nat}
    (hcolumn : column ∈ after.seenBelow columns) :
    ∃ r, (r, column) ∈ assigned owner ∧
      ∀ other ∈ candidates.getD r [], other ∈ after.seenBelow columns := by
  obtain ⟨hrange, hsaw⟩ := Finset.mem_filter.mp hcolumn
  obtain ⟨r, howner, hall⟩ :=
    hexhausted.taken hsaw (fresh_saw.mpr (Finset.mem_range.mp hrange))
  exact ⟨r, mem_assigned.mpr howner, fun other hother =>
    mem_seenBelow hcolumns hother (hall other hother)⟩

/-- After a search in vain, a matching that uses the new row can be rebuilt
from the earlier rows alone. -/
theorem Settled.exists_matching_of_exhausted
    (hsettled : Settled candidates columns row owner)
    (hcolumns : ∀ row ∈ candidates, ∀ column ∈ row, column < columns)
    (hexhausted : Exhausted candidates (candidates.getD row []) (fresh columns owner) after)
    (hmatching : IsMatching candidates (row + 1) pairs) :
    ∃ rebuilt, IsMatching candidates row rebuilt ∧ pairs.card ≤ rebuilt.card := by
  let kept := pairs.filter fun pair => pair.2 ∉ after.seenBelow columns
  let returned := (assigned owner).filter fun pair => pair.2 ∈ after.seenBelow columns
  have hkept : IsMatching candidates row kept := by
    refine hmatching.mono (Finset.filter_subset _ _) fun {r column} hpair => ?_
    obtain ⟨hpair, hcolumn⟩ := Finset.mem_filter.mp hpair
    have hle : r < row + 1 := hmatching.row_lt hpair
    -- All columns of the new row were tried.
    have hne : r ≠ row := by
      rintro rfl
      have hlisted := hmatching.listed hpair
      exact hcolumn (mem_seenBelow hcolumns hlisted (hexhausted.tried column hlisted))
    omega
  have hreturned : IsMatching candidates row returned :=
    hsettled.isMatching.mono (Finset.filter_subset _ _) fun hpair =>
      hsettled.isMatching.row_lt (Finset.mem_filter.mp hpair).1
  have hrows : ∀ {r column other}, (r, column) ∈ kept → (r, other) ∉ returned := by
    intro r column other hpair hother
    obtain ⟨hpair, hcolumn⟩ := Finset.mem_filter.mp hpair
    obtain ⟨hassigned, hother⟩ := Finset.mem_filter.mp hother
    obtain ⟨owning, howning, hall⟩ := hexhausted.owned_of_mem_seenBelow hcolumns hother
    have heq := hsettled.isMatching.row_unique hassigned howning
    subst heq
    exact hcolumn (hall column (hmatching.listed hpair))
  have hcross : ∀ {r other column}, (r, column) ∈ kept → (other, column) ∉ returned :=
    fun hpair hother => (Finset.mem_filter.mp hpair).2 (Finset.mem_filter.mp hother).2
  have hdisjoint : Disjoint kept returned := by
    rw [Finset.disjoint_left]
    rintro ⟨r, column⟩ hpair hother
    exact hcross hpair hother
  refine ⟨kept ∪ returned, hkept.union hreturned hrows hcross, ?_⟩
  calc pairs.card ≤ kept.card + (after.seenBelow columns).card :=
        hmatching.card_le_card_filter_add _
    _ ≤ kept.card + returned.card := by
        apply Nat.add_le_add_left
        apply card_le_card_filter
        intro column hcolumn
        obtain ⟨r, hassigned, -⟩ := hexhausted.owned_of_mem_seenBelow hcolumns hcolumn
        exact ⟨r, hassigned⟩
    _ = (kept ∪ returned).card := (Finset.card_union_of_disjoint hdisjoint).symm

/-- The chosen rows are as many as can be matched at all. -/
theorem card_chosen (hcolumns : ∀ row ∈ candidates, ∀ column ∈ row, column < columns)
    (row : Nat) : (chosen candidates columns row).card = matchingNumber candidates row := by
  induction row with
  | zero =>
      have hle : matchingNumber candidates 0 ≤ 0 :=
        matchingNumber_le fun _ hmatching => hmatching.card_le
      rw [chosen, Finset.card_empty, Nat.le_zero.mp hle]
  | succ row ih =>
      have hsettled : Settled candidates columns row (ownersBefore candidates columns row) :=
        settled_ownersBefore row
      have hnext : Settled candidates columns (row + 1)
          (ownersBefore candidates columns (row + 1)) := settled_ownersBefore (row + 1)
      have hlower : (chosen candidates columns (row + 1)).card ≤
          matchingNumber candidates (row + 1) :=
        hnext.card_assigned ▸ hnext.isMatching.card_le_matchingNumber
      apply Nat.le_antisymm hlower
      have houtcome := augment_outcome hsettled.ready
      rcases hresult : augment candidates (columns + 1) row
        (fresh columns (ownersBefore candidates columns row)) with ⟨found, after⟩
      rw [hresult] at houtcome
      cases found with
      | true =>
          have hcard : (chosen candidates columns (row + 1)).card =
              (chosen candidates columns row).card + 1 := by
            have hafter := hsettled.of_augmented houtcome
            have hchosen := hafter.owning.mp
              ((houtcome.owning.mpr (.inl rfl)).imp fun _ h => h.2)
            by_cases hmatchable : Matchable candidates columns
                (insert row (chosen candidates columns row))
            · rw [chosen_succ_of_matchable hmatchable, Finset.card_insert_of_notMem]
              exact fun hrow => Nat.lt_irrefl row (Finset.mem_range.mp
                (chosen_subset_range row hrow))
            · rw [chosen_succ_of_not_matchable hmatchable] at hchosen
              exact absurd (Finset.mem_range.mp (chosen_subset_range row hchosen))
                (Nat.lt_irrefl row)
          rw [hcard, ih]
          exact matchingNumber_succ_le candidates row
      | false =>
          have hexhausted : Exhausted candidates (candidates.getD row [])
            (fresh columns (ownersBefore candidates columns row)) after := houtcome
          rw [chosen_succ_of_not_matchable (not_matchable_of_exhausted hsettled hexhausted), ih]
          apply matchingNumber_le
          intro pairs hmatching
          obtain ⟨rebuilt, hrebuilt, hle⟩ :=
            hsettled.exists_matching_of_exhausted hcolumns hexhausted hmatching
          exact hle.trans hrebuilt.card_le_matchingNumber

theorem mem_chosen_succ {r : Nat} :
    r ∈ chosen candidates columns (row + 1) ↔
      r ∈ chosen candidates columns row ∨ r = row ∧ row ∈ chosen candidates columns (row + 1) := by
  by_cases hmatchable : Matchable candidates columns (insert row (chosen candidates columns row))
  · rw [chosen_succ_of_matchable hmatchable, Finset.mem_insert]
    simp [or_comm]
  · rw [chosen_succ_of_not_matchable hmatchable]
    constructor
    · exact .inl
    · rintro (hr | ⟨rfl, hr⟩)
      · exact hr
      · exact hr

theorem chosen_mono {later : Nat} (hle : row ≤ later) :
    chosen candidates columns row ⊆ chosen candidates columns later := by
  induction later, hle using Nat.le_induction with
  | base => exact Finset.Subset.refl _
  | succ later _ ih => exact fun r hr => mem_chosen_succ.mpr (.inl (ih hr))

/-- Later rows do not decide whether a row is chosen. -/
theorem mem_chosen_iff {later : Nat} (hlt : row < later) :
    row ∈ chosen candidates columns later ↔ row ∈ chosen candidates columns (row + 1) := by
  induction later, hlt using Nat.le_induction with
  | base => rfl
  | succ later hlt ih =>
      rw [mem_chosen_succ, ih]
      constructor
      · rintro (hrow | ⟨heq, -⟩)
        · exact hrow
        · exact absurd heq (Nat.ne_of_lt hlt)
      · exact .inl

theorem card_chosen_lt_iff :
    (chosen candidates columns row).card < (chosen candidates columns (row + 1)).card ↔
      row ∈ chosen candidates columns (row + 1) := by
  have hnotMem : row ∉ chosen candidates columns row := fun hrow =>
    Nat.lt_irrefl row (Finset.mem_range.mp (chosen_subset_range row hrow))
  constructor
  · intro hlt
    by_contra hrow
    have hsame : chosen candidates columns (row + 1) ⊆ chosen candidates columns row := by
      intro r hr
      exact (mem_chosen_succ.mp hr).resolve_right fun h => hrow h.2
    exact absurd (Finset.card_le_card hsame) (Nat.not_le_of_lt hlt)
  · intro hrow
    apply Finset.card_lt_card
    rw [Finset.ssubset_iff_of_subset (chosen_mono (Nat.le_succ row))]
    exact ⟨row, hrow, hnotMem⟩

/-- The owners are a largest matching.  A row owns a column in the end exactly
if it makes the largest matching of the rows up to it larger, and no later row
takes its column without leaving it another. -/
theorem owners_maximum (hcolumns : ∀ row ∈ candidates, ∀ column ∈ row, column < columns) :
    (owners candidates columns).length = columns ∧
      IsMatching candidates candidates.length (assigned (owners candidates columns)) ∧
      (∀ row < candidates.length, some row ∈ owners candidates columns ↔
        matchingNumber candidates row < matchingNumber candidates (row + 1)) ∧
      (assigned (owners candidates columns)).card = matchingNumber candidates candidates.length ∧
      ∀ row later r, row ≤ later → some r ∈ ownersBefore candidates columns row →
        some r ∈ ownersBefore candidates columns later := by
  have hsettled : Settled candidates columns candidates.length (owners candidates columns) :=
    settled_ownersBefore candidates.length
  refine ⟨hsettled.length, hsettled.isMatching, ?_, ?_, ?_⟩
  · intro row hrow
    rw [← card_chosen hcolumns, ← card_chosen hcolumns, card_chosen_lt_iff, mem_owners_iff,
      mem_chosen_iff hrow]
  · rw [hsettled.card_assigned, card_chosen hcolumns]
  · intro row later r hle hr
    exact mem_ownersBefore_iff.mpr (chosen_mono hle (mem_ownersBefore_iff.mp hr))

/-- The third of four rows is the one too many. -/
theorem owners_maximum_contested :
    let candidates := [[0, 1], [0], [1], [2]]
    (∀ row ∈ candidates, ∀ column ∈ row, column < 3) ∧
      owners candidates 3 = [some 1, some 0, some 3] ∧
      matchingNumber candidates 4 = 3 ∧
      ¬ matchingNumber candidates 2 < matchingNumber candidates 3 ∧
      matchingNumber candidates 3 < matchingNumber candidates 4 := by
  intro candidates
  have hcolumns : ∀ row ∈ candidates, ∀ column ∈ row, column < 3 := by decide
  have howners : owners candidates 3 = [some 1, some 0, some 3] := by decide
  obtain ⟨-, -, hrows, hcard, -⟩ := owners_maximum hcolumns
  rw [howners] at hrows hcard
  refine ⟨hcolumns, howners, hcard.symm, ?_, ?_⟩
  · rw [← hrows 2 (by decide)]
    decide
  · rw [← hrows 3 (by decide)]
    decide

end ImplicitDynamics.Matching
