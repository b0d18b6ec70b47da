import ImplicitDynamics.Structure.Matching
import Mathlib.Data.Finset.Card

/-!
# Which rows get a column

A search for a column ends in one of two ways.  If it succeeds, the rows that
own a column are those that owned one before and the new row.  If it fails, it
has collected columns that are all taken; their owners and the new row list no
other columns, so there are more of these rows than columns for them.

Hence a row gets a column exactly if it can be assigned one together with the
rows that have one already.  Which rows these are does not depend on the order
in which columns are listed, nor on the numbers that columns have.
-/

namespace ImplicitDynamics.Matching

namespace Search

def saw (search : Search) (column : Nat) : Bool :=
  search.seen.getD column true

def ownerOf (search : Search) (column : Nat) : Option Nat :=
  search.owner.getD column none

def mark (search : Search) (column : Nat) : Search :=
  { search with seen := search.seen.set column true }

def assign (search : Search) (column row : Nat) : Search :=
  { search with owner := search.owner.set column (some row) }

def unseen (search : Search) : Finset Nat :=
  (Finset.range search.seen.length).filter fun column => search.saw column = false

variable {search : Search} {column other row : Nat}

theorem lt_length_of_saw_eq_false (hunseen : search.saw column = false) :
    column < search.seen.length := by
  by_contra hge
  simp [saw, Nat.le_of_not_lt hge] at hunseen

theorem mem_unseen : column ∈ search.unseen ↔ search.saw column = false := by
  simp only [unseen, Finset.mem_filter, Finset.mem_range, and_iff_right_iff_imp]
  exact lt_length_of_saw_eq_false

theorem saw_mark : (search.mark column).saw other = true ↔
    other = column ∨ search.saw other = true := by
  simp only [saw, mark, List.getD_eq_getElem?_getD, List.getElem?_set]
  by_cases hother : column = other
  · subst hother
    by_cases hlt : column < search.seen.length <;> simp [hlt]
  · simp [hother, Ne.symm hother]

theorem saw_mark_eq_false : (search.mark column).saw other = false ↔
    other ≠ column ∧ search.saw other = false := by
  rw [← Bool.not_eq_true, saw_mark, not_or, Bool.not_eq_true]

@[simp] theorem ownerOf_mark : (search.mark column).ownerOf other = search.ownerOf other :=
  rfl

theorem ownerOf_assign (hcolumn : column < search.owner.length) :
    (search.assign column row).ownerOf other =
      if other = column then some row else search.ownerOf other := by
  simp only [ownerOf, assign, List.getD_eq_getElem?_getD, List.getElem?_set]
  by_cases hother : column = other
  · subst hother
    simp [hcolumn]
  · simp [hother, Ne.symm hother]

theorem unseen_mark_card_lt (hunseen : search.saw column = false) :
    (search.mark column).unseen.card < search.unseen.card := by
  apply Finset.card_lt_card
  rw [Finset.ssubset_iff_of_subset]
  · exact ⟨column, mem_unseen.mpr hunseen, fun hmem =>
      (saw_mark_eq_false.mp (mem_unseen.mp hmem)).1 rfl⟩
  · intro other hother
    exact mem_unseen.mpr (saw_mark_eq_false.mp (mem_unseen.mp hother)).2

end Search

/-! ## One search -/

section Search

variable (candidates : List (List Nat))

/-- Columns are owned by rows that list them, and no row owns two. -/
structure Valid (search : Search) : Prop where
  aligned : search.owner.length = search.seen.length
  listed : ∀ {column row}, search.ownerOf column = some row →
    column ∈ candidates.getD row []
  unique : ∀ {column other row}, search.ownerOf column = some row →
    search.ownerOf other = some row → column = other

/-- A search for a column for a row may begin: the row needs one, and there is
depth enough to try the columns that are left. -/
structure Ready (depth row : Nat) (search : Search) : Prop where
  valid : Valid candidates search
  needs : ∀ {column}, search.ownerOf column = some row → search.saw column = true
  depth : search.unseen.card < depth

/-- The row has a column that was not tried before, and the rows that owned one
of those still do. -/
structure Augmented (row : Nat) (before after : Search) : Prop where
  ownerLength : after.owner.length = before.owner.length
  kept : ∀ {column}, before.saw column = true →
    after.ownerOf column = before.ownerOf column
  listed : ∀ {column r}, after.ownerOf column = some r → column ∈ candidates.getD r []
  owning : ∀ {r}, (∃ column, before.saw column = false ∧ after.ownerOf column = some r) ↔
    r = row ∨ ∃ column, before.saw column = false ∧ before.ownerOf column = some r
  unique : ∀ {column other r}, before.saw column = false → before.saw other = false →
    after.ownerOf column = some r → after.ownerOf other = some r → column = other

/-- The columns were tried in vain: each is owned by a row all of whose columns
were tried. -/
structure Exhausted (columns : List Nat) (before after : Search) : Prop where
  owner : after.owner = before.owner
  seenLength : after.seen.length = before.seen.length
  mono : ∀ {column}, before.saw column = true → after.saw column = true
  tried : ∀ column ∈ columns, after.saw column = true
  taken : ∀ {column}, after.saw column = true → before.saw column = false →
    ∃ r, before.ownerOf column = some r ∧
      ∀ other ∈ candidates.getD r [], after.saw other = true

def Outcome (row : Nat) (columns : List Nat) (before : Search) : Bool × Search → Prop
  | (true, after) => Augmented candidates row before after
  | (false, after) => Exhausted candidates columns before after

variable {candidates} {depth row column : Nat} {columns : List Nat}
  {before middle after search : Search}

theorem Exhausted.ownerOf_eq (hexhausted : Exhausted candidates columns before after) :
    after.ownerOf column = before.ownerOf column := by
  rw [Search.ownerOf, hexhausted.owner, Search.ownerOf]

theorem Exhausted.unseen_of_unseen (hexhausted : Exhausted candidates columns before after)
    (hunseen : after.saw column = false) : before.saw column = false := by
  by_contra hsaw
  rw [hexhausted.mono (by simpa using hsaw)] at hunseen
  cases hunseen

theorem Exhausted.trans {first second : List Nat}
    (hfirst : Exhausted candidates first before middle)
    (hsecond : Exhausted candidates second middle after) :
    Exhausted candidates (first ++ second) before after where
  owner := hsecond.owner.trans hfirst.owner
  seenLength := hsecond.seenLength.trans hfirst.seenLength
  mono hsaw := hsecond.mono (hfirst.mono hsaw)
  tried column hcolumn := by
    rcases List.mem_append.mp hcolumn with hcolumn | hcolumn
    · exact hsecond.mono (hfirst.tried column hcolumn)
    · exact hsecond.tried column hcolumn
  taken {column} hafter hbefore := by
    cases hmiddle : middle.saw column with
    | true =>
        obtain ⟨r, howner, hall⟩ := hfirst.taken hmiddle hbefore
        exact ⟨r, howner, fun other hother => hsecond.mono (hall other hother)⟩
    | false =>
        obtain ⟨r, howner, hall⟩ := hsecond.taken hafter hmiddle
        rw [hfirst.ownerOf_eq] at howner
        exact ⟨r, howner, hall⟩

theorem Exhausted.ready (hexhausted : Exhausted candidates columns before after)
    (hready : Ready candidates depth row before) : Ready candidates depth row after where
  valid :=
    { aligned := by rw [hexhausted.owner, hexhausted.seenLength, hready.valid.aligned]
      listed := fun howner => hready.valid.listed (hexhausted.ownerOf_eq ▸ howner)
      unique := fun howner howner' =>
        hready.valid.unique (hexhausted.ownerOf_eq ▸ howner) (hexhausted.ownerOf_eq ▸ howner') }
  needs howner := hexhausted.mono (hready.needs (hexhausted.ownerOf_eq ▸ howner))
  depth := by
    refine Nat.lt_of_le_of_lt (Finset.card_le_card fun column hcolumn => ?_) hready.depth
    exact Search.mem_unseen.mpr
      (hexhausted.unseen_of_unseen (Search.mem_unseen.mp hcolumn))

/-- A row that keeps a column which was tried in vain is not the row that gets a
new one. -/
theorem Exhausted.owner_ne_of_augmented {other r : Nat}
    (hexhausted : Exhausted candidates columns before middle)
    (hready : Ready candidates depth row before)
    (haugmented : Augmented candidates row middle after)
    (hbefore : before.saw column = false) (hmiddle : middle.saw column = true)
    (hother : middle.saw other = false) (howner : after.ownerOf column = some r) :
    after.ownerOf other ≠ some r := by
  intro hownerOther
  rw [haugmented.kept hmiddle, hexhausted.ownerOf_eq] at howner
  rcases haugmented.owning.mp ⟨other, hother, hownerOther⟩ with rfl | ⟨third, hthird, hownerThird⟩
  · rw [hready.needs howner] at hbefore
    cases hbefore
  · rw [hexhausted.ownerOf_eq] at hownerThird
    have heq := hready.valid.unique howner hownerThird
    rw [heq, hthird] at hmiddle
    cases hmiddle

/-- What was tried in vain before a search succeeds keeps its owners. -/
theorem Exhausted.augmented (hexhausted : Exhausted candidates columns before middle)
    (hready : Ready candidates depth row before)
    (haugmented : Augmented candidates row middle after) :
    Augmented candidates row before after where
  ownerLength := by rw [haugmented.ownerLength, hexhausted.owner]
  kept hsaw := by rw [haugmented.kept (hexhausted.mono hsaw), hexhausted.ownerOf_eq]
  listed := haugmented.listed
  owning := by
    intro r
    constructor
    · rintro ⟨column, hunseen, howner⟩
      cases hmiddle : middle.saw column with
      | true =>
          rw [haugmented.kept hmiddle, hexhausted.ownerOf_eq] at howner
          exact .inr ⟨column, hunseen, howner⟩
      | false =>
          rcases haugmented.owning.mp ⟨column, hmiddle, howner⟩ with hr | ⟨other, hother, howner⟩
          · exact .inl hr
          · rw [hexhausted.ownerOf_eq] at howner
            exact .inr ⟨other, hexhausted.unseen_of_unseen hother, howner⟩
    · rintro (hr | ⟨column, hunseen, howner⟩)
      · obtain ⟨column, hmiddle, howner⟩ := haugmented.owning.mpr (.inl hr)
        exact ⟨column, hexhausted.unseen_of_unseen hmiddle, howner⟩
      · cases hmiddle : middle.saw column with
        | true =>
            refine ⟨column, hunseen, ?_⟩
            rw [haugmented.kept hmiddle, hexhausted.ownerOf_eq, howner]
        | false =>
            rw [← hexhausted.ownerOf_eq] at howner
            obtain ⟨other, hother, howner⟩ := haugmented.owning.mpr (.inr ⟨column, hmiddle, howner⟩)
            exact ⟨other, hexhausted.unseen_of_unseen hother, howner⟩
  unique := by
    intro column other r hcolumn hother howner howner'
    cases hc : middle.saw column with
    | true =>
        cases hd : middle.saw other with
        | true =>
            rw [haugmented.kept hc, hexhausted.ownerOf_eq] at howner
            rw [haugmented.kept hd, hexhausted.ownerOf_eq] at howner'
            exact hready.valid.unique howner howner'
        | false =>
            have hne := hexhausted.owner_ne_of_augmented hready haugmented hcolumn hc hd howner
            exact absurd howner' hne
    | false =>
        cases hd : middle.saw other with
        | true =>
            have hne := hexhausted.owner_ne_of_augmented hready haugmented hother hd hc howner'
            exact absurd howner hne
        | false => exact haugmented.unique hc hd howner howner'

/-- Tries a column for a row unless one was found already. -/
def attempt (candidates : List (List Nat)) (depth row : Nat) :
    Bool × Search → Nat → Bool × Search
  | (found, current), column =>
    if found || current.saw column then (found, current)
    else
      let (free, next) :=
        match (current.mark column).ownerOf column with
        | none => (true, current.mark column)
        | some other => augment candidates depth other (current.mark column)
      if free then (true, next.assign column row) else (false, next)

theorem augment_succ (candidates : List (List Nat)) (depth row : Nat) (search : Search) :
    augment candidates (depth + 1) row search =
      (candidates.getD row []).foldl (attempt candidates depth row) (false, search) := by
  rw [augment]
  rfl

/-- A column goes to a new row once its owner, if it had one, has another
column. -/
theorem augmented_assign (hready : Ready candidates depth row search)
    (hcolumn : column ∈ candidates.getD row []) (hunseen : search.saw column = false)
    (hlength : after.owner.length = search.owner.length)
    (hkept : ∀ {c}, search.saw c = true → after.ownerOf c = search.ownerOf c)
    (hlisted : ∀ {c r}, after.ownerOf c = some r → c ∈ candidates.getD r [])
    (howning : ∀ {r}, (∃ c, (search.mark column).saw c = false ∧ after.ownerOf c = some r) ↔
      ∃ c, search.saw c = false ∧ search.ownerOf c = some r)
    (hunique : ∀ {c d r}, (search.mark column).saw c = false →
      (search.mark column).saw d = false → after.ownerOf c = some r →
      after.ownerOf d = some r → c = d) :
    Augmented candidates row search (after.assign column row) := by
  have hlt : column < after.owner.length := by
    rw [hlength, hready.valid.aligned]
    exact Search.lt_length_of_saw_eq_false hunseen
  have hother : ∀ {c}, c ≠ column →
      (after.assign column row).ownerOf c = after.ownerOf c := fun hne => by
    rw [Search.ownerOf_assign hlt, if_neg hne]
  have hself : (after.assign column row).ownerOf column = some row := by
    rw [Search.ownerOf_assign hlt, if_pos rfl]
  have hmark : ∀ {c}, c ≠ column → search.saw c = false →
      (search.mark column).saw c = false := fun hne hc =>
    Search.saw_mark_eq_false.mpr ⟨hne, hc⟩
  -- The new row owned no column that was left to try.
  have hnew : ∀ {c}, (search.mark column).saw c = false → after.ownerOf c ≠ some row := by
    intro c hc howner
    obtain ⟨d, hd, hownerD⟩ := howning.mp ⟨c, hc, howner⟩
    rw [hready.needs hownerD] at hd
    cases hd
  refine ⟨by simp [Search.assign, hlength], ?_, ?_, ?_, ?_⟩
  · intro c hsaw
    have hne : c ≠ column := by
      rintro rfl
      rw [hsaw] at hunseen
      cases hunseen
    rw [hother hne, hkept hsaw]
  · intro c r howner
    by_cases hc : c = column
    · rw [hc, hself] at howner
      cases howner
      exact hc ▸ hcolumn
    · rw [hother hc] at howner
      exact hlisted howner
  · intro r
    constructor
    · rintro ⟨c, hc, howner⟩
      by_cases heq : c = column
      · rw [heq, hself] at howner
        cases howner
        exact .inl rfl
      · rw [hother heq] at howner
        exact .inr (howning.mp ⟨c, hmark heq hc, howner⟩)
    · rintro (rfl | hr)
      · exact ⟨column, hunseen, hself⟩
      · obtain ⟨c, hc, howner⟩ := howning.mpr hr
        obtain ⟨hne, hc⟩ := Search.saw_mark_eq_false.mp hc
        exact ⟨c, hc, (hother hne).trans howner⟩
  · intro c d r hc hd hownerC hownerD
    by_cases heqC : c = column <;> by_cases heqD : d = column
    · rw [heqC, heqD]
    · rw [heqC, hself] at hownerC
      rw [hother heqD, ← hownerC] at hownerD
      exact absurd hownerD (hnew (hmark heqD hd))
    · rw [heqD, hself] at hownerD
      rw [hother heqC, ← hownerD] at hownerC
      exact absurd hownerC (hnew (hmark heqC hc))
    · rw [hother heqC] at hownerC
      rw [hother heqD] at hownerD
      exact hunique (hmark heqC hc) (hmark heqD hd) hownerC hownerD

theorem augmented_of_free (hready : Ready candidates depth row search)
    (hcolumn : column ∈ candidates.getD row []) (hunseen : search.saw column = false)
    (hfree : search.ownerOf column = none) :
    Augmented candidates row search ((search.mark column).assign column row) := by
  have hlength : (search.mark column).owner.length = search.owner.length := rfl
  apply augmented_assign hready hcolumn hunseen hlength (fun _ => rfl) hready.valid.listed
  · intro r
    constructor
    · rintro ⟨c, hc, howner⟩
      exact ⟨c, (Search.saw_mark_eq_false.mp hc).2, howner⟩
    · rintro ⟨c, hc, howner⟩
      refine ⟨c, Search.saw_mark_eq_false.mpr ⟨?_, hc⟩, howner⟩
      rintro rfl
      rw [hfree] at howner
      cases howner
  · intro c d r _ _ hownerC hownerD
    exact hready.valid.unique hownerC hownerD

theorem augmented_of_moved {other : Nat} (hready : Ready candidates depth row search)
    (hcolumn : column ∈ candidates.getD row []) (hunseen : search.saw column = false)
    (howned : search.ownerOf column = some other)
    (haugmented : Augmented candidates other (search.mark column) after) :
    Augmented candidates row search (after.assign column row) := by
  apply augmented_assign hready hcolumn hunseen haugmented.ownerLength
  · intro c hsaw
    exact haugmented.kept (Search.saw_mark.mpr (.inr hsaw))
  · exact haugmented.listed
  · intro r
    rw [haugmented.owning]
    constructor
    · rintro (rfl | ⟨c, hc, howner⟩)
      · exact ⟨column, hunseen, howned⟩
      · exact ⟨c, (Search.saw_mark_eq_false.mp hc).2, howner⟩
    · rintro ⟨c, hc, howner⟩
      by_cases heq : c = column
      · rw [heq, howned] at howner
        cases howner
        exact .inl rfl
      · exact .inr ⟨c, Search.saw_mark_eq_false.mpr ⟨heq, hc⟩, howner⟩
  · exact haugmented.unique

/-- The owner of an untried column can look for another one. -/
theorem Ready.owner {other : Nat} (hready : Ready candidates (depth + 1) row search)
    (hunseen : search.saw column = false) (howned : search.ownerOf column = some other) :
    Ready candidates depth other (search.mark column) where
  valid :=
    { aligned := by simpa [Search.mark] using hready.valid.aligned
      listed := hready.valid.listed
      unique := hready.valid.unique }
  needs howner := Search.saw_mark.mpr (.inl (hready.valid.unique howner howned))
  depth := Nat.lt_of_lt_of_le (Search.unseen_mark_card_lt hunseen) (Nat.le_of_lt_succ hready.depth)

theorem attempt_outcome
    (hsearch : ∀ {other search}, Ready candidates depth other search →
      Outcome candidates other (candidates.getD other []) search
        (augment candidates depth other search))
    (hready : Ready candidates (depth + 1) row search)
    (hcolumn : column ∈ candidates.getD row []) :
    Outcome candidates row [column] search
      (attempt candidates depth row (false, search) column) := by
  rw [attempt, Bool.false_or]
  cases hsaw : search.saw column with
  | true =>
      exact ⟨rfl, rfl, id, by simpa using hsaw, fun hafter hbefore => by simp_all⟩
  | false =>
      rw [if_neg Bool.false_ne_true]
      have hmarked : (search.mark column).ownerOf column = search.ownerOf column :=
        Search.ownerOf_mark
      cases howned : (search.mark column).ownerOf column with
      | none => exact augmented_of_free hready hcolumn hsaw (hmarked ▸ howned)
      | some other =>
          rw [hmarked] at howned
          have houtcome := hsearch (hready.owner hsaw howned)
          rcases hresult : augment candidates depth other (search.mark column) with ⟨found, next⟩
          rw [hresult] at houtcome
          simp only [hresult]
          cases found with
          | true => exact augmented_of_moved hready hcolumn hsaw howned houtcome
          | false =>
              have hexhausted : Exhausted candidates _ (search.mark column) next := houtcome
              refine ⟨hexhausted.owner, ?_, ?_, ?_, ?_⟩
              · simpa [Search.mark] using hexhausted.seenLength
              · intro c hc
                exact hexhausted.mono (Search.saw_mark.mpr (.inr hc))
              · intro c hc
                exact hexhausted.mono (Search.saw_mark.mpr (.inl (List.mem_singleton.mp hc)))
              · intro c hafter hbefore
                by_cases heq : c = column
                · exact ⟨other, heq ▸ howned, hexhausted.tried⟩
                · exact hexhausted.taken hafter (Search.saw_mark_eq_false.mpr ⟨heq, hbefore⟩)

theorem foldl_attempt_found (columns : List Nat) (after : Search) :
    columns.foldl (attempt candidates depth row) (true, after) = (true, after) := by
  induction columns with
  | nil => rfl
  | cons column columns ih =>
      rw [List.foldl_cons, attempt, Bool.true_or, if_pos rfl]
      exact ih

theorem foldl_attempt_outcome
    (hsearch : ∀ {other search}, Ready candidates depth other search →
      Outcome candidates other (candidates.getD other []) search
        (augment candidates depth other search))
    (hready : Ready candidates (depth + 1) row search) (columns : List Nat)
    (hcolumns : ∀ column ∈ columns, column ∈ candidates.getD row []) :
    Outcome candidates row columns search
      (columns.foldl (attempt candidates depth row) (false, search)) := by
  induction columns generalizing search with
  | nil => exact ⟨rfl, rfl, id, by simp, fun hafter hbefore => by simp_all⟩
  | cons column columns ih =>
      have hfirst := attempt_outcome hsearch hready (hcolumns column List.mem_cons_self)
      rw [List.foldl_cons]
      rcases hresult : attempt candidates depth row (false, search) column with ⟨found, next⟩
      rw [hresult] at hfirst
      cases found with
      | true =>
          rw [foldl_attempt_found]
          exact hfirst
      | false =>
          have hexhausted : Exhausted candidates [column] search next := hfirst
          have hrest := ih (hexhausted.ready hready)
            fun other hother => hcolumns other (List.mem_cons_of_mem _ hother)
          rcases hlast : columns.foldl (attempt candidates depth row) (false, next) with
            ⟨found, last⟩
          rw [hlast] at hrest
          cases found with
          | true => exact hexhausted.augmented hready hrest
          | false => exact hexhausted.trans hrest

theorem augment_outcome (hready : Ready candidates depth row search) :
    Outcome candidates row (candidates.getD row []) search
      (augment candidates depth row search) := by
  induction depth generalizing row search with
  | zero => exact absurd hready.depth (Nat.not_lt_zero _)
  | succ depth ih =>
      rw [augment_succ]
      exact foldl_attempt_outcome ih hready _ fun _ hcolumn => hcolumn

end Search

/-! ## All rows -/

section Rows

/-- The rows can be given columns that they list, no two the same. -/
def Matchable (candidates : List (List Nat)) (columns : Nat) (rows : Finset Nat) : Prop :=
  ∃ column : Nat → Nat,
    (∀ row ∈ rows, column row ∈ candidates.getD row [] ∧ column row < columns) ∧
      Set.InjOn column rows

open Classical in
/-- The rows that are chosen when rows are offered in order and each is taken
that can be matched together with those taken before. -/
noncomputable def chosen (candidates : List (List Nat)) (columns : Nat) : Nat → Finset Nat
  | 0 => ∅
  | row + 1 =>
    if Matchable candidates columns (insert row (chosen candidates columns row)) then
      insert row (chosen candidates columns row)
    else chosen candidates columns row

variable {candidates : List (List Nat)} {columns row : Nat} {rows : Finset Nat}

theorem Matchable.mono {fewer : Finset Nat} (hrows : Matchable candidates columns rows)
    (hsubset : fewer ⊆ rows) : Matchable candidates columns fewer := by
  obtain ⟨column, hlisted, hinjective⟩ := hrows
  exact ⟨column, fun row hrow => hlisted row (hsubset hrow), hinjective.mono hsubset⟩

theorem chosen_succ_of_matchable
    (hmatchable : Matchable candidates columns (insert row (chosen candidates columns row))) :
    chosen candidates columns (row + 1) = insert row (chosen candidates columns row) := by
  rw [chosen, if_pos hmatchable]

theorem chosen_succ_of_not_matchable
    (hnot : ¬ Matchable candidates columns (insert row (chosen candidates columns row))) :
    chosen candidates columns (row + 1) = chosen candidates columns row := by
  rw [chosen, if_neg hnot]

theorem chosen_subset_range (row : Nat) :
    chosen candidates columns row ⊆ Finset.range row := by
  induction row with
  | zero => simp [chosen]
  | succ row ih =>
      have hstep : chosen candidates columns (row + 1) ⊆
          insert row (chosen candidates columns row) := by
        by_cases hmatchable : Matchable candidates columns
            (insert row (chosen candidates columns row))
        · rw [chosen_succ_of_matchable hmatchable]
        · rw [chosen_succ_of_not_matchable hmatchable]
          exact Finset.subset_insert _ _
      refine fun r hr => ?_
      rcases Finset.mem_insert.mp (hstep hr) with rfl | hr
      · exact Finset.self_mem_range_succ _
      · exact Finset.range_subset_range.mpr (Nat.le_succ row) (ih hr)

theorem matchable_chosen (row : Nat) :
    Matchable candidates columns (chosen candidates columns row) := by
  induction row with
  | zero => exact ⟨id, by simp [chosen], by simp [chosen]⟩
  | succ row ih =>
      by_cases hmatchable : Matchable candidates columns
          (insert row (chosen candidates columns row))
      · rw [chosen_succ_of_matchable hmatchable]
        exact hmatchable
      · rw [chosen_succ_of_not_matchable hmatchable]
        exact ih

theorem chosen_eq_range_iff (row : Nat) :
    chosen candidates columns row = Finset.range row ↔
      Matchable candidates columns (Finset.range row) := by
  constructor
  · intro hchosen
    rw [← hchosen]
    exact matchable_chosen row
  · intro hmatchable
    induction row with
    | zero => simp [chosen]
    | succ row ih =>
        have hprevious := ih (hmatchable.mono (Finset.range_subset_range.mpr (Nat.le_succ row)))
        have hinsert : insert row (chosen candidates columns row) = Finset.range (row + 1) := by
          rw [hprevious, Finset.range_add_one]
        rw [chosen_succ_of_matchable (hinsert ▸ hmatchable), hinsert]

/-- Which rows are chosen depends only on which sets of rows can be matched. -/
theorem chosen_congr {others : List (List Nat)} {otherColumns : Nat}
    (hmatchable : ∀ rows, Matchable candidates columns rows ↔
      Matchable others otherColumns rows) (row : Nat) :
    chosen candidates columns row = chosen others otherColumns row := by
  induction row with
  | zero => rfl
  | succ row ih =>
      by_cases hrow : Matchable candidates columns (insert row (chosen candidates columns row))
      · have hother := (hmatchable _).mp hrow
        rw [ih] at hother
        rw [chosen_succ_of_matchable hrow, chosen_succ_of_matchable hother, ih]
      · have hother := mt (hmatchable _).mpr hrow
        rw [ih] at hother
        rw [chosen_succ_of_not_matchable hrow, chosen_succ_of_not_matchable hother, ih]

def ownersBefore (candidates : List (List Nat)) (columns row : Nat) : List (Option Nat) :=
  (List.range row).foldl
    (fun owner row =>
      (augment candidates (columns + 1) row ⟨List.replicate columns false, owner⟩).2.owner)
    (List.replicate columns none)

theorem ownersBefore_succ (candidates : List (List Nat)) (columns row : Nat) :
    ownersBefore candidates columns (row + 1) =
      (augment candidates (columns + 1) row
        ⟨List.replicate columns false, ownersBefore candidates columns row⟩).2.owner := by
  rw [ownersBefore, List.range_succ, List.foldl_append]
  rfl

/-- Columns are owned by rows that list them, each row owns one at most, and
the owners are the chosen rows. -/
structure Settled (candidates : List (List Nat)) (columns row : Nat)
    (owner : List (Option Nat)) : Prop where
  length : owner.length = columns
  listed : ∀ {column r}, owner.getD column none = some r → column ∈ candidates.getD r []
  unique : ∀ {column other r}, owner.getD column none = some r →
    owner.getD other none = some r → column = other
  owning : ∀ {r}, (∃ column, owner.getD column none = some r) ↔
    r ∈ chosen candidates columns row

variable {owner : List (Option Nat)}

def fresh (columns : Nat) (owner : List (Option Nat)) : Search :=
  ⟨List.replicate columns false, owner⟩

theorem fresh_saw {column : Nat} : (fresh columns owner).saw column = false ↔ column < columns := by
  simp only [fresh, Search.saw, List.getD_eq_getElem?_getD, List.getElem?_replicate]
  split <;> simp_all

theorem lt_length_of_owner {r column : Nat} (howner : owner.getD column none = some r) :
    column < owner.length := by
  by_contra hge
  simp [Nat.le_of_not_lt hge] at howner

theorem Settled.ready (hsettled : Settled candidates columns row owner) :
    Ready candidates (columns + 1) row (fresh columns owner) where
  valid :=
    { aligned := by simp [fresh, hsettled.length]
      listed := hsettled.listed
      unique := hsettled.unique }
  needs howner := by
    have hrow := chosen_subset_range row (hsettled.owning.mp ⟨_, howner⟩)
    exact absurd (Finset.mem_range.mp hrow) (Nat.lt_irrefl row)
  depth := by
    refine Nat.lt_succ_of_le (Nat.le_trans (Finset.card_filter_le _ _) ?_)
    simp [fresh]

theorem matchable_of_owning (hlength : owner.length = columns)
    (hlisted : ∀ {column r}, owner.getD column none = some r → column ∈ candidates.getD r [])
    (hrows : ∀ r ∈ rows, ∃ column, owner.getD column none = some r) :
    Matchable candidates columns rows := by
  choose! column hcolumn using hrows
  refine ⟨column, fun r hr => ⟨hlisted (hcolumn r hr), ?_⟩, fun r hr other hother heq => ?_⟩
  · exact hlength ▸ lt_length_of_owner (hcolumn r hr)
  · have howner := hcolumn r hr
    rw [heq, hcolumn other hother] at howner
    exact (Option.some.inj howner).symm

theorem Settled.of_augmented {after : Search} (hsettled : Settled candidates columns row owner)
    (haugmented : Augmented candidates row (fresh columns owner) after) :
    Settled candidates columns (row + 1) after.owner := by
  have hlength : after.owner.length = columns :=
    haugmented.ownerLength.trans hsettled.length
  have hfresh : ∀ {column r}, after.owner.getD column none = some r →
      (fresh columns owner).saw column = false := fun howner =>
    fresh_saw.mpr (hlength ▸ lt_length_of_owner howner)
  have howning : ∀ {r}, (∃ column, after.owner.getD column none = some r) ↔
      r ∈ insert row (chosen candidates columns row) := by
    intro r
    rw [Finset.mem_insert, ← hsettled.owning]
    constructor
    · rintro ⟨column, howner⟩
      rcases haugmented.owning.mp ⟨column, hfresh howner, howner⟩ with hr | ⟨other, -, hother⟩
      · exact .inl hr
      · exact .inr ⟨other, hother⟩
    · intro hr
      have hbefore : r = row ∨ ∃ column, (fresh columns owner).saw column = false ∧
          (fresh columns owner).ownerOf column = some r := by
        rcases hr with hr | ⟨column, howner⟩
        · exact .inl hr
        · exact .inr ⟨column, fresh_saw.mpr (hsettled.length ▸ lt_length_of_owner howner), howner⟩
      obtain ⟨column, -, howner⟩ := haugmented.owning.mpr hbefore
      exact ⟨column, howner⟩
  have hmatchable : Matchable candidates columns (insert row (chosen candidates columns row)) :=
    matchable_of_owning hlength haugmented.listed fun r hr => howning.mpr hr
  refine ⟨hlength, haugmented.listed, fun howner howner' => ?_, ?_⟩
  · exact haugmented.unique (hfresh howner) (hfresh howner') howner howner'
  · intro r
    rw [chosen_succ_of_matchable hmatchable]
    exact howning

/-- The columns that were tried in vain are one fewer than the rows that could
only take these. -/
theorem not_matchable_of_exhausted {after : Search}
    (hsettled : Settled candidates columns row owner)
    (hexhausted : Exhausted candidates (candidates.getD row []) (fresh columns owner) after) :
    ¬ Matchable candidates columns (insert row (chosen candidates columns row)) := by
  rintro ⟨column, hcolumn, hinjective⟩
  let tried := (Finset.range columns).filter fun c => after.saw c = true
  let ownerOf (c : Nat) : Nat := (owner.getD c none).getD 0
  have htaken : ∀ c ∈ tried, owner.getD c none = some (ownerOf c) ∧
      ∀ other ∈ candidates.getD (ownerOf c) [], after.saw other = true := by
    intro c hc
    obtain ⟨hlt, hsaw⟩ := Finset.mem_filter.mp hc
    obtain ⟨r, howner, hall⟩ :=
      hexhausted.taken hsaw (fresh_saw.mpr (Finset.mem_range.mp hlt))
    have howner : owner.getD c none = some r := howner
    have hr : ownerOf c = r := by simp only [ownerOf, howner, Option.getD_some]
    rw [hr]
    exact ⟨howner, hall⟩
  have hownerInjective : Set.InjOn ownerOf tried := by
    intro c hc d hd heq
    have howner := (htaken d hd).1
    rw [← heq] at howner
    exact hsettled.unique (htaken c hc).1 howner
  have hchosen : tried.image ownerOf ⊆ chosen candidates columns row := by
    intro r hr
    obtain ⟨c, hc, rfl⟩ := Finset.mem_image.mp hr
    exact hsettled.owning.mp ⟨c, (htaken c hc).1⟩
  have hnew : row ∉ tried.image ownerOf := fun hrow =>
    Nat.lt_irrefl row (Finset.mem_range.mp (chosen_subset_range row (hchosen hrow)))
  have hsubset : insert row (tried.image ownerOf) ⊆
      insert row (chosen candidates columns row) := Finset.insert_subset_insert row hchosen
  have hmaps : ∀ r ∈ insert row (tried.image ownerOf), column r ∈ tried := by
    intro r hr
    obtain ⟨hlisted, hlt⟩ := hcolumn r (hsubset hr)
    refine Finset.mem_filter.mpr ⟨Finset.mem_range.mpr hlt, ?_⟩
    rcases Finset.mem_insert.mp hr with rfl | hr
    · exact hexhausted.tried _ hlisted
    · obtain ⟨c, hc, rfl⟩ := Finset.mem_image.mp hr
      exact (htaken c hc).2 _ hlisted
  have hcard := Finset.card_le_card_of_injOn column hmaps (hinjective.mono hsubset)
  rw [Finset.card_insert_of_notMem hnew, Finset.card_image_of_injOn hownerInjective] at hcard
  exact Nat.not_succ_le_self _ hcard

theorem Settled.of_exhausted {after : Search} (hsettled : Settled candidates columns row owner)
    (hexhausted : Exhausted candidates (candidates.getD row []) (fresh columns owner) after) :
    Settled candidates columns (row + 1) after.owner := by
  have howner : after.owner = owner := hexhausted.owner
  rw [howner]
  refine ⟨hsettled.length, hsettled.listed, hsettled.unique, ?_⟩
  intro r
  rw [chosen_succ_of_not_matchable (not_matchable_of_exhausted hsettled hexhausted)]
  exact hsettled.owning

theorem settled_ownersBefore (row : Nat) :
    Settled candidates columns row (ownersBefore candidates columns row) := by
  induction row with
  | zero =>
      have hnone : ∀ {column r},
          (ownersBefore candidates columns 0).getD column none ≠ some r := by
        intro column r
        simp only [ownersBefore, List.range_zero, List.foldl_nil, List.getD_eq_getElem?_getD,
          List.getElem?_replicate]
        split <;> simp
      exact ⟨by simp [ownersBefore], fun h => absurd h hnone, fun h => absurd h hnone,
        ⟨fun ⟨_, h⟩ => absurd h hnone, by simp [chosen]⟩⟩
  | succ row ih =>
      have houtcome := augment_outcome ih.ready
      rw [ownersBefore_succ]
      change Settled candidates columns (row + 1) (augment candidates (columns + 1) row
        (fresh columns (ownersBefore candidates columns row))).2.owner
      rcases hresult : augment candidates (columns + 1) row
        (fresh columns (ownersBefore candidates columns row)) with ⟨found, after⟩
      rw [hresult] at houtcome
      cases found with
      | true => exact ih.of_augmented houtcome
      | false => exact ih.of_exhausted houtcome

theorem mem_ownersBefore_iff {r : Nat} :
    some r ∈ ownersBefore candidates columns row ↔ r ∈ chosen candidates columns row := by
  rw [← (settled_ownersBefore row).owning, List.mem_iff_getElem?]
  constructor
  · rintro ⟨column, hcolumn⟩
    exact ⟨column, by simp [List.getD_eq_getElem?_getD, hcolumn]⟩
  · rintro ⟨column, howner⟩
    have hlt := lt_length_of_owner howner
    refine ⟨column, ?_⟩
    rw [List.getElem?_eq_getElem hlt]
    simpa [hlt] using howner

/-- A row owns a column in the end exactly if it is chosen. -/
theorem mem_owners_iff {r : Nat} :
    some r ∈ owners candidates columns ↔ r ∈ chosen candidates columns candidates.length :=
  mem_ownersBefore_iff

end Rows

end ImplicitDynamics.Matching
