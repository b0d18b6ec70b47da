import ImplicitDynamics.Proofs.AssignmentLists
import ImplicitDynamics.Proofs.ModelStates

/-!
# Initial conditions

A state is given by assignments, in any order, to all variables.  Each value is written
to the slot of its name.  Since no name is assigned twice and no two variables have the
same name, no slot is written twice, and a slot stays empty exactly if its variable is not
assigned.  So nothing is ever left out when the slots are put together to a state, and no
value gets to the place of another variable.
-/

namespace ImplicitDynamics.Assignments

variable {α : Type} {vars : SymbolTable} {assigned moved : List (String × α)} {name : String}

/-- The variables without an assignment, in their order. -/
def unassigned (vars : SymbolTable) (assigned : List (String × α)) : List String :=
  vars.names.filter fun name => !(assigned.map Prod.fst).contains name

theorem mem_unassigned_iff :
    name ∈ unassigned vars assigned ↔ name ∈ vars.names ∧ name ∉ assigned.map Prod.fst := by
  simp [unassigned]

theorem unassigned_eq_nil_iff :
    unassigned vars assigned = [] ↔ ∀ name ∈ vars.names, name ∈ assigned.map Prod.fst := by
  simp only [List.eq_nil_iff_forall_not_mem, mem_unassigned_iff, not_and, not_not]

/-- Filling a slot is setting a value that may be missing. -/
theorem fill_eq_setInitial (vars : SymbolTable) (assigned : List (String × α))
    (slots : List (Option α)) :
    fill vars assigned slots =
      Model.setInitial vars (assigned.map fun entry => (entry.1, some entry.2)) slots := by
  induction assigned generalizing slots with
  | nil => rfl
  | cons entry rest ih =>
      obtain ⟨name, value⟩ := entry
      rw [List.map_cons, fill, Model.setInitial]
      cases vars.indexOf? name with
      | none => rfl
      | some index => exact ih (slots.set index (some value))

theorem lookup_map_some (assigned : List (String × α)) (name : String) :
    ((assigned.map fun entry => (entry.1, some entry.2)).lookup name).getD none =
      assigned.lookup name := by
  induction assigned with
  | nil => rfl
  | cons entry rest ih =>
      rw [List.map_cons, List.lookup_cons, List.lookup_cons]
      cases name == entry.1 with
      | false => exact ih
      | true => rfl

/-- Assignments to known names leave in each slot what is assigned to its variable. -/
theorem fill_eq (hknown : ∀ entry ∈ assigned, entry.1 ∈ vars.names)
    (hnodup : (assigned.map Prod.fst).Nodup) :
    fill vars assigned (List.replicate vars.size none) =
      .ok (vars.names.map fun name => assigned.lookup name) := by
  have hnames : (assigned.map fun entry => (entry.1, some entry.2)).map Prod.fst =
      assigned.map Prod.fst := by
    rw [List.map_map]
    rfl
  have hdeclared : ∀ entry ∈ assigned.map fun entry => (entry.1, some entry.2),
      entry.1 ∈ vars.names := List.forall_mem_map.mpr hknown
  have hset := Model.setInitial_eq hdeclared (hnames ▸ hnodup) fun _ => none
  rw [List.map_const'] at hset
  simp only [lookup_map_some] at hset
  rw [fill_eq_setInitial]
  exact hset

/-- The first name that is not known ends the filling. -/
theorem fill_of_unknown
    (hname : (assigned.map Prod.fst).find? (fun name => !vars.contains name) = some name)
    (slots : List (Option α)) : fill vars assigned slots = .error (.unknownVariable name) := by
  induction assigned generalizing slots with
  | nil => cases hname
  | cons entry rest ih =>
      obtain ⟨first, value⟩ := entry
      rw [List.map_cons, List.find?_cons] at hname
      rw [fill]
      split at hname
      · next hunknown =>
        cases hname
        rw [Bool.not_eq_true', SymbolTable.contains, List.contains_eq_mem, decide_eq_false_iff_not,
          ← List.idxOf?_eq_none_iff] at hunknown
        rw [SymbolTable.indexOf?, hunknown]
      · next hknown =>
        rw [Bool.not_eq_false', SymbolTable.contains_eq_true_iff] at hknown
        rw [SymbolTable.indexOf?_of_mem hknown]
        exact ih hname _

theorem missing_eq (vars : SymbolTable) (assigned : List (String × α)) :
    missing vars (vars.names.map fun name => assigned.lookup name) = unassigned vars assigned := by
  have hslot : ∀ name, (assigned.lookup name).isNone = !(assigned.map Prod.fst).contains name := by
    intro name
    rw [← Option.not_isSome, Bool.not_inj_iff, Bool.eq_iff_iff, isSome_lookup_iff,
      List.contains_iff_mem]
  have hslots : ∀ names : List String, names.zip (names.map fun name => assigned.lookup name) =
      names.map fun name => (name, assigned.lookup name) := by
    intro names
    induction names with
    | nil => rfl
    | cons name rest ih => rw [List.map_cons, List.zip_cons_cons, ih, List.map_cons]
  rw [missing, unassigned, hslots, List.filter_map, List.map_map]
  simp only [Function.comp_def, hslot, List.map_id']

theorem map_some_filterMap {β γ : Type} {f : β → Option γ} {values : List β}
    (hall : ∀ value ∈ values, (f value).isSome = true) :
    (values.filterMap f).map some = values.map f := by
  induction values with
  | nil => rfl
  | cons value rest ih =>
      rw [List.forall_mem_cons] at hall
      obtain ⟨result, hresult⟩ := Option.isSome_iff_exists.mp hall.1
      rw [List.filterMap_cons_some hresult, List.map_cons, List.map_cons, ih hall.2, hresult]

variable [Scalar α] {text other : String}

/-- What stands between separators in a text, without the blanks around it, unless that is
nothing. -/
def entriesOf (text : String) : List (List Char) :=
  ((Text.pieces isSeparator text.toList).map Text.trim).filter fun entry => !entry.isEmpty

theorem entries?_eq_ok_iff {read : List Char → Option α} {seen : List String}
    {entries : List (List Char)} :
    entries? read seen entries = .ok assigned ↔
      List.Forall₂ (fun entry pair => entry? read entry = .ok pair)
        (entries.filter fun entry => !entry.isEmpty) assigned ∧
      (assigned.map Prod.fst).Nodup ∧ (assigned.map Prod.fst).Disjoint seen := by
  constructor
  · intro hentries
    obtain ⟨hnodup, hdisjoint, -⟩ := of_entries? hentries
    refine ⟨?_, hnodup, hdisjoint⟩
    clear hnodup hdisjoint
    fun_induction entries? read seen entries generalizing assigned with
    | case1 seen =>
        cases hentries
        exact .nil
    | case2 seen entry rest hempty ih =>
        rw [List.filter_cons_of_neg (by simp [hempty])]
        exact ih hentries
    | case3 seen entry rest hempty found hentry => cases hentries
    | case4 seen entry rest hempty name value hentry hseen => cases hentries
    | case5 seen entry rest hempty name value hentry hseen ih =>
        obtain ⟨others, hothers, rfl⟩ := map_eq_ok_iff.mp hentries
        rw [List.filter_cons_of_pos (by simp [hempty])]
        exact .cons hentry (ih hothers)
  · rintro ⟨hread, hnodup, hdisjoint⟩
    fun_induction entries? read seen entries generalizing assigned with
    | case1 seen =>
        cases hread
        rfl
    | case2 seen entry rest hempty ih =>
        rw [List.filter_cons_of_neg (by simp [hempty])] at hread
        exact ih hread hnodup hdisjoint
    | case3 seen entry rest hempty found hentry =>
        rw [List.filter_cons_of_pos (by simp [hempty])] at hread
        obtain ⟨pair, others, hpair, -, -⟩ := List.forall₂_cons_left_iff.mp hread
        cases hentry.symm.trans hpair
    | case4 seen entry rest hempty name value hentry hseen =>
        rw [List.filter_cons_of_pos (by simp [hempty])] at hread
        obtain ⟨pair, others, hpair, -, rfl⟩ := List.forall₂_cons_left_iff.mp hread
        cases hentry.symm.trans hpair
        exact absurd (List.contains_iff_mem.mp hseen) (List.disjoint_cons_left.mp hdisjoint).1
    | case5 seen entry rest hempty name value hentry hseen ih =>
        rw [List.filter_cons_of_pos (by simp [hempty])] at hread
        obtain ⟨pair, others, hpair, hothers, rfl⟩ := List.forall₂_cons_left_iff.mp hread
        cases hentry.symm.trans hpair
        rw [List.map_cons, List.nodup_cons] at hnodup
        rw [List.map_cons, List.disjoint_cons_left] at hdisjoint
        rw [ih hothers hnodup.2 (List.disjoint_cons_right.mpr ⟨hnodup.1, hdisjoint.2⟩)]
        rfl

theorem parse_eq_ok_iff :
    parse text = .ok assigned ↔
      List.Forall₂ (fun entry pair => entry? Scalar.read? entry = .ok pair) (entriesOf text)
        assigned ∧ (assigned.map Prod.fst).Nodup := by
  rw [parse, parseWith, entries?_eq_ok_iff]
  simp only [List.disjoint_nil_right, and_true]
  rfl

theorem parse_perm (hentries : (entriesOf text).Perm (entriesOf other))
    (hparse : parse text = .ok assigned) :
    ∃ moved, parse other = .ok moved ∧ assigned.Perm moved := by
  obtain ⟨hread, hnodup⟩ := parse_eq_ok_iff.mp hparse
  obtain ⟨moved, hmoved, hperm⟩ := List.perm_comp_forall₂ hentries.symm hread
  have hdistinct := (hperm.map Prod.fst).nodup_iff.mpr hnodup
  exact ⟨moved, parse_eq_ok_iff.mpr ⟨hmoved, hdistinct⟩, hperm.symm⟩

/-! ## States -/

theorem parseInitialConditions_of_unknown (hparse : parse text = .ok assigned)
    (hname : (assigned.map Prod.fst).find? (fun name => !vars.contains name) = some name) :
    (parseInitialConditions text vars : Except ParseError (List α)) =
      .error (.unknownVariable name) := by
  rw [parseInitialConditions, hparse]
  simp only [fill_of_unknown hname]

/-- With known names only, the state is complete or the other variables are reported. -/
theorem parseInitialConditions_of_known (hparse : parse text = .ok assigned)
    (hknown : ∀ name ∈ assigned.map Prod.fst, name ∈ vars.names) :
    parseInitialConditions text vars =
      if unassigned vars assigned = [] then
        .ok (vars.names.filterMap fun name => assigned.lookup name)
      else .error (.missingInitialConditions (unassigned vars assigned)) := by
  have hnodup := (parse_eq_ok_iff.mp hparse).2
  rw [parseInitialConditions, hparse]
  simp only [fill_eq (List.forall_mem_map.mp hknown) hnodup, missing_eq, List.isEmpty_iff,
    List.filterMap_map]
  rfl

/-- A state is found exactly when the names are those of the variables, and then it lists
what is assigned to them. -/
theorem parseInitialConditions_eq_ok_iff {state : List α} (hparse : parse text = .ok assigned) :
    parseInitialConditions text vars = .ok state ↔
      (assigned.map Prod.fst).Perm vars.names ∧
        state.map some = vars.names.map fun name => assigned.lookup name := by
  have hnodup := (parse_eq_ok_iff.mp hparse).2
  rw [List.perm_ext_iff_of_nodup hnodup vars.nodup]
  cases hunknown : (assigned.map Prod.fst).find? fun name => !vars.contains name with
  | some name =>
      rw [parseInitialConditions_of_unknown hparse hunknown]
      have hcontains := List.find?_some hunknown
      rw [Bool.not_eq_true', ← Bool.not_eq_true, SymbolTable.contains_eq_true_iff] at hcontains
      refine iff_of_false nofun fun hboth => hcontains ?_
      exact (hboth.1 name).mp (List.mem_of_find?_eq_some hunknown)
  | none =>
      have hknown : ∀ name ∈ assigned.map Prod.fst, name ∈ vars.names := by
        simpa [SymbolTable.contains_eq_true_iff] using List.find?_eq_none.mp hunknown
      have hnames : (∀ name, name ∈ assigned.map Prod.fst ↔ name ∈ vars.names) ↔
          unassigned vars assigned = [] := by
        rw [unassigned_eq_nil_iff]
        exact ⟨fun hall name => (hall name).mpr, fun hall name => ⟨hknown name, hall name⟩⟩
      rw [parseInitialConditions_of_known hparse hknown, hnames]
      by_cases hnil : unassigned vars assigned = []
      · have hsome := map_some_filterMap fun name hname =>
          isSome_lookup_iff.mpr (unassigned_eq_nil_iff.mp hnil name hname)
        rw [if_pos hnil, Except.ok.injEq, ← hsome, and_iff_right hnil, eq_comm,
          (List.map_injective_iff.mpr (Option.some_injective α)).eq_iff]
      · rw [if_neg hnil]
        exact iff_of_false nofun fun hboth => hnil hboth.1

theorem parse_of_parseInitialConditions {state : List α}
    (hstate : parseInitialConditions text vars = .ok state) :
    ∃ assigned : List (String × α), parse text = .ok assigned := by
  unfold parseInitialConditions at hstate
  split at hstate
  · cases hstate
  · next assigned hassigned => exact ⟨assigned, hassigned⟩

/-- A text gives a state exactly when it can be read and assigns to each variable once and
to nothing else.  The state has the value for a variable in the place of the variable,
wherever it stands in the text.  When some variables are left out, they are all listed, in
their order. -/
theorem parseInitialConditions_by_name (text : String) (vars : SymbolTable) :
    ((∃ state : List α, parseInitialConditions text vars = .ok state) ↔
      ∃ assigned : List (String × α), parse text = .ok assigned ∧
        (assigned.map Prod.fst).Perm vars.names) ∧
    (∀ (assigned : List (String × α)) (state : List α), parse text = .ok assigned →
      parseInitialConditions text vars = .ok state →
        state.length = vars.size ∧ ∀ k name, vars.name? k = some name →
          ∃ value, (name, value) ∈ assigned ∧ state[k]? = some value) ∧
    (∀ (other : String) (state : List α), (entriesOf text).Perm (entriesOf other) →
      parseInitialConditions text vars = .ok state →
        parseInitialConditions other vars = .ok state) ∧
    ∀ assigned : List (String × α), parse text = .ok assigned →
      (∀ name ∈ assigned.map Prod.fst, name ∈ vars.names) →
      (∃ name ∈ vars.names, name ∉ assigned.map Prod.fst) →
        (parseInitialConditions text vars : Except ParseError (List α)) =
          .error (.missingInitialConditions
            (vars.names.filter fun name => !(assigned.map Prod.fst).contains name)) := by
  refine ⟨⟨fun ⟨state, hstate⟩ => ?_, fun ⟨assigned, hparse, hnames⟩ => ?_⟩, ?_, ?_, ?_⟩
  · obtain ⟨assigned, hparse⟩ := parse_of_parseInitialConditions hstate
    exact ⟨assigned, hparse, ((parseInitialConditions_eq_ok_iff hparse).mp hstate).1⟩
  · have hall : ∀ name ∈ vars.names, (assigned.lookup name).isSome = true := fun name hname =>
      isSome_lookup_iff.mpr (hnames.mem_iff.mpr hname)
    exact ⟨_, (parseInitialConditions_eq_ok_iff hparse).mpr ⟨hnames, map_some_filterMap hall⟩⟩
  · intro assigned state hparse hstate
    obtain ⟨hnames, hvalues⟩ := (parseInitialConditions_eq_ok_iff hparse).mp hstate
    have hnodup := (parse_eq_ok_iff.mp hparse).2
    have hlength : state.length = vars.size := by
      simpa [SymbolTable.size] using congrArg List.length hvalues
    refine ⟨hlength, fun k name hname => ?_⟩
    have hentry := congrArg (·[k]?) hvalues
    simp only [List.getElem?_map] at hentry
    rw [show vars.names[k]? = some name from hname, Option.map_some] at hentry
    obtain ⟨value, hvalue, hlookup⟩ := Option.map_eq_some_iff.mp hentry
    exact ⟨value, (lookup_eq_some_iff_of_nodup hnodup).mp hlookup.symm, hvalue⟩
  · intro other state hentries hstate
    obtain ⟨assigned, hparse⟩ := parse_of_parseInitialConditions hstate
    obtain ⟨moved, hmoved, hperm⟩ := parse_perm hentries hparse
    obtain ⟨hnames, hvalues⟩ := (parseInitialConditions_eq_ok_iff hparse).mp hstate
    have hnodup := (parse_eq_ok_iff.mp hparse).2
    refine (parseInitialConditions_eq_ok_iff hmoved).mpr
      ⟨(hperm.map Prod.fst).symm.trans hnames, hvalues.trans ?_⟩
    exact List.map_congr_left fun name _ => lookup_perm hnodup hperm
  · rintro assigned hparse hknown ⟨name, hname, hnot⟩
    rw [parseInitialConditions_of_known hparse hknown, if_neg]
    · rfl
    · exact List.ne_nil_of_mem (mem_unassigned_iff.mpr ⟨hname, hnot⟩)

/-- A position in space, given in two orders, and in part. -/
theorem parseInitialConditions_by_name_position :
    let number (digits : Nat) : Float := Scalar.ofNumeral (.decimal false digits 0)
    let assigned := [("z", number 3), ("x", number 1), ("y", number 2)]
    let vars : SymbolTable := .ofList ["x", "y", "z"]
    parse "z=3; x=1; y=2" = .ok assigned ∧ (assigned.map Prod.fst).Perm vars.names ∧
      parseInitialConditions "z=3; x=1; y=2" vars = .ok [number 1, number 2, number 3] ∧
      (∃ value, ("z", value) ∈ assigned ∧ [number 1, number 2, number 3][2]? = some value) ∧
      parseInitialConditions "x=1\n;z=3; y=2;" vars = .ok [number 1, number 2, number 3] ∧
      parse "y=1" = .ok [("y", number 1)] ∧
      (parseInitialConditions "y=1" vars : Except ParseError (List Float)) =
        .error (.missingInitialConditions ["x", "z"]) := by
  intro number assigned vars
  have hparse : parse "z=3; x=1; y=2" = .ok assigned := by with_unfolding_all rfl
  have hpart : parse "y=1" = .ok [("y", number 1)] := by with_unfolding_all rfl
  have hnames : (assigned.map Prod.fst).Perm vars.names := by decide
  have hentries : (entriesOf "z=3; x=1; y=2").Perm (entriesOf "x=1\n;z=3; y=2;") := by
    decide +kernel
  have hstate : parseInitialConditions "z=3; x=1; y=2" vars =
      .ok [number 1, number 2, number 3] := by
    with_unfolding_all rfl
  obtain ⟨-, hplaces, hreordered, -⟩ :=
    parseInitialConditions_by_name (α := Float) "z=3; x=1; y=2" vars
  refine ⟨hparse, hnames, hstate, (hplaces _ _ hparse hstate).2 2 "z" rfl,
    hreordered _ _ hentries hstate, hpart, ?_⟩
  exact (parseInitialConditions_by_name "y=1" vars).2.2.2 _ hpart (by decide) (by decide)

end ImplicitDynamics.Assignments
