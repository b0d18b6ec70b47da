import ImplicitDynamics.Proofs.PrintedModels

/-!
# Lines that declare a parameter

A parameter is declared with its type or without.  The type is looked for as the first
characters of a declaration, not as its first word.  So a declaration with the type keeps
every name, and one without the type keeps a name exactly if it does not begin like the
type: of a name that does, the rest is declared.
-/

namespace ImplicitDynamics

theorem Comment.stripAll_concat {inBlock : Bool} {lines : List String}
    (hclosed : (stripAll inBlock lines).2 = false) (line : String) :
    stripAll inBlock (lines ++ [line]) =
      ((stripAll inBlock lines).1 ++ [(strip false line).1], (strip false line).2) := by
  induction lines generalizing inBlock with
  | nil =>
      have hout : inBlock = false := hclosed
      rw [hout]
      rfl
  | cons first rest ih =>
      have hrest := @ih (strip inBlock first).2 hclosed
      rw [List.cons_append, stripAll, stripAll]
      simp only [hrest, List.cons_append]

namespace Model

variable {α : Type} [Scalar α]

/-- What is drafted of a model when some lines have been read. -/
def draftOf (lines : List String) : Except ParseError (Draft α) :=
  readLines ⟨empty, .declarations⟩ 1 ((Comment.stripAll false lines).1.map Statement.body)

variable {draft next : Draft α} {bodies lines : List String} {item line : List Char}

theorem parse_eq_ok_iff {text : String} {model : Model α} :
    parse text = .ok model ↔
      ∃ draft, draftOf ((Text.lines text.toList).map String.ofList) = .ok draft ∧
        draft.model = model ∧ ∀ entry ∈ model.initialValues, entry.1 ∈ model.vars := by
  unfold parse draftOf
  simp only
  cases readLines (⟨empty, .declarations⟩ : Draft α) 1
      ((Comment.stripAll false ((Text.lines text.toList).map String.ofList)).1.map
        Statement.body) with
  | error cause => simp
  | ok draft =>
      simp only [Except.ok.injEq, exists_eq_left']
      cases hfind : draft.model.initialValues.find? fun x => !draft.model.vars.contains x.1 with
      | some entry =>
          have hundeclared := List.find?_some hfind
          have hentry := List.mem_of_find?_eq_some hfind
          rw [Bool.not_eq_true', List.contains_eq_mem, decide_eq_false_iff_not] at hundeclared
          simp only [reduceCtorEq, false_iff, not_and]
          rintro rfl hall
          exact hundeclared (hall entry hentry)
      | none =>
          rw [List.find?_eq_none] at hfind
          simp only [Except.ok.injEq, iff_self_and]
          rintro rfl entry hentry
          simpa using hfind entry hentry

theorem readLines_append {number : Nat} (hbodies : readLines draft number bodies = .ok next)
    (others : List String) :
    readLines draft number (bodies ++ others) =
      readLines next (number + bodies.length) others := by
  fun_induction readLines draft number bodies with
  | case1 draft number =>
      cases hbodies
      rfl
  | case2 draft number text rest hempty ih =>
      rw [List.cons_append, readLines, if_pos hempty, ih hbodies, List.length_cons,
        Nat.add_right_comm, Nat.add_assoc]
  | case3 draft number text rest hempty cause hline => cases hbodies
  | case4 draft number text rest hempty between hline ih =>
      rw [List.cons_append, readLines, if_neg hempty, hline]
      simp only
      rw [ih hbodies, List.length_cons, Nat.add_right_comm, Nat.add_assoc]

/-- The line after others that leave no comment open is read on its own. -/
theorem draftOf_concat (hlines : draftOf lines = .ok draft)
    (hclosed : (Comment.stripAll false lines).2 = false) (hitem : Comment.Item item)
    (hline : Comment.Holds item line) :
    ∃ number, draftOf (lines ++ [String.ofList line]) =
      readLine draft number (String.ofList item) := by
  have hbody := (hitem.body_strip hline).2
  have hnonempty : ¬ (String.ofList item).isEmpty = true := by
    simpa using hitem.ne_nil
  refine ⟨1 + ((Comment.stripAll false lines).1.map Statement.body).length, ?_⟩
  rw [draftOf, Comment.stripAll_concat hclosed, List.map_append, List.map_singleton, hbody,
    readLines_append hlines, readLines, if_neg hnonempty]
  cases readLine draft _ (String.ofList item) <;> rfl

omit [Scalar α] in
theorem withParameter_inj {name other : String} {value : α} :
    draft.withParameter name value = draft.withParameter other value ↔ name = other := by
  simp [Draft.withParameter]

variable {print : α → List Char} {name short : String} {value : α}

theorem untyped_realName (hspelled : Spelled print (short, value)) :
    untyped (assignment print ("Real" ++ short, value)) = assignment print (short, value) := by
  have hafter : Text.after? "Real".toList (assignment print ("Real" ++ short, value)) =
      some (assignment print (short, value)) :=
    Text.after?_eq_some_iff.mpr (by simp [assignment])
  rw [untyped, hafter, Option.map_some, Option.getD_some, Text.trim_of_tight hspelled.tight]

/-- The type has no blanks, so that the blank after the name would come too early. -/
theorem untyped_name (hspelled : Spelled print (name, value))
    (hname : ¬ "Real".toList <+: name.toList) :
    untyped (assignment print (name, value)) = assignment print (name, value) := by
  have hafter : Text.after? "Real".toList (assignment print (name, value)) = none := by
    rw [Text.after?_eq_none_iff]
    rintro ⟨rest, hrest⟩
    apply hname
    have hword : (assignment print (name, value)).takeWhile Name.isPart = name.toList := by
      rw [assignment_eq, List.takeWhile_append_of_pos hspelled.isPart,
        List.takeWhile_cons_of_neg (by decide), List.append_nil]
    rw [← hword, ← hrest, List.takeWhile_append_of_pos (List.all_eq_true.mp (by decide))]
    exact List.prefix_append _ _
  rw [untyped, hafter, Option.map_none, Option.getD_none]

omit [Scalar α] in
theorem eq_withParameter_of_addParameter (hadd : addParameter draft name value = .ok next) :
    next = draft.withParameter name value := by
  unfold addParameter at hadd
  split at hadd
  · cases hadd
  · split at hadd
    · cases hadd
    · split at hadd
      · cases hadd
      · exact (Except.ok.inj hadd).symm

theorem draftOf_line (hlines : draftOf lines = .ok draft)
    (hclosed : (Comment.stripAll false lines).2 = false) {rest : List Char} (hrest : Line rest)
    (hspelled : Spelled print (name, value))
    (huntyped : untyped rest = assignment print (name, value))
    (hline : Comment.Holds (phrase "parameter" rest) line) :
    draftOf (lines ++ [String.ofList line]) =
      if Name.isIdentifier name then addParameter draft name value
      else .error (.invalidAssignment (String.ofList (assignment print (name, value)))) := by
  obtain ⟨number, hdraft⟩ := draftOf_concat hlines hclosed
    (Line.phrase (show "parameter" ∈ keywords by decide) hrest).item hline
  rw [hdraft, readLine_parameter hspelled hrest.item.tight huntyped]

/-! ## Lines with and without the type -/

variable {typed plain : List Char}

/-- The type itself is not a name, so that something is left of a name that begins like it. -/
theorem Nameable.spelled_short (hname : Nameable ("Real" ++ short))
    (hread : Scalar.read? (print value) = some value) (hfinite : Scalar.isFinite value = true) :
    Spelled print (short, value) where
  isPart c hc := by
    apply Name.isPart_of_isIdentifier hname.isIdentifier
    rw [String.toList_append]
    exact List.mem_append_right _ hc
  ne_nil := by
    rintro hnil
    obtain rfl : short = "" := String.toList_eq_nil_iff.mp hnil
    exact hname.not_mem_keywords (by decide)
  isFinite := hfinite
  read_print := hread

/-- A name after its type is declared, and so is a name without it that does not begin
like the type.  Of a name that does, the rest is declared and the name itself is not. -/
theorem draftOf_parameter (hlines : draftOf lines = .ok draft)
    (hclosed : (Comment.stripAll false lines).2 = false) (hname : Nameable name)
    (hvars : name ∉ draft.model.vars) (hparameters : name ∉ draft.model.parameters.map Prod.fst)
    (hread : Scalar.read? (print value) = some value) (hfinite : Scalar.isFinite value = true)
    (htyped : Comment.Holds
      (phrase "parameter" (phrase "Real" (assignment print (name, value)))) typed)
    (hplain : Comment.Holds (phrase "parameter" (assignment print (name, value))) plain) :
    draftOf (lines ++ [String.ofList typed]) = .ok (draft.withParameter name value) ∧
    (draftOf (lines ++ [String.ofList plain]) = .ok (draft.withParameter name value) ↔
      ¬ "Real".toList <+: name.toList) ∧
    ∀ short, name = "Real" ++ short → ∀ other,
      Comment.Holds
        (phrase "parameter" (phrase "Real" (assignment print (short, value)))) other →
      (draftOf (lines ++ [String.ofList plain]) : Except ParseError (Draft α)) =
        draftOf (lines ++ [String.ofList other]) := by
  have hspelled : Spelled print (name, value) :=
    Assignable.spelled ⟨hname.isIdentifier, hfinite, hread⟩
  have hreal : Line (phrase "Real" (assignment print (name, value))) :=
    .phrase (by decide) hspelled.line
  have hadded : addParameter draft name value = .ok (draft.withParameter name value) :=
    addParameter_eq_ok hname hvars hparameters
  refine ⟨?_, ⟨?_, fun hother => ?_⟩, ?_⟩
  · rw [draftOf_line hlines hclosed hreal hspelled (untyped_real hspelled) htyped,
      if_pos hname.isIdentifier, hadded]
  · rintro hkept ⟨rest, hrest⟩
    obtain ⟨short, rfl⟩ : ∃ short, name = "Real" ++ short := by
      refine ⟨String.ofList rest, String.toList_inj.mp ?_⟩
      rw [← hrest, String.toList_append, @String.toList_ofList rest]
    have hshort : Spelled print (short, value) := hname.spelled_short hread hfinite
    rw [draftOf_line hlines hclosed hspelled.line hshort (untyped_realName hshort) hplain]
      at hkept
    split at hkept
    · have heq := withParameter_inj.mp (eq_withParameter_of_addParameter hkept)
      have hlength := congrArg String.length heq
      rw [String.length_append, show "Real".length = 4 by decide] at hlength
      omega
    · cases hkept
  · rw [draftOf_line hlines hclosed hspelled.line hspelled (untyped_name hspelled hother) hplain,
      if_pos hname.isIdentifier, hadded]
  · rintro short rfl other hline
    have hshort : Spelled print (short, value) := hname.spelled_short hread hfinite
    have hreal' : Line (phrase "Real" (assignment print (short, value))) :=
      .phrase (by decide) hshort.line
    rw [draftOf_line hlines hclosed hspelled.line hshort (untyped_realName hshort) hplain,
      draftOf_line hlines hclosed hreal' hshort (untyped_real hshort) hline]

/-- What both ways to declare a parameter with a name like the type add to a draft. -/
theorem draftOf_parameter_realm :
    let five : Float := Scalar.ofNumeral (.decimal false 5 0)
    let draft : Draft Float := ⟨⟨none, ["x"], [], [], []⟩, .declarations⟩
    draftOf ["Real x;"] = .ok draft ∧ (Comment.stripAll false ["Real x;"]).2 = false ∧
      Nameable "Realm" ∧ Scalar.read? "5".toList = some five ∧ Scalar.isFinite five = true ∧
      draftOf ["Real x;", "  parameter Real Realm = 5;"] =
        .ok (draft.withParameter "Realm" five) ∧
      draftOf ["Real x;", "parameter Realm = 5;"] ≠ .ok (draft.withParameter "Realm" five) ∧
      (draftOf ["Real x;", "parameter Realm = 5;"] : Except ParseError (Draft Float)) =
        draftOf ["Real x;", "parameter Real m = 5;"] := by
  intro five draft
  have hlines : draftOf ["Real x;"] = .ok draft := by with_unfolding_all rfl
  have hclosed : (Comment.stripAll false ["Real x;"]).2 = false := by decide +kernel
  have hname : Nameable "Realm" := ⟨by decide, by decide, by decide⟩
  have hread : Scalar.read? "5".toList = some five := by with_unfolding_all rfl
  have hfinite : Scalar.isFinite five = true := by decide +kernel
  let print : Float → List Char := fun _ => "5".toList
  have htyped : Comment.Holds
      (phrase "parameter" (phrase "Real" (assignment print ("Realm", five))))
      "  parameter Real Realm = 5;".toList :=
    ⟨"  ".toList, [], [';'], [], by decide, by decide, by simp, by decide, by decide +kernel⟩
  have hplain : Comment.Holds (phrase "parameter" (assignment print ("Realm", five)))
      "parameter Realm = 5;".toList :=
    ⟨[], [], [';'], [], by decide, by decide, by simp, by decide, by decide +kernel⟩
  have hother : Comment.Holds (phrase "parameter" (phrase "Real" (assignment print ("m", five))))
      "parameter Real m = 5;".toList :=
    ⟨[], [], [';'], [], by decide, by decide, by simp, by decide, by decide +kernel⟩
  obtain ⟨hreal, hkept, hshort⟩ := draftOf_parameter hlines hclosed hname
    (by simp [draft]) (by simp [draft]) hread hfinite htyped hplain
  have hsame := hshort "m" (by decide) _ hother
  simp only [String.ofList_toList, List.singleton_append] at hreal hkept hsame
  exact ⟨hlines, hclosed, hname, hread, hfinite, hreal,
    fun hadded => hkept.mp hadded (by decide), hsame⟩

theorem parse_realm :
    let five : Float := Scalar.ofNumeral (.decimal false 5 0)
    Nameable "Realm" ∧ Scalar.read? "5".toList = some five ∧ Scalar.isFinite five = true ∧
      parse "parameter Real Realm = 5;" = .ok ⟨none, [], [("Realm", five)], [], []⟩ ∧
      parse "parameter Realm = 5;" = .ok ⟨none, [], [("m", five)], [], []⟩ ∧
      parse "parameter Realm = 5;" ≠ .ok ⟨none, [], [("Realm", five)], [], []⟩ := by
  intro five
  have hparse : parse "parameter Realm = 5;" = .ok ⟨none, [], [("m", five)], [], []⟩ := by
    with_unfolding_all rfl
  refine ⟨⟨by decide, by decide, by decide⟩, by with_unfolding_all rfl, by decide +kernel,
    by with_unfolding_all rfl, hparse, ?_⟩
  rw [hparse]
  simp

end Model

end ImplicitDynamics
