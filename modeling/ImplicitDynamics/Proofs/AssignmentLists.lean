import ImplicitDynamics.Equation.Assignments
import ImplicitDynamics.Proofs.Exact
import ImplicitDynamics.Proofs.Shifting
import ImplicitDynamics.Proofs.Texts

/-!
# Lists of assignments put together

Assignments are read entry by entry, and all that one entry hands on to the next are the
names that are taken.  Two lists with a separator between them are therefore read like
the first alone, and then like the second with the names of the first taken.  What the
second list says stays the same up to the first name that is taken.
-/

namespace ImplicitDynamics

theorem Text.pieces_append_separator {p : Char → Bool} {c : Char} (hc : p c = true)
    (before after : List Char) :
    pieces p (before ++ c :: after) = pieces p before ++ pieces p after := by
  induction before with
  | nil => simp [pieces, hc]
  | cons b before ih =>
      rw [List.cons_append, pieces, pieces, ih]
      by_cases hb : p b = true
      · rw [if_pos hb, if_pos hb, List.cons_append]
      · rw [if_neg hb, if_neg hb]
        obtain ⟨piece, others, hpieces⟩ := List.exists_cons_of_ne_nil (pieces_ne_nil p before)
        rw [hpieces]
        rfl

namespace Assignments

variable {α : Type} [Scalar α] {read : List Char → Option α} {seen taken : List String}
  {entries first second : List (List Char)} {assigned : List (String × α)} {cause : ParseError}

theorem sound_of_entry {entry : List Char} {name : String} {value : α}
    (hentry : entry? read entry = .ok (name, value)) :
    Name.isIdentifier name = true ∧ Scalar.isFinite value = true := by
  unfold entry? at hentry
  split at hentry
  · cases hentry
  · simp only at hentry
    split at hentry
    · cases hentry
    · next hname =>
      split at hentry
      · next number hnumber =>
        cases hentry
        rw [Bool.or_eq_true, not_or, Bool.not_eq_true', Bool.not_eq_false] at hname
        exact ⟨hname.1, (Option.filter_eq_some_iff.mp hnumber).2⟩
      · cases hentry

theorem entries?_new {entry : List Char} {rest : List (List Char)} {name : String} {value : α}
    (hempty : ¬ entry.isEmpty = true) (hentry : entry? read entry = .ok (name, value))
    (hseen : ¬ seen.contains name = true) :
    entries? read seen (entry :: rest) =
      (entries? read (name :: seen) rest).map ((name, value) :: ·) := by
  rw [entries?, if_neg hempty, hentry]
  exact if_neg hseen

theorem entries?_taken {entry : List Char} {rest : List (List Char)} {name : String} {value : α}
    (hempty : ¬ entry.isEmpty = true) (hentry : entry? read entry = .ok (name, value))
    (hseen : seen.contains name = true) :
    entries? read seen (entry :: rest) = .error (.duplicateAssignment name) := by
  rw [entries?, if_neg hempty, hentry]
  exact if_pos hseen

theorem entries?_faulty {entry : List Char} {rest : List (List Char)}
    (hempty : ¬ entry.isEmpty = true) (hentry : entry? read entry = .error cause) :
    entries? read seen (entry :: rest) = .error cause := by
  rw [entries?, if_neg hempty, hentry]

/-- No name is assigned twice or taken before, and each entry is well-formed. -/
theorem of_entries? (hentries : entries? read seen entries = .ok assigned) :
    (assigned.map Prod.fst).Nodup ∧ (assigned.map Prod.fst).Disjoint seen ∧
      ∀ entry ∈ assigned, Name.isIdentifier entry.1 = true ∧ Scalar.isFinite entry.2 = true := by
  fun_induction entries? read seen entries generalizing assigned with
  | case1 seen =>
      cases hentries
      simp
  | case2 seen entry rest hempty ih => exact ih hentries
  | case3 seen entry rest hempty found hentry => cases hentries
  | case4 seen entry rest hempty name value hentry hseen => cases hentries
  | case5 seen entry rest hempty name value hentry hseen ih =>
      obtain ⟨others, hothers, rfl⟩ := map_eq_ok_iff.mp hentries
      obtain ⟨hnodup, hdisjoint, hall⟩ := ih hothers
      rw [List.disjoint_cons_right] at hdisjoint
      rw [List.contains_iff_mem] at hseen
      refine ⟨List.nodup_cons.mpr ⟨hdisjoint.1, hnodup⟩,
        List.disjoint_cons_left.mpr ⟨hseen, hdisjoint.2⟩, ?_⟩
      rw [List.forall_mem_cons]
      exact ⟨sound_of_entry hentry, hall⟩

theorem entries?_append_of_error (hfirst : entries? read seen first = .error cause) :
    entries? read seen (first ++ second) = .error cause := by
  fun_induction entries? read seen first with
  | case1 seen => cases hfirst
  | case2 seen entry rest hempty ih =>
      rw [List.cons_append, entries?, if_pos hempty]
      exact ih hfirst
  | case3 seen entry rest hempty found hentry =>
      rw [List.cons_append, entries?_faulty hempty hentry]
      exact hfirst
  | case4 seen entry rest hempty name value hentry hseen =>
      rw [List.cons_append, entries?_taken hempty hentry hseen]
      exact hfirst
  | case5 seen entry rest hempty name value hentry hseen ih =>
      rw [List.cons_append, entries?_new hempty hentry hseen]
      cases hrest : entries? read (name :: seen) rest with
      | error found =>
          rw [hrest] at hfirst
          rw [ih (hrest.trans hfirst)]
          rfl
      | ok others =>
          rw [hrest] at hfirst
          cases hfirst

theorem entries?_append_of_ok (hfirst : entries? read seen first = .ok assigned) :
    entries? read seen (first ++ second) =
      (entries? read ((assigned.map Prod.fst).reverse ++ seen) second).map (assigned ++ ·) := by
  fun_induction entries? read seen first generalizing assigned with
  | case1 seen =>
      cases hfirst
      simp only [List.nil_append, List.map_nil, List.reverse_nil]
      cases entries? read seen second <;> rfl
  | case2 seen entry rest hempty ih =>
      rw [List.cons_append, entries?, if_pos hempty]
      exact ih hfirst
  | case3 seen entry rest hempty found hentry => cases hfirst
  | case4 seen entry rest hempty name value hentry hseen => cases hfirst
  | case5 seen entry rest hempty name value hentry hseen ih =>
      obtain ⟨others, hothers, rfl⟩ := map_eq_ok_iff.mp hfirst
      have hnames : (((name, value) :: others).map Prod.fst).reverse ++ seen =
          (others.map Prod.fst).reverse ++ name :: seen := by simp
      rw [List.cons_append, entries?_new hempty hentry hseen, ih hothers, hnames]
      cases entries? read ((others.map Prod.fst).reverse ++ name :: seen) second <;> rfl

/-- Entries that can be read stay so when further names are taken, up to the first of
their names that is one of these. -/
theorem entries?_of_ok (hentries : entries? read seen entries = .ok assigned)
    (taken : List String) :
    entries? read (seen ++ taken) entries =
      match (assigned.map Prod.fst).find? taken.contains with
      | none => .ok assigned
      | some name => .error (.duplicateAssignment name) := by
  fun_induction entries? read seen entries generalizing assigned with
  | case1 seen =>
      cases hentries
      rfl
  | case2 seen entry rest hempty ih =>
      rw [entries?, if_pos hempty]
      exact ih hentries
  | case3 seen entry rest hempty found hentry => cases hentries
  | case4 seen entry rest hempty name value hentry hseen => cases hentries
  | case5 seen entry rest hempty name value hentry hseen ih =>
      obtain ⟨others, hothers, rfl⟩ := map_eq_ok_iff.mp hentries
      rw [List.map_cons, List.find?_cons]
      cases htaken : taken.contains name with
      | true =>
          have hknown : (seen ++ taken).contains name = true := by
            rw [List.contains_append, htaken, Bool.or_true]
          rw [entries?_taken hempty hentry hknown]
      | false =>
          have hnew : ¬ (seen ++ taken).contains name = true := by
            rw [List.contains_append, htaken, Bool.or_false]
            exact hseen
          rw [entries?_new hempty hentry hnew, ← List.cons_append, ih hothers]
          cases (others.map Prod.fst).find? taken.contains <;> rfl

/-- Lists of assignments are concatenated, unless the second list assigns to a name of
the first; what is wrong with the first list is wrong with both together.  What can be
read assigns finite numbers to names, to each name once. -/
theorem parseWith_joined (read : List Char → Option α) (first second : String)
    {separator : Char} (hseparator : separator = ';' ∨ separator = '\n') :
    (∀ assigned others, parseWith read first = .ok assigned →
      parseWith read second = .ok others →
      parseWith read (first.push separator ++ second) =
        match (others.map Prod.fst).find? (assigned.map Prod.fst).contains with
        | none => .ok (assigned ++ others)
        | some name => .error (.duplicateAssignment name)) ∧
    (∀ cause, parseWith read first = .error cause →
      parseWith read (first.push separator ++ second) = .error cause) ∧
    ∀ text assigned, parseWith read text = .ok assigned →
      (assigned.map Prod.fst).Nodup ∧
        ∀ entry ∈ assigned, Name.isIdentifier entry.1 = true ∧ Scalar.isFinite entry.2 = true := by
  have hjoined : (Text.pieces isSeparator (first.push separator ++ second).toList).map Text.trim =
      (Text.pieces isSeparator first.toList).map Text.trim ++
        (Text.pieces isSeparator second.toList).map Text.trim := by
    have hmark : isSeparator separator = true := by simpa [isSeparator] using hseparator
    rw [String.toList_append, String.toList_push, List.append_assoc, List.singleton_append,
      Text.pieces_append_separator hmark, List.map_append]
  refine ⟨fun assigned others hfirst hsecond => ?_, fun cause hfirst => ?_,
    fun text assigned htext => ?_⟩
  · have hsecond' := entries?_of_ok hsecond (assigned.map Prod.fst).reverse
    have htaken : (assigned.map Prod.fst).reverse.contains = (assigned.map Prod.fst).contains := by
      funext name
      exact List.contains_reverse
    rw [List.nil_append, htaken] at hsecond'
    rw [parseWith, hjoined, entries?_append_of_ok hfirst, List.append_nil, hsecond']
    cases (others.map Prod.fst).find? (assigned.map Prod.fst).contains <;> rfl
  · rw [parseWith, hjoined]
    exact entries?_append_of_error hfirst
  · obtain ⟨hnodup, -, hall⟩ := of_entries? htext
    exact ⟨hnodup, hall⟩

/-- The name `c` is assigned in both lists, and before the name `k` is for the second time. -/
theorem parseWith_joined_springs :
    let number (digits : Nat) : ℝ := Scalar.ofNumeral (.decimal false digits 0)
    let read : List Char → Option ℝ := Scalar.read?
    parseWith read "k = 1;; c=2" = .ok [("k", number 1), ("c", number 2)] ∧
      parseWith read "m=3; c=4\nk=5" = .ok [("m", number 3), ("c", number 4), ("k", number 5)] ∧
      parseWith read "k = 1;; c=2\nm=3; c=4\nk=5" = .error (.duplicateAssignment "c") ∧
      parseWith read "k 2" = .error (.invalidAssignment "k 2") ∧
      parseWith read "k 2;k = 1;; c=2" = .error (.invalidAssignment "k 2") ∧
      ["k", "c"].Nodup := by
  intro number read
  have hfirst : parseWith read "k = 1;; c=2" = .ok [("k", number 1), ("c", number 2)] := by
    with_unfolding_all rfl
  have hsecond : parseWith read "m=3; c=4\nk=5" =
      .ok [("m", number 3), ("c", number 4), ("k", number 5)] := by
    with_unfolding_all rfl
  have hfaulty : parseWith read "k 2" = .error (.invalidAssignment "k 2") := by
    with_unfolding_all rfl
  refine ⟨hfirst, hsecond, (parseWith_joined read _ _ (.inr rfl)).1 _ _ hfirst hsecond, hfaulty,
    (parseWith_joined read _ "k = 1;; c=2" (.inl rfl)).2.1 _ hfaulty, ?_⟩
  exact ((parseWith_joined read "" "" (.inl rfl)).2.2 _ _ hfirst).1

end Assignments

end ImplicitDynamics
