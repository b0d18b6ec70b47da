import ImplicitDynamics.Equation.Model
import ImplicitDynamics.Proofs.Comments

/-!
# Models as they are printed

A model is printed item by item, each on a line of its own.  What a line adds to the
draft of a model depends only on its first word and on the section that it stands in,
so the items of one kind rebuild one field of the model, in their order.

A name may begin like a keyword: what counts is the whole word up to the first blank.
-/

namespace ImplicitDynamics

namespace Numeral

/-- The characters that numbers are written with. -/
def isMark (c : Char) : Bool :=
  Name.isPart c || c = '+' || c = '-' || c = '.'

theorem isBlank_of_isMark {c : Char} (hc : isMark c = true) : Text.isBlank c = false := by
  simp only [isMark, Bool.or_eq_true, decide_eq_true_eq] at hc
  rcases hc with ((hc | rfl) | rfl) | rfl
  · exact isBlank_of_isPart hc
  · decide
  · decide
  · decide

theorem isMark_of_isDigit {c : Char} (hc : c.isDigit = true) : isMark c = true := by
  simp [isMark, isPart_of_isDigit hc]

theorem isMark_of_isAlpha {c : Char} (hc : c.isAlpha = true) : isMark c = true := by
  simp [isMark, Name.isPart, Char.isAlphanum, hc]

theorem isMark_of_toLower {c : Char} (hc : c.toLower.isAlpha = true) : isMark c = true := by
  apply isMark_of_isAlpha
  unfold Char.toLower at hc
  split at hc
  · next hupper =>
    have hcase : c.isUpper = true := decide_eq_true hupper
    exact Bool.or_eq_true_iff.mpr (.inl hcase)
  · exact hc

theorem isMark_of_exponent? {text : List Char} {exponent : Int}
    (htext : exponent? text = some exponent) : ∀ c ∈ text, isMark c = true := by
  have hdigits : ∀ {digits : List Char} {value : Option Int},
      (if (digits.isEmpty || !digits.all Char.isDigit) = true then none else value) =
        some exponent → ∀ c ∈ digits, isMark c = true := by
    intro digits value hvalue c hc
    split at hvalue
    · cases hvalue
    · next hall =>
      simp only [Bool.or_eq_true, not_or, Bool.not_eq_true', Bool.not_eq_false,
        List.all_eq_true] at hall
      exact isMark_of_isDigit (hall.2 c hc)
  cases text with
  | nil => exact List.forall_mem_nil _
  | cons mark rest =>
      unfold exponent? at htext
      dsimp only at htext
      by_cases hmark : mark.toLower = 'e'
      · rw [if_pos hmark] at htext
        rw [List.forall_mem_cons]
        refine ⟨isMark_of_toLower (by rw [hmark]; decide), ?_⟩
        split at htext
        · exact List.forall_mem_cons.mpr ⟨by decide, hdigits htext⟩
        · exact List.forall_mem_cons.mpr ⟨by decide, hdigits htext⟩
        · exact hdigits htext
      · rw [if_neg hmark] at htext
        cases htext

theorem isMark_of_magnitude? {negative : Bool} {text : List Char} {numeral : Numeral}
    (htext : magnitude? negative text = some numeral) : ∀ c ∈ text, isMark c = true := by
  have hrun : ∀ text : List Char, ∀ c ∈ text.takeWhile Char.isDigit, isMark c = true :=
    fun text c hc => isMark_of_isDigit (List.mem_takeWhile_imp hc)
  have hrest : ∀ {missing : Bool} {rest : List Char} {read : Int → Numeral},
      (if missing = true then none else (exponent? rest).map read) = some numeral →
        ∀ c ∈ rest, isMark c = true := by
    intro missing rest read hread
    split at hread
    · cases hread
    · rcases Option.map_eq_some_iff.mp hread with ⟨exponent, hexponent, -⟩
      exact isMark_of_exponent? hexponent
  unfold magnitude? at htext
  simp only at htext
  rw [← @List.takeWhile_append_dropWhile _ Char.isDigit text, List.forall_mem_append]
  refine ⟨hrun text, ?_⟩
  split at htext
  · next rest heq =>
    rw [heq, List.forall_mem_cons, ← @List.takeWhile_append_dropWhile _ Char.isDigit rest,
      List.forall_mem_append]
    exact ⟨by decide, hrun rest, hrest htext⟩
  · exact hrest htext

theorem isMark_of_unsigned? {negative : Bool} {text : List Char} {numeral : Numeral}
    (htext : unsigned? negative text = some numeral) : ∀ c ∈ text, isMark c = true := by
  unfold unsigned? at htext
  have hword : ∀ {word : String}, (∀ c ∈ word.toList, c.isAlpha = true) →
      String.ofList (text.map Char.toLower) = word → ∀ c ∈ text, isMark c = true := by
    rintro word hword rfl c hc
    apply isMark_of_toLower
    apply hword
    simpa using ⟨c, hc, rfl⟩
  simp only at htext
  split at htext
  · next heq =>
    rw [Bool.or_eq_true, decide_eq_true_eq, decide_eq_true_eq] at heq
    rcases heq with heq | heq
    · exact hword (List.all_eq_true.mp (by decide)) heq
    · exact hword (List.all_eq_true.mp (by decide)) heq
  · split at htext
    · next heq => exact hword (List.all_eq_true.mp (by decide)) heq
    · exact isMark_of_magnitude? htext

theorem isMark_of_read? {text : List Char} {numeral : Numeral}
    (htext : read? text = some numeral) : ∀ c ∈ text, isMark c = true := by
  unfold read? at htext
  split at htext
  · rw [List.forall_mem_cons]
    exact ⟨by decide, isMark_of_unsigned? htext⟩
  · rw [List.forall_mem_cons]
    exact ⟨by decide, isMark_of_unsigned? htext⟩
  · exact isMark_of_unsigned? htext

end Numeral

namespace Model

variable {α : Type} [Scalar α]

/-- A name for a variable or a parameter. -/
structure Nameable (name : String) : Prop where
  isIdentifier : Name.isIdentifier name = true
  isReserved : Name.isReserved name = false
  not_mem_keywords : name ∉ keywords

/-- A text that a line of its own leaves as it is, and that is on one line. -/
structure Line (text : List Char) : Prop where
  item : Comment.Item text
  single : '\n' ∉ text

def firstWord (text : String) : String :=
  String.ofList (text.toList.takeWhile fun c => !Text.isBlank c)

/-- A model whose printed form can be read back, if `print` is how a number is written. -/
structure Printable (print : α → List Char) (model : Model α) : Prop where
  name : ∀ name ∈ model.name, Line name.toList
  vars : ∀ name ∈ model.vars, Nameable name
  nodup_vars : model.vars.Nodup
  parameters : ∀ name ∈ model.parameters.map Prod.fst, Nameable name
  nodup_parameters : (model.parameters.map Prod.fst).Nodup
  disjoint : model.vars.Disjoint (model.parameters.map Prod.fst)
  initialValues : ∀ name ∈ model.initialValues.map Prod.fst, name ∈ model.vars
  nodup_initialValues : (model.initialValues.map Prod.fst).Nodup
  isFinite : ∀ entry ∈ model.parameters ++ model.initialValues, Scalar.isFinite entry.2 = true
  read_print : ∀ entry ∈ model.parameters ++ model.initialValues,
    Scalar.read? (print entry.2) = some entry.2
  equations : ∀ equation ∈ model.equations, Line equation.toList ∧ firstWord equation ∉ keywords

def phrase (keyword : String) (rest : List Char) : List Char :=
  keyword.toList ++ ' ' :: rest

def assignment (print : α → List Char) (entry : String × α) : List Char :=
  entry.1.toList ++ " = ".toList ++ print entry.2

/-- The items of a printed model, one for each line. -/
def items (print : α → List Char) (model : Model α) : List (List Char) :=
  model.name.toList.map (fun name => phrase "model" name.toList) ++
  (if model.vars = [] then []
    else [phrase "Real" ([',', ' '].intercalate (model.vars.map String.toList))]) ++
  model.parameters.map (fun entry => phrase "parameter" (phrase "Real" (assignment print entry))) ++
  [phrase "initial" "equation".toList] ++ model.initialValues.map (assignment print) ++
  ["equation".toList] ++ model.equations.map String.toList ++
  model.name.toList.map (fun name => phrase "end" name.toList)

def printed (print : α → List Char) (model : Model α) : String :=
  String.ofList ((model.items print).flatMap (· ++ ['\n']))

/-- Items that take one draft to another, whatever lines they stand on. -/
inductive Reads : Draft α → List (List Char) → Draft α → Prop where
  | nil (draft : Draft α) : Reads draft [] draft
  | cons {draft next final : Draft α} {item : List Char} {items : List (List Char)}
      (hitem : ∀ line, readLine draft line (String.ofList item) = .ok next)
      (hitems : Reads next items final) : Reads draft (item :: items) final

variable {draft next final : Draft α} {items others : List (List Char)}

theorem Reads.single {item : List Char}
    (hitem : ∀ line, readLine draft line (String.ofList item) = .ok next) :
    Reads draft [item] next :=
  .cons hitem (.nil next)

theorem Reads.append (hitems : Reads draft items next) (hothers : Reads next others final) :
    Reads draft (items ++ others) final := by
  induction hitems with
  | nil => exact hothers
  | cons hitem hitems ih => exact .cons hitem (ih hothers)

theorem Reads.readLines (hitems : Reads draft items final) {bodies : List String}
    (hbodies : bodies.filter (fun text => !text.isEmpty) = items.map String.ofList)
    (number : Nat) : Model.readLines draft number bodies = .ok final := by
  induction bodies generalizing draft items number with
  | nil =>
      have hnone : items = [] := by simpa using hbodies.symm
      subst hnone
      cases hitems
      rfl
  | cons body bodies ih =>
      by_cases hempty : body.isEmpty = true
      · rw [List.filter_cons_of_neg (by simp [hempty])] at hbodies
        rw [Model.readLines, if_pos hempty]
        exact ih hitems hbodies (number + 1)
      · rw [List.filter_cons_of_pos (by simp [hempty])] at hbodies
        cases hitems with
        | nil => cases hbodies
        | cons hitem hitems =>
            obtain ⟨rfl, hrest⟩ := List.cons.inj hbodies
            rw [Model.readLines, if_neg hempty, hitem]
            exact ih hitems hrest (number + 1)

theorem splitKeyword_append {word rest : List Char} {c : Char}
    (hword : ∀ b ∈ word, Text.isBlank b = false) (hc : Text.isBlank c = true) :
    splitKeyword (word ++ c :: rest) = (String.ofList word, Text.trim rest) := by
  rw [splitKeyword, Text.cut?_append hword hc]

theorem splitKeyword_of_forall {word : List Char} (hword : ∀ c ∈ word, Text.isBlank c = false) :
    splitKeyword word = (String.ofList word, []) := by
  rw [splitKeyword, Text.cut?_of_forall hword]

theorem fst_splitKeyword (text : String) : (splitKeyword text.toList).1 = firstWord text := by
  rcases Text.exists_first Text.isBlank text.toList with hall | ⟨word, c, rest, htext, hword, hc⟩
  · rw [splitKeyword_of_forall hall, firstWord,
      List.takeWhile_eq_self_iff.mpr (by simpa using hall)]
  · rw [firstWord, htext, splitKeyword_append hword hc, List.takeWhile_append_of_pos
      (by simpa using hword), List.takeWhile_cons_of_neg (by simp [hc]), List.append_nil]

theorem isBlank_of_mem_keywords {keyword : String} (hkeyword : keyword ∈ keywords) :
    ∀ c ∈ keyword.toList, Text.isBlank c = false := by
  have hall : (keywords.all fun word => word.toList.all fun c => !Text.isBlank c) = true := by
    decide
  simp only [List.all_eq_true, Bool.not_eq_true'] at hall
  exact hall keyword hkeyword

theorem splitKeyword_phrase {keyword : String} {rest : List Char} (hkeyword : keyword ∈ keywords)
    (hrest : Text.Tight rest) : splitKeyword (phrase keyword rest) = (keyword, rest) := by
  rw [phrase, splitKeyword_append (isBlank_of_mem_keywords hkeyword) (by decide),
    Text.trim_of_tight hrest, String.ofList_toList]

theorem tight_phrase {keyword : String} {rest : List Char} (hkeyword : keyword ∈ keywords)
    (hrest : Text.Tight rest) (hne : rest ≠ []) : Text.Tight (phrase keyword rest) := by
  have hword : keyword.toList ≠ [] := by
    have hall : (keywords.all fun word => !word.toList.isEmpty) = true := by decide
    simpa using List.all_eq_true.mp hall keyword hkeyword
  have htight : Text.Tight keyword.toList := Text.tight_of_forall (isBlank_of_mem_keywords hkeyword)
  exact @Text.Tight.append [' '] _ _ htight hword hrest hne

theorem readLine_plain {text : String} (htext : firstWord text ∉ keywords) (line : Nat) :
    readLine draft line text = readPlain draft line text := by
  rw [← fst_splitKeyword] at htext
  rcases hsplit : splitKeyword text.toList with ⟨keyword, rest⟩
  rw [hsplit] at htext
  simp only [keywords, List.mem_cons, List.not_mem_nil, or_false, not_or] at htext
  simp [readLine, hsplit, htext]

/-! ## The items of each kind -/

theorem reads_name {name : String} (hname : Text.Tight name.toList) (draft : Draft α) :
    Reads draft [phrase "model" name.toList]
      { draft with model := { draft.model with name := some name } } := by
  have hsplit : splitKeyword (phrase "model" name.toList) = ("model", name.toList) :=
    splitKeyword_phrase (by decide) hname
  refine .single fun line => ?_
  simp [readLine, hsplit]

theorem reads_end {name : String} (hname : Text.Tight name.toList) (draft : Draft α) :
    Reads draft [phrase "end" name.toList] draft := by
  have hsplit : splitKeyword (phrase "end" name.toList) = ("end", name.toList) :=
    splitKeyword_phrase (by decide) hname
  refine .single fun line => ?_
  simp [readLine, hsplit]

theorem tight_equation : Text.Tight "equation".toList :=
  Text.tight_of_forall (isBlank_of_mem_keywords (by decide))

theorem reads_initial (draft : Draft α) :
    Reads draft [phrase "initial" "equation".toList] { draft with part := .initialValues } := by
  have hsplit : splitKeyword (phrase "initial" "equation".toList) =
      ("initial", "equation".toList) := splitKeyword_phrase (by decide) tight_equation
  refine .single fun line => ?_
  simp only [readLine, String.toList_ofList, hsplit]
  rfl

theorem reads_equation (draft : Draft α) :
    Reads draft ["equation".toList] { draft with part := .equations } := by
  have hsplit : splitKeyword "equation".toList = ("equation", []) :=
    splitKeyword_of_forall (isBlank_of_mem_keywords (by decide))
  refine .single fun line => ?_
  simp only [readLine, String.toList_ofList, hsplit]
  rfl

theorem checkName_of_nameable {name : String} (hname : Nameable name) :
    checkName name = .ok () := by
  simp [checkName, hname.isIdentifier, hname.isReserved, hname.not_mem_keywords]

omit [Scalar α] in
theorem declareVariables_eq {names : List String} (hnames : ∀ name ∈ names, Nameable name)
    {model : Model α} (hnodup : names.Nodup) (hvars : names.Disjoint model.vars)
    (hparameters : names.Disjoint (model.parameters.map Prod.fst)) :
    declareVariables model names = .ok { model with vars := model.vars ++ names } := by
  induction names generalizing model with
  | nil => simp [declareVariables]
  | cons name rest ih =>
      rw [List.forall_mem_cons] at hnames
      rw [List.nodup_cons] at hnodup
      rw [List.disjoint_cons_left] at hvars hparameters
      have hrest : rest.Disjoint (model.vars ++ [name]) := by
        rw [List.disjoint_append_right, List.disjoint_singleton]
        exact ⟨hvars.2, hnodup.1⟩
      have hnext := @ih hnames.2 { model with vars := model.vars ++ [name] } hnodup.2 hrest
        hparameters.2
      rw [declareVariables, checkName_of_nameable hnames.1]
      simp only [List.contains_eq_mem, hparameters.1, hvars.1, decide_false, Bool.false_eq_true,
        if_false, hnext, List.append_assoc, List.singleton_append]

theorem ne_of_isPart {c mark : Char} (hc : Name.isPart c = true)
    (hmark : Name.isPart mark = false) : c ≠ mark := by
  rintro rfl
  rw [hc] at hmark
  cases hmark

/-- Names between commas, each after any blanks, are cut apart. -/
theorem names_intercalate {names : List String} (hne : names ≠ [])
    (hnames : ∀ name ∈ names, Name.isIdentifier name = true) {gap : List Char}
    (hgap : Text.Blank gap) :
    (Text.pieces (· = ',') (gap ++ [',', ' '].intercalate (names.map String.toList))).map
      (fun name => String.ofList (Text.trim name)) = names := by
  induction names generalizing gap with
  | nil => exact absurd rfl hne
  | cons name rest ih =>
      rw [List.forall_mem_cons] at hnames
      have hpart := Name.isPart_of_isIdentifier hnames.1
      have hplain : ∀ c ∈ gap ++ name.toList, decide (c = ',') = false := by
        simp only [decide_eq_false_iff_not, List.forall_mem_append]
        exact ⟨Comment.ne_of_blank hgap (by decide),
          fun c hc => ne_of_isPart (hpart c hc) (by decide)⟩
      have htrim : Text.trim (gap ++ name.toList) = name.toList :=
        Text.trim_of_padded (Name.tight_of_isIdentifier hnames.1)
          ⟨gap, [], hgap, List.forall_mem_nil _, by simp⟩
      cases rest with
      | nil =>
          rw [List.map_singleton, List.intercalate_singleton, Text.pieces_of_forall hplain,
            List.map_singleton, htrim, String.ofList_toList]
      | cons other rest =>
          have hrest := @ih (by simp) hnames.2 [' '] (by decide)
          have hsplit : gap ++ [',', ' '].intercalate ((name :: other :: rest).map String.toList) =
              gap ++ name.toList ++ ',' ::
                ([' '] ++ [',', ' '].intercalate ((other :: rest).map String.toList)) := by
            simp [List.intercalate_cons_cons]
          rw [hsplit, Text.pieces_append hplain (by decide), List.map_cons, htrim,
            String.ofList_toList, hrest]

theorem tight_intercalate {names : List String} (hne : names ≠ [])
    (hnames : ∀ name ∈ names, Name.isIdentifier name = true) :
    Text.Tight ([',', ' '].intercalate (names.map String.toList)) ∧
      [',', ' '].intercalate (names.map String.toList) ≠ [] := by
  induction names with
  | nil => exact absurd rfl hne
  | cons name rest ih =>
      rw [List.forall_mem_cons] at hnames
      have htight := Name.tight_of_isIdentifier hnames.1
      have hname := Name.toList_ne_nil_of_isIdentifier hnames.1
      cases rest with
      | nil =>
          rw [List.map_singleton, List.intercalate_singleton]
          exact ⟨htight, hname⟩
      | cons other rest =>
          rcases ih (by simp) hnames.2 with ⟨hrest, hnonempty⟩
          rw [List.map_cons, List.map_cons, List.intercalate_cons_cons, ← List.map_cons,
            List.append_assoc]
          exact ⟨htight.append hname hrest hnonempty, by simp⟩

theorem reads_vars {model : Model α} {names : List String} (hne : names ≠ [])
    (hnames : ∀ name ∈ names, Nameable name) (hnodup : names.Nodup)
    (hvars : names.Disjoint model.vars)
    (hparameters : names.Disjoint (model.parameters.map Prod.fst)) (part : Section) :
    Reads ⟨model, part⟩ [phrase "Real" ([',', ' '].intercalate (names.map String.toList))]
      ⟨{ model with vars := model.vars ++ names }, part⟩ := by
  have hidentifiers : ∀ name ∈ names, Name.isIdentifier name = true :=
    fun name hname => (hnames name hname).isIdentifier
  have hsplit := splitKeyword_phrase (show "Real" ∈ keywords by decide)
    (tight_intercalate hne hidentifiers).1
  have hpieces := names_intercalate hne hidentifiers (List.forall_mem_nil _)
  rw [List.nil_append] at hpieces
  refine .single fun line => ?_
  simp only [readLine, String.toList_ofList, hsplit, hpieces,
    declareVariables_eq hnames hnodup hvars hparameters]
  rfl

/-! ## Assignments -/

/-- A word and a number that can stand on the sides of an equals sign. -/
structure Spelled (print : α → List Char) (entry : String × α) : Prop where
  isPart : ∀ c ∈ entry.1.toList, Name.isPart c = true
  ne_nil : entry.1.toList ≠ []
  isFinite : Scalar.isFinite entry.2 = true
  read_print : Scalar.read? (print entry.2) = some entry.2

/-- What an assignment must be to be read back. -/
structure Assignable (print : α → List Char) (entry : String × α) : Prop where
  isIdentifier : Name.isIdentifier entry.1 = true
  isFinite : Scalar.isFinite entry.2 = true
  read_print : Scalar.read? (print entry.2) = some entry.2

variable {print : α → List Char} {entry : String × α}

theorem Assignable.spelled (hentry : Assignable print entry) : Spelled print entry where
  isPart := Name.isPart_of_isIdentifier hentry.isIdentifier
  ne_nil := Name.toList_ne_nil_of_isIdentifier hentry.isIdentifier
  isFinite := hentry.isFinite
  read_print := hentry.read_print

theorem Spelled.isMark (hentry : Spelled print entry) :
    ∀ c ∈ print entry.2, Numeral.isMark c = true := by
  rcases Option.map_eq_some_iff.mp hentry.read_print with ⟨numeral, hnumeral, -⟩
  exact Numeral.isMark_of_read? hnumeral

theorem Spelled.print_ne_nil (hentry : Spelled print entry) : print entry.2 ≠ [] := by
  intro hnil
  have hread := hentry.read_print
  rw [hnil] at hread
  cases hread

theorem Spelled.tight_word (hentry : Spelled print entry) : Text.Tight entry.1.toList :=
  Text.tight_of_forall fun c hc => isBlank_of_isPart (hentry.isPart c hc)

theorem Spelled.tight_print (hentry : Spelled print entry) : Text.Tight (print entry.2) :=
  Text.tight_of_forall fun c hc => Numeral.isBlank_of_isMark (hentry.isMark c hc)

theorem Spelled.tight (hentry : Spelled print entry) : Text.Tight (assignment print entry) := by
  rw [assignment, List.append_assoc]
  exact hentry.tight_word.append hentry.ne_nil hentry.tight_print hentry.print_ne_nil

/-- Words, blanks, equals signs and numbers are all that stands in an assignment. -/
theorem Spelled.ne_of_mem (hentry : Spelled print entry) {mark : Char}
    (hmark : Numeral.isMark mark = false) (hspace : mark ≠ ' ') (hequals : mark ≠ '=') :
    ∀ c ∈ assignment print entry, c ≠ mark := by
  rintro c hc rfl
  rw [assignment, List.mem_append, List.mem_append] at hc
  rcases hc with (hc | hc) | hc
  · simp [Numeral.isMark, hentry.isPart c hc] at hmark
  · have hsign : c = ' ' ∨ c = '=' ∨ c = ' ' := by simpa using hc
    rcases hsign with rfl | rfl | rfl
    · exact hspace rfl
    · exact hequals rfl
    · exact hspace rfl
  · rw [hentry.isMark c hc] at hmark
    cases hmark

/-- A word on the left that is not a name is refused. -/
theorem entry?_assignment (hentry : Spelled print entry) :
    Assignments.entry? Scalar.read? (assignment print entry) =
      if Name.isIdentifier entry.1 then .ok entry
      else .error (.invalidAssignment (String.ofList (assignment print entry))) := by
  have hleft : ∀ c ∈ entry.1.toList ++ [' '], decide (c = '=') = false := by
    simp only [decide_eq_false_iff_not, List.forall_mem_append, List.forall_mem_singleton]
    exact ⟨fun c hc => ne_of_isPart (hentry.isPart c hc) (by decide), by decide⟩
  have hcut : Text.cut? (· = '=') (assignment print entry) =
      some (entry.1.toList ++ [' '], ' ' :: print entry.2) := by
    have hsplit : assignment print entry =
        entry.1.toList ++ [' '] ++ '=' :: ' ' :: print entry.2 := by simp [assignment]
    rw [hsplit, Text.cut?_append hleft (by decide)]
  have hspace : Text.Blank [' '] := by decide
  have htrimName : Text.trim (entry.1.toList ++ [' ']) = entry.1.toList :=
    Text.trim_of_padded hentry.tight_word ⟨[], [' '], List.forall_mem_nil _, hspace, by simp⟩
  have htrimValue : Text.trim (' ' :: print entry.2) = print entry.2 :=
    Text.trim_of_padded hentry.tight_print ⟨[' '], [], hspace, List.forall_mem_nil _, by simp⟩
  have hequals : '=' ∉ print entry.2 := fun hmem =>
    absurd (hentry.isMark '=' hmem) (by decide)
  have hfinite : (some entry.2).filter Scalar.isFinite = some entry.2 := by
    simp [Option.filter, hentry.isFinite]
  cases hname : Name.isIdentifier entry.1 with
  | true =>
      simp [Assignments.entry?, hcut, htrimName, htrimValue, hname, hequals,
        hentry.read_print, hfinite]
  | false => simp [Assignments.entry?, hcut, htrimName, hname]

theorem parse_spelled (hentry : Spelled print entry) :
    Assignments.parse (String.ofList (assignment print entry)) =
      if Name.isIdentifier entry.1 then .ok [entry]
      else .error (.invalidAssignment (String.ofList (assignment print entry))) := by
  have hplain : ∀ c ∈ assignment print entry, Assignments.isSeparator c = false := by
    intro c hc
    simp [Assignments.isSeparator,
      hentry.ne_of_mem (show Numeral.isMark ';' = false by decide) (by decide) (by decide) c hc,
      hentry.ne_of_mem (show Numeral.isMark '\n' = false by decide) (by decide) (by decide) c hc]
  have hnonempty : (assignment print entry).isEmpty = false := by
    simp [assignment]
  rw [Assignments.parse, Assignments.parseWith, String.toList_ofList,
    Text.pieces_of_forall hplain, List.map_singleton, Text.trim_of_tight hentry.tight,
    Assignments.entries?, if_neg (by simp [hnonempty]), entry?_assignment hentry]
  cases Name.isIdentifier entry.1 with
  | true => simp [Assignments.entries?, Except.map]
  | false => rfl

theorem parse_assignment (hentry : Assignable print entry) :
    Assignments.parse (String.ofList (assignment print entry)) = .ok [entry] := by
  rw [parse_spelled hentry.spelled, if_pos hentry.isIdentifier]

def Draft.withParameter (draft : Draft α) (name : String) (value : α) : Draft α :=
  { draft with
    model := { draft.model with parameters := draft.model.parameters ++ [(name, value)] } }

/-- What is left of a declaration when the type is taken away. -/
def untyped (rest : List Char) : List Char :=
  ((Text.after? "Real".toList rest).map Text.trim).getD rest

theorem untyped_real (hentry : Spelled print entry) :
    untyped (phrase "Real" (assignment print entry)) = assignment print entry := by
  have hafter : Text.after? "Real".toList (phrase "Real" (assignment print entry)) =
      some (' ' :: assignment print entry) := Text.after?_eq_some_iff.mpr rfl
  rw [untyped, hafter, Option.map_some, Option.getD_some]
  exact Text.trim_of_padded hentry.tight ⟨[' '], [], by decide, List.forall_mem_nil _, by simp⟩

/-- Adds a parameter to a draft, if it can be declared there. -/
def addParameter (draft : Draft α) (name : String) (value : α) : Except ParseError (Draft α) :=
  match checkName name with
  | .error cause => .error cause
  | .ok () =>
    if draft.model.vars.contains name then .error (.parameterAsVariable name)
    else if (draft.model.parameters.map Prod.fst).contains name then
      .error (.duplicateAssignment name)
    else .ok (draft.withParameter name value)

omit [Scalar α] in
theorem addParameter_eq_ok {name : String} {value : α} (hname : Nameable name)
    (hvars : name ∉ draft.model.vars)
    (hparameters : name ∉ draft.model.parameters.map Prod.fst) :
    addParameter draft name value = .ok (draft.withParameter name value) := by
  simp only [addParameter, checkName_of_nameable hname, List.contains_eq_mem, hvars, hparameters,
    decide_false, Bool.false_eq_true, if_false]

/-- What is left of a declaration is declared.  Nothing else about the line counts. -/
theorem readLine_parameter {rest : List Char} (hentry : Spelled print entry)
    (hrest : Text.Tight rest) (huntyped : untyped rest = assignment print entry) (line : Nat) :
    readLine draft line (String.ofList (phrase "parameter" rest)) =
      if Name.isIdentifier entry.1 then addParameter draft entry.1 entry.2
      else .error (.invalidAssignment (String.ofList (assignment print entry))) := by
  have hsplit := splitKeyword_phrase (show "parameter" ∈ keywords by decide) hrest
  have hline : ∀ text, text = String.ofList (phrase "parameter" rest) →
      readLine draft line text = (declareParameter draft.model line text rest).map
        fun model => { draft with model } := by
    rintro text rfl
    simp only [readLine, String.toList_ofList, hsplit]
    rfl
  rw [untyped] at huntyped
  by_cases hidentifier : Name.isIdentifier entry.1 = true
  · simp only [hline _ rfl, declareParameter, huntyped, parse_spelled hentry,
      if_pos hidentifier, addParameter]
    rcases checkName entry.1 with cause | ⟨⟩
    · rfl
    · simp only
      split
      · rfl
      · split <;> rfl
  · simp only [hline _ rfl, declareParameter, huntyped, parse_spelled hentry,
      if_neg hidentifier]
    rfl

omit [Scalar α] in
theorem assignment_eq (print : α → List Char) (entry : String × α) :
    assignment print entry = entry.1.toList ++ ' ' :: '=' :: ' ' :: print entry.2 := by
  simp [assignment]

omit [Scalar α] in
theorem assignment_ne_nil (print : α → List Char) (entry : String × α) :
    assignment print entry ≠ [] := by
  simp [assignment]

theorem reads_parameters {model : Model α} {entries : List (String × α)}
    (hentries : ∀ entry ∈ entries, Assignable print entry)
    (hnames : ∀ entry ∈ entries, Nameable entry.1)
    (hnodup : (entries.map Prod.fst).Nodup)
    (hvars : (entries.map Prod.fst).Disjoint model.vars)
    (hparameters : (entries.map Prod.fst).Disjoint (model.parameters.map Prod.fst))
    (part : Section) :
    Reads ⟨model, part⟩
      (entries.map fun entry => phrase "parameter" (phrase "Real" (assignment print entry)))
      ⟨{ model with parameters := model.parameters ++ entries }, part⟩ := by
  induction entries generalizing model with
  | nil => simpa using Reads.nil (⟨model, part⟩ : Draft α)
  | cons entry rest ih =>
      rw [List.forall_mem_cons] at hentries hnames
      rw [List.map_cons, List.nodup_cons] at hnodup
      rw [List.map_cons, List.disjoint_cons_left] at hvars hparameters
      have hrest : (rest.map Prod.fst).Disjoint
          ((model.parameters ++ [entry]).map Prod.fst) := by
        rw [List.map_append, List.map_singleton, List.disjoint_append_right,
          List.disjoint_singleton]
        exact ⟨hparameters.2, hnodup.1⟩
      have hnext := @ih { model with parameters := model.parameters ++ [entry] } hentries.2
        hnames.2 hnodup.2 hvars.2 hrest
      rw [List.append_assoc] at hnext
      refine .cons (fun line => ?_) hnext
      have hreal := tight_phrase (show "Real" ∈ keywords by decide) hentries.1.spelled.tight
        (assignment_ne_nil print entry)
      rw [readLine_parameter hentries.1.spelled hreal (untyped_real hentries.1.spelled),
        if_pos hentries.1.isIdentifier, addParameter_eq_ok hnames.1 hvars.1 hparameters.1]
      rfl

/-- The first word of an assignment is the name. -/
theorem firstWord_assignment (hentry : Assignable print entry) :
    firstWord (String.ofList (assignment print entry)) = entry.1 := by
  have hname : ∀ c ∈ entry.1.toList, (!Text.isBlank c) = true := by
    intro c hc
    rw [isBlank_of_isPart (Name.isPart_of_isIdentifier hentry.isIdentifier c hc)]
    rfl
  have hrest : (' ' :: '=' :: ' ' :: print entry.2).takeWhile (fun c => !Text.isBlank c) = [] :=
    List.takeWhile_cons_of_neg (by decide)
  rw [firstWord, String.toList_ofList, assignment_eq, List.takeWhile_append_of_pos hname, hrest,
    List.append_nil, String.ofList_toList]

theorem reads_initialValues {model : Model α} {entries : List (String × α)}
    (hentries : ∀ entry ∈ entries, Assignable print entry)
    (hnames : ∀ entry ∈ entries, entry.1 ∉ keywords)
    (hnodup : (entries.map Prod.fst).Nodup)
    (hnew : (entries.map Prod.fst).Disjoint (model.initialValues.map Prod.fst)) :
    Reads ⟨model, .initialValues⟩ (entries.map (assignment print))
      ⟨{ model with initialValues := model.initialValues ++ entries }, .initialValues⟩ := by
  induction entries generalizing model with
  | nil => simpa using Reads.nil (⟨model, .initialValues⟩ : Draft α)
  | cons entry rest ih =>
      rw [List.forall_mem_cons] at hentries hnames
      rw [List.map_cons, List.nodup_cons] at hnodup
      rw [List.map_cons, List.disjoint_cons_left] at hnew
      have hrest : (rest.map Prod.fst).Disjoint
          ((model.initialValues ++ [entry]).map Prod.fst) := by
        rw [List.map_append, List.map_singleton, List.disjoint_append_right,
          List.disjoint_singleton]
        exact ⟨hnew.2, hnodup.1⟩
      have hnext := @ih { model with initialValues := model.initialValues ++ [entry] } hentries.2
        hnames.2 hnodup.2 hrest
      rw [List.append_assoc] at hnext
      refine .cons (fun line => ?_) hnext
      have hword : firstWord (String.ofList (assignment print entry)) ∉ keywords := by
        rw [firstWord_assignment hentries.1]
        exact hnames.1
      simp only [readLine_plain hword, readPlain, parse_assignment hentries.1, addInitialValues,
        List.contains_eq_mem, hnew.1, decide_false, Bool.false_eq_true, if_false]
      rfl

theorem reads_equations {model : Model α} {equations : List String}
    (hequations : ∀ equation ∈ equations, firstWord equation ∉ keywords) :
    Reads ⟨model, .equations⟩ (equations.map String.toList)
      ⟨{ model with equations := model.equations ++ equations }, .equations⟩ := by
  induction equations generalizing model with
  | nil => simpa using Reads.nil (⟨model, .equations⟩ : Draft α)
  | cons equation rest ih =>
      rw [List.forall_mem_cons] at hequations
      have hnext := @ih { model with equations := model.equations ++ [equation] } hequations.2
      rw [List.append_assoc] at hnext
      refine .cons (fun line => ?_) hnext
      rw [String.ofList_toList, readLine_plain hequations.1]
      rfl

/-! ## Printed models -/

variable {model : Model α}

theorem Printable.assignable_parameters (hmodel : Printable print model) :
    ∀ entry ∈ model.parameters, Assignable print entry := by
  intro entry hentry
  have hmem := List.mem_append_left model.initialValues hentry
  exact ⟨(hmodel.parameters entry.1 (List.mem_map_of_mem hentry)).isIdentifier,
    hmodel.isFinite entry hmem, hmodel.read_print entry hmem⟩

theorem Printable.nameable_initialValues (hmodel : Printable print model) :
    ∀ entry ∈ model.initialValues, Nameable entry.1 := fun entry hentry =>
  hmodel.vars entry.1 (hmodel.initialValues entry.1 (List.mem_map_of_mem hentry))

theorem Printable.assignable_initialValues (hmodel : Printable print model) :
    ∀ entry ∈ model.initialValues, Assignable print entry := by
  intro entry hentry
  have hmem := List.mem_append_right model.parameters hentry
  exact ⟨(hmodel.nameable_initialValues entry hentry).isIdentifier,
    hmodel.isFinite entry hmem, hmodel.read_print entry hmem⟩

/-- The items of a printed model rebuild it field by field. -/
theorem Printable.reads (hmodel : Printable print model) :
    Reads ⟨empty, .declarations⟩ (model.items print) ⟨model, .equations⟩ := by
  rcases model with ⟨name, vars, parameters, initialValues, equations⟩
  have hname : Reads (⟨empty, .declarations⟩ : Draft α)
      (name.toList.map fun name => phrase "model" name.toList)
      ⟨⟨name, [], [], [], []⟩, .declarations⟩ := by
    cases name with
    | none => exact .nil _
    | some name => exact reads_name (hmodel.name name rfl).item.tight _
  have hvars : Reads (⟨⟨name, [], [], [], []⟩, .declarations⟩ : Draft α)
      (if vars = [] then []
        else [phrase "Real" ([',', ' '].intercalate (vars.map String.toList))])
      ⟨⟨name, vars, [], [], []⟩, .declarations⟩ := by
    by_cases hnone : vars = []
    · rw [if_pos hnone, hnone]
      exact .nil _
    · rw [if_neg hnone]
      exact reads_vars hnone hmodel.vars hmodel.nodup_vars (List.disjoint_nil_right _)
        (List.disjoint_nil_right _) _
  have hapart : (parameters.map Prod.fst).Disjoint vars :=
    fun _ hparameter hvar => hmodel.disjoint hvar hparameter
  have hparameters : Reads (⟨⟨name, vars, [], [], []⟩, .declarations⟩ : Draft α)
      (parameters.map fun entry => phrase "parameter" (phrase "Real" (assignment print entry)))
      ⟨⟨name, vars, parameters, [], []⟩, .declarations⟩ :=
    reads_parameters hmodel.assignable_parameters
      (fun entry hentry => hmodel.parameters entry.1 (List.mem_map_of_mem hentry))
      hmodel.nodup_parameters hapart (List.disjoint_nil_right _) _
  have hinitial : Reads (⟨⟨name, vars, parameters, [], []⟩, .initialValues⟩ : Draft α)
      (initialValues.map (assignment print))
      ⟨⟨name, vars, parameters, initialValues, []⟩, .initialValues⟩ :=
    reads_initialValues hmodel.assignable_initialValues
      (fun entry hentry => (hmodel.nameable_initialValues entry hentry).not_mem_keywords)
      hmodel.nodup_initialValues (List.disjoint_nil_right _)
  have hequations : Reads (⟨⟨name, vars, parameters, initialValues, []⟩, .equations⟩ : Draft α)
      (equations.map String.toList)
      ⟨⟨name, vars, parameters, initialValues, equations⟩, .equations⟩ :=
    reads_equations fun equation hequation => (hmodel.equations equation hequation).2
  have hend : Reads (⟨⟨name, vars, parameters, initialValues, equations⟩, .equations⟩ : Draft α)
      (name.toList.map fun name => phrase "end" name.toList)
      ⟨⟨name, vars, parameters, initialValues, equations⟩, .equations⟩ := by
    cases name with
    | none => exact .nil _
    | some name => exact reads_end (hmodel.name name rfl).item.tight _
  exact (((((((hname.append hvars).append hparameters).append (reads_initial _)).append
    hinitial).append (reads_equation _)).append hequations).append hend)

theorem line_of_forall {text : List Char} (htight : Text.Tight text) (hne : text ≠ [])
    (htext : ∀ c ∈ text, c ≠ '/' ∧ c ≠ '#' ∧ c ≠ ';' ∧ c ≠ '\n') : Line text where
  item := {
    free := {
      slashes := fun hoccurs => (htext '/' (hoccurs.subset (by simp))).1 rfl
      hash := fun hmem => (htext '#' hmem).2.1 rfl
      block := fun hoccurs => (htext '/' (hoccurs.subset (by simp [Comment.blockStart]))).1 rfl }
    tight := htight
    ne_nil := hne
    last_ne := fun hlast => (htext ';' (List.mem_of_getLast? hlast)).2.2.1 rfl }
  single hmem := (htext '\n' hmem).2.2.2 rfl

/-- A keyword before a text starts no comment. -/
theorem Line.phrase {keyword : String} {rest : List Char} (hkeyword : keyword ∈ keywords)
    (hrest : Line rest) : Line (Model.phrase keyword rest) := by
  have hplain : ∀ mark, Name.isPart mark = false → mark ≠ ' ' → mark ∉ keyword.toList ++ [' '] := by
    have hall : (keywords.all fun word => word.toList.all Name.isPart) = true := by decide
    simp only [List.all_eq_true] at hall
    intro mark hmark hspace hmem
    rcases List.mem_append.mp hmem with hmem | hmem
    · exact absurd (hall keyword hkeyword mark hmem) (by simp [hmark])
    · exact hspace (List.mem_singleton.mp hmem)
  have hsplit : Model.phrase keyword rest = keyword.toList ++ [' '] ++ rest := by
    simp [Model.phrase]
  refine ⟨⟨⟨fun hoccurs => ?_, fun hmem => ?_, fun hoccurs => ?_⟩, ?_, by simp [Model.phrase],
    ?_⟩, fun hmem => ?_⟩
  · rw [hsplit] at hoccurs
    exact hrest.item.free.slashes
      (Text.infix_of_append_left (hplain _ (by decide) (by decide)) hoccurs)
  · rw [hsplit, List.mem_append] at hmem
    exact hmem.elim (hplain _ (by decide) (by decide)) hrest.item.free.hash
  · rw [hsplit] at hoccurs
    exact hrest.item.free.block
      (Text.infix_of_append_left (hplain _ (by decide) (by decide)) hoccurs)
  · exact tight_phrase hkeyword hrest.item.tight hrest.item.ne_nil
  · rw [hsplit, List.getLast?_append_of_ne_nil _ hrest.item.ne_nil]
    exact hrest.item.last_ne
  · rw [hsplit, List.mem_append] at hmem
    exact hmem.elim (hplain _ (by decide) (by decide)) hrest.single

theorem Spelled.line (hentry : Spelled print entry) : Line (assignment print entry) := by
  refine line_of_forall hentry.tight (assignment_ne_nil print entry) fun c hc => ⟨?_, ?_, ?_, ?_⟩
  all_goals exact hentry.ne_of_mem (by decide) (by decide) (by decide) c hc

theorem mem_intercalate {names : List String}
    (hnames : ∀ name ∈ names, Name.isIdentifier name = true) :
    ∀ c ∈ [',', ' '].intercalate (names.map String.toList),
      c = ',' ∨ c = ' ' ∨ Name.isPart c = true := by
  induction names with
  | nil => exact List.forall_mem_nil _
  | cons name rest ih =>
      rw [List.forall_mem_cons] at hnames
      have hname : ∀ c ∈ name.toList, c = ',' ∨ c = ' ' ∨ Name.isPart c = true :=
        fun c hc => .inr (.inr (Name.isPart_of_isIdentifier hnames.1 c hc))
      cases rest with
      | nil => rwa [List.map_singleton, List.intercalate_singleton]
      | cons other rest =>
          rw [List.map_cons, List.map_cons, List.intercalate_cons_cons, ← List.map_cons,
            List.forall_mem_append, List.forall_mem_append]
          exact ⟨⟨hname, by simp⟩, ih hnames.2⟩

theorem line_intercalate {names : List String} (hne : names ≠ [])
    (hnames : ∀ name ∈ names, Name.isIdentifier name = true) :
    Line ([',', ' '].intercalate (names.map String.toList)) := by
  rcases tight_intercalate hne hnames with ⟨htight, hnonempty⟩
  refine line_of_forall htight hnonempty fun c hc => ?_
  rcases mem_intercalate hnames c hc with rfl | rfl | hpart
  · decide
  · decide
  · exact ⟨ne_of_isPart hpart (by decide), ne_of_isPart hpart (by decide),
      ne_of_isPart hpart (by decide), ne_of_isPart hpart (by decide)⟩

theorem line_of_all {text : List Char} (htrim : Text.trim text = text) (hne : text ≠ [])
    (hall : (text.all fun c => c ≠ '/' ∧ c ≠ '#' ∧ c ≠ ';' ∧ c ≠ '\n') = true) : Line text := by
  refine line_of_forall (Text.trim_eq_iff.mp htrim).1 hne fun c hc => ?_
  simpa using List.all_eq_true.mp hall c hc

theorem line_equation : Line "equation".toList :=
  line_of_all (by decide) (by decide) (by decide)

theorem Printable.line_of_mem_items (hmodel : Printable print model) :
    ∀ item ∈ model.items print, Line item := by
  intro item hitem
  simp only [items, List.mem_append, List.mem_map, List.mem_singleton, Option.mem_toList] at hitem
  rcases hitem with ((((((⟨name, hname, rfl⟩ | hvars) | ⟨entry, hentry, rfl⟩) | rfl) |
    ⟨entry, hentry, rfl⟩) | rfl) | ⟨equation, hequation, rfl⟩) | ⟨name, hname, rfl⟩
  · exact .phrase (by decide) (hmodel.name name hname)
  · split at hvars
    · cases hvars
    · next hnone =>
      rw [List.mem_singleton.mp hvars]
      exact .phrase (by decide)
        (line_intercalate hnone fun name hname => (hmodel.vars name hname).isIdentifier)
  · exact .phrase (by decide)
      (.phrase (by decide) (hmodel.assignable_parameters entry hentry).spelled.line)
  · exact .phrase (by decide) line_equation
  · exact (hmodel.assignable_initialValues entry hentry).spelled.line
  · exact line_equation
  · exact (hmodel.equations equation hequation).1
  · exact .phrase (by decide) (hmodel.name name hname)

/-- A printed model is read back, whatever blanks and semicolons stand around its items
and whatever lines of comment stand between them. -/
theorem parse_printed (hmodel : Printable print model) :
    parse (model.printed print) = .ok model ∧
      ∀ text : String, Comment.Layout false (model.items print) (Text.lines text.toList) →
        parse text = .ok model := by
  have hlayout : ∀ text : String,
      Comment.Layout false (model.items print) (Text.lines text.toList) →
        parse text = .ok model := by
    intro text hlayout
    have hbodies := hlayout.bodies_eq fun item hitem => (hmodel.line_of_mem_items item hitem).item
    have hread := hmodel.reads.readLines hbodies 1
    simp only [parse, hread]
    split
    · next name value hfind =>
      have hdeclared := hmodel.initialValues name
        (List.mem_map_of_mem (List.mem_of_find?_eq_some hfind))
      have hundeclared := List.find?_some hfind
      simp [hdeclared] at hundeclared
    · rfl
  refine ⟨hlayout _ ?_, hlayout⟩
  have hlines : Text.lines (model.printed print).toList = model.items print := by
    rw [printed, String.toList_ofList]
    refine Text.lines_flatMap fun item hitem => ?_
    have hline := hmodel.line_of_mem_items item hitem
    refine ⟨hline.single, fun hlast => ?_⟩
    have hblank := hline.item.tight.last '\r' hlast
    revert hblank
    decide
  rw [hlines]
  exact Comment.Layout.self _

/-- Names and equations that begin like keywords, and two numbers. -/
def damped : Model Float :=
  ⟨some "Damped motion", ["endpoint", "modelled"],
    [("Realistic", Scalar.ofNumeral (.decimal false 5 (-1)))],
    [("endpoint", Scalar.ofNumeral (.decimal true 2 3))],
    ["der(endpoint) = modelled", "endpoint + Realistic*modelled = 0"]⟩

def printDamped (value : Float) : List Char :=
  if 0 < value then ".5".toList else "-2E3".toList

/-- The items of this model among comments, with semicolons after some of them. -/
def dampedLines : List (List Char) :=
  ["model Damped motion".toList, [], "  Real endpoint, modelled;".toList, "/* two".toList,
    " lines */ # and a remark".toList, "parameter Real Realistic = .5 ; ".toList,
    "initial equation".toList, "endpoint = -2E3;".toList, "equation".toList,
    " // in order".toList, "der(endpoint) = modelled".toList,
    "endpoint + Realistic*modelled = 0;;".toList, "end Damped motion".toList]

theorem printable_damped : Printable printDamped damped where
  name := by
    rintro name ⟨⟩
    exact line_of_all (by decide) (by decide) (by decide)
  vars := by
    simp only [damped, List.forall_mem_cons]
    exact ⟨⟨by decide, by decide, by decide⟩, ⟨by decide, by decide, by decide⟩,
      List.forall_mem_nil _⟩
  nodup_vars := by decide
  parameters := by
    simp only [damped, List.map_cons, List.map_nil, List.forall_mem_singleton]
    exact ⟨by decide, by decide, by decide⟩
  nodup_parameters := by simp [damped]
  disjoint := by simp [damped]
  initialValues := by simp [damped]
  nodup_initialValues := by simp [damped]
  isFinite := by
    simp only [damped, List.singleton_append, List.forall_mem_cons]
    exact ⟨by decide +kernel, by decide +kernel, List.forall_mem_nil _⟩
  read_print := by
    have hhalf : printDamped (Scalar.ofNumeral (.decimal false 5 (-1))) = ".5".toList := by
      decide +kernel
    have hstart : printDamped (Scalar.ofNumeral (.decimal true 2 3)) = "-2E3".toList := by
      decide +kernel
    simp only [damped, List.singleton_append, List.forall_mem_cons, hhalf, hstart]
    exact ⟨rfl, rfl, List.forall_mem_nil _⟩
  equations := by
    simp only [damped, List.forall_mem_cons]
    exact ⟨⟨line_of_all (by decide) (by decide) (by decide), by decide⟩,
      ⟨line_of_all (by decide) (by decide) (by decide), by decide⟩, List.forall_mem_nil _⟩

theorem layout_damped : Comment.Layout false (damped.items printDamped) dampedLines := by
  have hitems : damped.items printDamped =
      ["model Damped motion".toList, "Real endpoint, modelled".toList,
        "parameter Real Realistic = .5".toList, "initial equation".toList,
        "endpoint = -2E3".toList, "equation".toList, "der(endpoint) = modelled".toList,
        "endpoint + Realistic*modelled = 0".toList, "end Damped motion".toList] := by
    decide +kernel
  have hself : ∀ text, Comment.Holds text text := fun text =>
    ⟨[], [], [], [], by decide, by decide, by simp, by decide, by simp⟩
  rw [hitems, dampedLines]
  refine .item (hself _) (.idle (.blank (by decide)) ?_)
  refine .item ⟨"  ".toList, [], [';'], [], by decide, by decide, by simp, by decide, by decide⟩ ?_
  refine .idle (@Comment.Idle.opening [] _ _ (by decide) (.inside (by decide))) ?_
  refine .idle (@Comment.Idle.closing " lines ".toList " # and a remark".toList _ (by decide)
    (@Comment.Idle.hash [' '] _ (by decide))) ?_
  refine .item ⟨[], [' '], [';'], [' '], by decide, by decide, by simp, by decide, by decide⟩ ?_
  refine .item (hself _) (.item ⟨[], [], [';'], [], by decide, by decide, by simp, by decide,
    by decide⟩ (.item (hself _) ?_))
  refine .idle (@Comment.Idle.slashes [' '] _ (by decide)) (.item (hself _) ?_)
  refine .item ⟨[], [], [';', ';'], [], by decide, by decide, by simp, by decide, by decide⟩ ?_
  exact .item (hself _) (.done false)

theorem parse_printed_damped :
    Printable printDamped damped ∧ parse (damped.printed printDamped) = .ok damped ∧
      Comment.Layout false (damped.items printDamped) dampedLines ∧
      parse (String.ofList (dampedLines.flatMap (· ++ ['\n']))) = .ok damped := by
  have hparse := parse_printed printable_damped
  refine ⟨printable_damped, hparse.1, layout_damped, hparse.2 _ ?_⟩
  have hall : (dampedLines.all fun line =>
      '\n' ∉ line ∧ line.getLast? ≠ some '\r') = true := by decide +kernel
  rw [String.toList_ofList, Text.lines_flatMap (by simpa using hall)]
  exact layout_damped

end Model

end ImplicitDynamics
