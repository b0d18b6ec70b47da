import ImplicitDynamics.Equation.Statement
import ImplicitDynamics.Proofs.Texts
import Mathlib.Data.List.Infix

/-!
# Lines of code and lines of comment

Code in which no comment starts is kept as it is, up to the blanks around it and the
semicolons after it.  Lines that hold only blanks and comments leave nothing; what
they hand on to the next line is whether a block is open.
-/

namespace ImplicitDynamics

namespace Text

variable {word text before after rest : List Char} {a b c : Char}

theorem after?_eq_none_iff : after? word text = none ↔ ¬ word <+: text := by
  rw [Option.eq_none_iff_forall_ne_some, List.IsPrefix, not_exists]
  refine forall_congr' fun rest => not_congr ?_
  rw [after?_eq_some_iff, eq_comm]

theorem cutAt?_eq_none_iff (hword : word ≠ []) : cutAt? word text = none ↔ ¬ word <:+: text := by
  induction text with
  | nil => simp [cutAt?, after?_eq_none_iff, hword]
  | cons c text ih =>
      rw [List.infix_cons_iff, not_or, ← ih, ← after?_eq_none_iff, cutAt?]
      cases after? word (c :: text) <;> simp

theorem cutAt?_append_of_forall (hbefore : ∀ c ∈ before, c ≠ a) :
    cutAt? (a :: word) (before ++ text) =
      (cutAt? (a :: word) text).map fun (early, late) => (before ++ early, late) := by
  induction before with
  | nil => simp
  | cons c before ih =>
      rw [List.forall_mem_cons] at hbefore
      have hstart : after? (a :: word) (c :: (before ++ text)) = none :=
        if_neg (Ne.symm hbefore.1)
      rw [List.cons_append, cutAt?, hstart, ih hbefore.2]
      cases cutAt? (a :: word) text <;> simp

/-- The first occurrence of two different characters cannot begin with the end of what
stands before it. -/
theorem cutAt?_pair (hne : a ≠ b) (hbefore : ¬ [a, b] <:+: before) :
    cutAt? [a, b] (before ++ a :: b :: rest) = some (before, rest) := by
  induction before with
  | nil => simp [cutAt?, after?]
  | cons c before ih =>
      rw [List.infix_cons_iff, not_or] at hbefore
      have hstart : after? [a, b] (c :: (before ++ a :: b :: rest)) = none := by
        rw [after?_eq_none_iff]
        intro hstarts
        cases before with
        | nil =>
            have : b = a := by simpa using (List.cons_prefix_cons.mp hstarts).2
            exact hne this.symm
        | cons d before =>
            apply hbefore.1
            simpa [List.cons_prefix_cons] using hstarts
      rw [List.cons_append, cutAt?, hstart, ih hbefore.2]
      rfl

theorem infix_of_append_left (hbefore : a ∉ before)
    (hoccurs : a :: word <:+: before ++ text) : a :: word <:+: text := by
  induction before with
  | nil => exact hoccurs
  | cons c before ih =>
      rw [List.mem_cons, not_or] at hbefore
      rw [List.cons_append, List.infix_cons_iff] at hoccurs
      rcases hoccurs with hstarts | hoccurs
      · exact absurd (List.cons_prefix_cons.mp hstarts).1 hbefore.1
      · exact ih hbefore.2 hoccurs

theorem infix_of_append_right (hafter : b ∉ after) (hoccurs : [a, b] <:+: text ++ after) :
    [a, b] <:+: text := by
  have hreverse : [b, a] <:+: after.reverse ++ text.reverse := by
    rw [← List.reverse_append]
    exact List.reverse_infix.mpr hoccurs
  have hrest := infix_of_append_left (by simpa using hafter) hreverse
  exact List.reverse_infix.mp hrest

end Text

namespace Comment

/-- No comment starts in a text. -/
structure Free (text : List Char) : Prop where
  slashes : ¬ ['/', '/'] <:+: text
  hash : '#' ∉ text
  block : ¬ blockStart <:+: text

variable {line kept early late rest gap : List Char} {inBlock stillOpen : Bool}

theorem code_of_opened (hopened : openedBlock? line = some (early, late)) :
    code false line = (early ++ ' ' :: (code true late).1, (code true late).2) := by
  rw [code]
  simp only [Bool.false_eq_true, if_false]
  split
  · next before after heq =>
      rw [hopened, Option.some.injEq, Prod.mk.injEq] at heq
      obtain ⟨rfl, rfl⟩ := heq
      rfl
  · next heq =>
      rw [hopened] at heq
      cases heq

theorem code_of_not_opened (hopened : openedBlock? line = none) :
    code false line = ((beforeLineComment? line).getD line, false) := by
  rw [code]
  simp only [Bool.false_eq_true, if_false]
  split
  · next before after heq =>
      rw [hopened] at heq
      cases heq
  · rfl

theorem code_of_closed (hclosed : Text.cutAt? blockEnd line = some (early, late)) :
    code true line = code false late := by
  rw [code]
  simp only [if_true]
  split
  · next before after heq =>
      rw [hclosed, Option.some.injEq, Prod.mk.injEq] at heq
      obtain ⟨rfl, rfl⟩ := heq
      rfl
  · next heq =>
      rw [hclosed] at heq
      cases heq

theorem code_of_not_closed (hclosed : Text.cutAt? blockEnd line = none) :
    code true line = ([], true) := by
  rw [code]
  simp only [if_true]
  split
  · next before after heq =>
      rw [hclosed] at heq
      cases heq
  · rfl

theorem code_of_free (hline : Free line) : code false line = (line, false) := by
  have hslashes : Text.cutAt? ['/', '/'] line = none :=
    (Text.cutAt?_eq_none_iff (by simp)).mpr hline.slashes
  have hhash : Text.cutAt? ['#'] line = none := by
    rw [Text.cutAt?_eq_none_iff (by simp), List.singleton_infix_iff]
    exact hline.hash
  have hblock : Text.cutAt? blockStart line = none :=
    (Text.cutAt?_eq_none_iff (by simp [blockStart])).mpr hline.block
  have hcomment : beforeLineComment? line = none := by
    rw [beforeLineComment?, hslashes, hhash]
    rfl
  have hopened : openedBlock? line = none := by
    rw [openedBlock?, hblock, hcomment]
  rw [code_of_not_opened hopened, hcomment]
  rfl

/-! ## Lines of comment -/

/-- A line that holds only blanks and comments, with whether a block is open before it and
after it. -/
inductive Idle : Bool → List Char → Bool → Prop where
  | blank {gap : List Char} (hgap : Text.Blank gap) : Idle false gap false
  | slashes {gap rest : List Char} (hgap : Text.Blank gap) :
      Idle false (gap ++ '/' :: '/' :: rest) false
  | hash {gap rest : List Char} (hgap : Text.Blank gap) : Idle false (gap ++ '#' :: rest) false
  | opening {gap rest : List Char} {stillOpen : Bool} (hgap : Text.Blank gap)
      (hrest : Idle true rest stillOpen) : Idle false (gap ++ '/' :: '*' :: rest) stillOpen
  | inside {rest : List Char} (hrest : ¬ blockEnd <:+: rest) : Idle true rest true
  | closing {hidden rest : List Char} {stillOpen : Bool} (hhidden : ¬ blockEnd <:+: hidden)
      (hrest : Idle false rest stillOpen) : Idle true (hidden ++ '*' :: '/' :: rest) stillOpen

theorem ne_of_blank (hgap : Text.Blank gap) {mark : Char} (hmark : Text.isBlank mark = false) :
    ∀ c ∈ gap, c ≠ mark := by
  rintro c hc rfl
  rw [hgap c hc] at hmark
  cases hmark

theorem not_mem_of_blank (hgap : Text.Blank gap) {mark : Char}
    (hmark : Text.isBlank mark = false) : mark ∉ gap :=
  fun hmem => ne_of_blank hgap hmark mark hmem rfl

theorem free_of_blank (hgap : Text.Blank gap) : Free gap where
  slashes hoccurs := not_mem_of_blank hgap (by decide) (hoccurs.subset List.mem_cons_self)
  hash := not_mem_of_blank hgap (by decide)
  block hoccurs := not_mem_of_blank hgap (by decide) (hoccurs.subset List.mem_cons_self)

/-- A mark that a comment starts with, after blanks, is found first. -/
theorem cutAt?_blank (hgap : Text.Blank gap) {mark : Char} (hmark : Text.isBlank mark = false)
    {word : List Char} :
    Text.cutAt? (mark :: word) (gap ++ line) =
      (Text.cutAt? (mark :: word) line).map fun (early, late) => (gap ++ early, late) :=
  Text.cutAt?_append_of_forall (ne_of_blank hgap hmark)

theorem beforeLineComment?_of_slashes (hgap : Text.Blank gap) :
    beforeLineComment? (gap ++ '/' :: '/' :: rest) = some gap := by
  have hslashes : Text.cutAt? ['/', '/'] (gap ++ '/' :: '/' :: rest) = some (gap, rest) := by
    rw [cutAt?_blank hgap (by decide)]
    simp [Text.cutAt?, Text.after?]
  rw [beforeLineComment?, hslashes, cutAt?_blank hgap (by decide)]
  cases Text.cutAt? ['#'] ('/' :: '/' :: rest) <;> simp

theorem beforeLineComment?_of_hash (hgap : Text.Blank gap) :
    beforeLineComment? (gap ++ '#' :: rest) = some gap := by
  have hhash : Text.cutAt? ['#'] (gap ++ '#' :: rest) = some (gap, rest) := by
    rw [cutAt?_blank hgap (by decide)]
    simp [Text.cutAt?, Text.after?]
  have hstart : Text.cutAt? ['/', '/'] ('#' :: rest) =
      (Text.cutAt? ['/', '/'] rest).map fun (early, late) => ('#' :: early, late) := by
    simp [Text.cutAt?, Text.after?]
  rw [beforeLineComment?, hhash, cutAt?_blank hgap (by decide), hstart]
  cases Text.cutAt? ['/', '/'] rest <;> simp

/-- After blanks and a comment to the end of the line, no block opens. -/
theorem code_of_lineComment (hgap : Text.Blank gap)
    (hcomment : beforeLineComment? (gap ++ rest) = some gap) :
    code false (gap ++ rest) = (gap, false) := by
  have hopened : openedBlock? (gap ++ rest) = none := by
    rw [openedBlock?, hcomment, blockStart, cutAt?_blank hgap (by decide)]
    cases Text.cutAt? ['/', '*'] rest <;> simp
  rw [code_of_not_opened hopened, hcomment]
  rfl

theorem length_lt_of_beforeLineComment? (hgap : Text.Blank gap)
    (hkept : beforeLineComment? (gap ++ '/' :: '*' :: rest) = some kept) :
    gap.length < kept.length := by
  have hslashes : Text.cutAt? ['/', '/'] ('/' :: '*' :: rest) =
      (Text.cutAt? ['/', '/'] ('*' :: rest)).map fun (early, late) => ('/' :: early, late) := by
    simp [Text.cutAt?, Text.after?]
  have hhash : Text.cutAt? ['#'] ('/' :: '*' :: rest) =
      (Text.cutAt? ['#'] ('*' :: rest)).map fun (early, late) => ('/' :: early, late) := by
    simp [Text.cutAt?, Text.after?]
  rw [beforeLineComment?, cutAt?_blank hgap (by decide), cutAt?_blank hgap (by decide), hslashes,
    hhash] at hkept
  revert hkept
  cases Text.cutAt? ['/', '/'] ('*' :: rest) <;> cases Text.cutAt? ['#'] ('*' :: rest)
  · simp
  · simp only [Option.map_none, Option.map_some, Option.some.injEq]
    rintro rfl
    simp
  · simp only [Option.map_none, Option.map_some, Option.some.injEq]
    rintro rfl
    simp
  · simp only [Option.map_some]
    split <;>
    · simp only [Option.some.injEq]
      rintro rfl
      simp

theorem openedBlock?_of_blank (hgap : Text.Blank gap) :
    openedBlock? (gap ++ '/' :: '*' :: rest) = some (gap, rest) := by
  have hblock : Text.cutAt? blockStart (gap ++ '/' :: '*' :: rest) = some (gap, rest) := by
    rw [blockStart, cutAt?_blank hgap (by decide)]
    simp [Text.cutAt?, Text.after?]
  rw [openedBlock?, hblock]
  cases hkept : beforeLineComment? (gap ++ '/' :: '*' :: rest) with
  | none => rfl
  | some kept => exact if_pos (length_lt_of_beforeLineComment? hgap hkept)

theorem Idle.code_eq (hidle : Idle inBlock line stillOpen) :
    ∃ gap, Text.Blank gap ∧ code inBlock line = (gap, stillOpen) := by
  induction hidle with
  | @blank gap hgap => exact ⟨gap, hgap, code_of_free (free_of_blank hgap)⟩
  | @slashes gap rest hgap =>
      exact ⟨gap, hgap, code_of_lineComment hgap (beforeLineComment?_of_slashes hgap)⟩
  | @hash gap rest hgap =>
      exact ⟨gap, hgap, code_of_lineComment hgap (beforeLineComment?_of_hash hgap)⟩
  | @opening gap rest stillOpen hgap hrest ih =>
      rcases ih with ⟨kept, hkept, hcode⟩
      refine ⟨gap ++ ' ' :: kept, ?_, ?_⟩
      · rw [Text.Blank, List.forall_mem_append, List.forall_mem_cons]
        exact ⟨hgap, by decide, hkept⟩
      · rw [code_of_opened (openedBlock?_of_blank hgap), hcode]
  | @inside rest hrest =>
      have hclosed := (Text.cutAt?_eq_none_iff (by simp [blockEnd])).mpr hrest
      exact ⟨[], List.forall_mem_nil _, code_of_not_closed hclosed⟩
  | @closing hidden rest stillOpen hhidden hrest ih =>
      have hclosed : Text.cutAt? blockEnd (hidden ++ '*' :: '/' :: rest) = some (hidden, rest) :=
        Text.cutAt?_pair (by decide) hhidden
      rwa [code_of_closed hclosed]

theorem trim_of_blank (hgap : Text.Blank gap) : Text.trim gap = [] :=
  Text.trim_of_padded ⟨by simp, by simp⟩ ⟨gap, [], hgap, List.forall_mem_nil _, by simp⟩

theorem Idle.strip_eq (hidle : Idle inBlock line stillOpen) :
    strip inBlock (String.ofList line) = ("", stillOpen) := by
  rcases hidle.code_eq with ⟨gap, hgap, hcode⟩
  simp [strip, hcode, trim_of_blank hgap]

/-! ## Items on lines of their own -/

/-- A text that a line of its own leaves as it is. -/
structure Item (text : List Char) : Prop where
  free : Free text
  tight : Text.Tight text
  ne_nil : text ≠ []
  last_ne : text.getLast? ≠ some ';'

/-- A line with blanks before a text, and with blanks and semicolons after it. -/
def Holds (text line : List Char) : Prop :=
  ∃ indent gap semicolons final, Text.Blank indent ∧ Text.Blank gap ∧ (∀ c ∈ semicolons, c = ';') ∧
    Text.Blank final ∧ line = indent ++ (text ++ (gap ++ (semicolons ++ final)))

theorem Item.free_of_holds {text : List Char} (hitem : Item text) (hline : Holds text line) :
    Free line := by
  rcases hline with ⟨indent, gap, semicolons, final, hindent, hgap, hsemicolons, hfinal, rfl⟩
  have hafter : ∀ {mark}, Text.isBlank mark = false → mark ≠ ';' →
      mark ∉ gap ++ (semicolons ++ final) := by
    intro mark hmark hne hmem
    rcases List.mem_append.mp hmem with hmem | hmem
    · exact not_mem_of_blank hgap hmark hmem
    · rcases List.mem_append.mp hmem with hmem | hmem
      · exact hne (hsemicolons mark hmem)
      · exact not_mem_of_blank hfinal hmark hmem
  refine ⟨fun hoccurs => ?_, fun hmem => ?_, fun hoccurs => ?_⟩
  · have hright := Text.infix_of_append_left (not_mem_of_blank hindent (by decide)) hoccurs
    exact hitem.free.slashes
      (Text.infix_of_append_right (hafter (by decide) (by decide)) hright)
  · rcases List.mem_append.mp hmem with hmem | hmem
    · exact not_mem_of_blank hindent (by decide) hmem
    · rcases List.mem_append.mp hmem with hmem | hmem
      · exact hitem.free.hash hmem
      · exact hafter (by decide) (by decide) hmem
  · have hright := Text.infix_of_append_left (not_mem_of_blank hindent (by decide)) hoccurs
    exact hitem.free.block
      (Text.infix_of_append_right (hafter (by decide) (by decide)) hright)

/-- Trimming leaves the semicolons with the blanks before them, if there are any. -/
theorem Item.trim_holds {text : List Char} (hitem : Item text) (hline : Holds text line) :
    ∃ gap semicolons, Text.Blank gap ∧ (∀ c ∈ semicolons, c = ';') ∧
      Text.trim line = text ++ gap ++ semicolons := by
  rcases hline with ⟨indent, gap, semicolons, final, hindent, hgap, hsemicolons, hfinal, rfl⟩
  by_cases hnone : semicolons = []
  · subst hnone
    refine ⟨[], [], List.forall_mem_nil _, List.forall_mem_nil _, ?_⟩
    have hrest : Text.Blank (gap ++ final) := List.forall_mem_append.mpr ⟨hgap, hfinal⟩
    simpa using Text.trim_of_padded hitem.tight ⟨indent, gap ++ final, hindent, hrest, by simp⟩
  · refine ⟨gap, semicolons, hgap, hsemicolons, ?_⟩
    refine Text.trim_of_padded ⟨?_, ?_⟩ ⟨indent, final, hindent, hfinal, by simp⟩
    · rcases List.exists_cons_of_ne_nil hitem.ne_nil with ⟨c, rest, rfl⟩
      exact hitem.tight.head
    · intro c hc
      rw [List.getLast?_append_of_ne_nil _ hnone] at hc
      rw [hsemicolons c (List.mem_of_getLast? hc)]
      decide

theorem Item.body_strip {text : List Char} (hitem : Item text) (hline : Holds text line) :
    (strip false (String.ofList line)).2 = false ∧
      Statement.body (strip false (String.ofList line)).1 = String.ofList text := by
  rcases hitem.trim_holds hline with ⟨gap, semicolons, hgap, hsemicolons, htrim⟩
  have hcode := code_of_free (hitem.free_of_holds hline)
  refine ⟨by simp [strip, hcode], ?_⟩
  have hlast : ∀ c ∈ (text ++ gap).getLast?, decide (c = ';') = false := by
    intro c hc
    rw [decide_eq_false_iff_not]
    rintro rfl
    by_cases hnone : gap = []
    · rw [hnone, List.append_nil] at hc
      exact hitem.last_ne hc
    · rw [List.getLast?_append_of_ne_nil _ hnone] at hc
      exact not_mem_of_blank hgap (by decide) (List.mem_of_getLast? hc)
  have hdrop : Text.dropEndWhile (· = ';') (text ++ gap ++ semicolons) = text ++ gap :=
    Text.dropEndWhile_append (by simpa using hsemicolons) hlast
  have hbody : Text.trim (text ++ gap) = text :=
    Text.trim_of_padded hitem.tight ⟨[], gap, List.forall_mem_nil _, hgap, by simp⟩
  simp only [strip, hcode, htrim, Statement.body, String.toList_ofList, hdrop, hbody]

/-- Lines that hold the given texts, one each, among lines of comment. -/
inductive Layout : Bool → List (List Char) → List (List Char) → Prop where
  | done (inBlock : Bool) : Layout inBlock [] []
  | item {text line : List Char} {texts lines : List (List Char)} (hline : Holds text line)
      (hrest : Layout false texts lines) : Layout false (text :: texts) (line :: lines)
  | idle {inBlock stillOpen : Bool} {line : List Char} {texts lines : List (List Char)}
      (hline : Idle inBlock line stillOpen) (hrest : Layout stillOpen texts lines) :
      Layout inBlock texts (line :: lines)

theorem Layout.self (texts : List (List Char)) : Layout false texts texts := by
  induction texts with
  | nil => exact .done false
  | cons text texts ih =>
      have hblank := List.forall_mem_nil fun c => Text.isBlank c = true
      exact .item ⟨[], [], [], [], hblank, hblank, List.forall_mem_nil _, hblank, by simp⟩ ih

/-- The bodies of the lines that are not empty are the texts. -/
theorem Layout.bodies_eq {inBlock : Bool} {texts lines : List (List Char)}
    (hlayout : Layout inBlock texts lines) (htexts : ∀ text ∈ texts, Item text) :
    ((stripAll inBlock (lines.map String.ofList)).1.map Statement.body).filter
      (fun text => !text.isEmpty) = texts.map String.ofList := by
  induction hlayout with
  | done inBlock => rfl
  | @item text line texts lines hline hrest ih =>
      rw [List.forall_mem_cons] at htexts
      rcases htexts.1.body_strip hline with ⟨hclosed, hbody⟩
      have hkept : (String.ofList text).isEmpty = false := by
        simpa using htexts.1.ne_nil
      simp only [List.map_cons, stripAll, hclosed, hbody]
      rw [List.filter_cons_of_pos (by simp [hkept]), ih htexts.2]
  | @idle inBlock stillOpen line texts lines hline hrest ih =>
      have hbody : Statement.body "" = "" := by decide
      simp only [List.map_cons, stripAll, hline.strip_eq, hbody]
      rw [List.filter_cons_of_neg (by decide), ih htexts]

end Comment

end ImplicitDynamics
