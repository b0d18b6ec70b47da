import ImplicitDynamics.Proofs.Comments

/-!
# Comments, one character after the other

The code of a line is found by searching for marks: whichever mark comes first decides
how the line goes on, and the search starts anew behind it.  A reader who goes from left
to right and knows only whether a block is open comes to the same code.  Marks may
overlap, as in `//*` or `/*/`; the one that begins first counts, and a character that
belongs to it belongs to no other.

What is kept holds no mark that starts a comment, so reading it once more changes
nothing.
-/

namespace ImplicitDynamics

namespace Comment

variable {line rest word text part : List Char} {c : Char} {inBlock : Bool}

/-- What is kept of a line that begins outside or inside of a block, and whether the
line ends inside one. -/
def scanLine : Bool → List Char → List Char × Bool
  | false, [] => ([], false)
  | false, '#' :: _ => ([], false)
  | false, '/' :: '/' :: _ => ([], false)
  | false, '/' :: '*' :: rest =>
    let (kept, stillOpen) := scanLine true rest
    (' ' :: kept, stillOpen)
  | false, c :: rest =>
    let (kept, stillOpen) := scanLine false rest
    (c :: kept, stillOpen)
  | true, [] => ([], true)
  | true, '*' :: '/' :: rest => scanLine false rest
  | true, _ :: rest => scanLine true rest

/-- What is kept of successive lines; a block may end on a later line than the one that
it begins on. -/
def scanLines (inBlock : Bool) : List (List Char) → List (List Char) × Bool
  | [] => ([], inBlock)
  | line :: rest =>
    let (kept, stillOpen) := scanLine inBlock line
    let (others, last) := scanLines stillOpen rest
    (kept :: others, last)

/-- No comment starts with this character before that text. -/
structure Plain (c : Char) (rest : List Char) : Prop where
  hash : c ≠ '#'
  slashes : c = '/' → rest.head? ≠ some '/'
  block : c = '/' → rest.head? ≠ some '*'

theorem plain_of_forall (hhash : c ≠ '#') (hslashes : ∀ after, c = '/' → rest ≠ '/' :: after)
    (hblock : ∀ after, c = '/' → rest ≠ '*' :: after) : Plain c rest where
  hash := hhash
  slashes hc hhead := by
    obtain ⟨after, hafter⟩ := List.head?_eq_some_iff.mp hhead
    exact hslashes after hc hafter
  block hc hhead := by
    obtain ⟨after, hafter⟩ := List.head?_eq_some_iff.mp hhead
    exact hblock after hc hafter

theorem pair_prefix_iff {a b : Char} : [a, b] <+: c :: rest ↔ c = a ∧ rest.head? = some b := by
  cases rest <;> simp [List.cons_prefix_cons, eq_comm]

theorem Plain.not_slashes (hplain : Plain c rest) : ¬ ['/', '/'] <+: c :: rest := by
  rw [pair_prefix_iff, not_and]
  exact hplain.slashes

theorem Plain.not_block (hplain : Plain c rest) : ¬ blockStart <+: c :: rest := by
  rw [blockStart, pair_prefix_iff, not_and]
  exact hplain.block

theorem cutAt?_cons (hstart : ¬ word <+: c :: rest) :
    Text.cutAt? word (c :: rest) =
      (Text.cutAt? word rest).map fun (early, late) => (c :: early, late) := by
  rw [Text.cutAt?, Text.after?_eq_none_iff.mpr hstart]

theorem beforeLineComment?_cons (hplain : Plain c rest) :
    beforeLineComment? (c :: rest) = (beforeLineComment? rest).map (c :: ·) := by
  have hhash : ¬ ['#'] <+: c :: rest := by
    simpa [List.cons_prefix_cons] using hplain.hash.symm
  rw [beforeLineComment?, cutAt?_cons hplain.not_slashes, cutAt?_cons hhash, beforeLineComment?]
  cases Text.cutAt? ['/', '/'] rest with
  | none => cases Text.cutAt? ['#'] rest <;> rfl
  | some slashes =>
      cases Text.cutAt? ['#'] rest with
      | none => rfl
      | some hash =>
          simp only [Option.map_some, List.length_cons, Nat.add_le_add_iff_right]
          split <;> rfl

theorem openedBlock?_cons (hplain : Plain c rest) :
    openedBlock? (c :: rest) =
      (openedBlock? rest).map fun (early, late) => (c :: early, late) := by
  rw [openedBlock?, cutAt?_cons hplain.not_block, beforeLineComment?_cons hplain, openedBlock?]
  cases Text.cutAt? blockStart rest with
  | none => cases beforeLineComment? rest <;> rfl
  | some block =>
      cases beforeLineComment? rest with
      | none => rfl
      | some kept =>
          simp only [Option.map_some, List.length_cons, Nat.add_lt_add_iff_right]
          split <;> rfl

theorem code_nil (inBlock : Bool) : code inBlock [] = ([], inBlock) := by
  cases inBlock with
  | false => exact code_of_free (free_of_blank (List.forall_mem_nil _))
  | true => exact code_of_not_closed rfl

theorem code_cons (hplain : Plain c rest) :
    code false (c :: rest) = (c :: (code false rest).1, (code false rest).2) := by
  have hopened := openedBlock?_cons hplain
  cases hrest : openedBlock? rest with
  | none =>
      rw [hrest] at hopened
      rw [code_of_not_opened hopened, code_of_not_opened hrest, beforeLineComment?_cons hplain]
      cases beforeLineComment? rest <;> rfl
  | some block =>
      obtain ⟨early, late⟩ := block
      rw [hrest] at hopened
      rw [code_of_opened hopened, code_of_opened hrest, List.cons_append]

theorem code_hash (rest : List Char) : code false ('#' :: rest) = ([], false) :=
  have hgap := List.forall_mem_nil fun c => Text.isBlank c = true
  code_of_lineComment hgap (beforeLineComment?_of_hash hgap)

theorem code_slashes (rest : List Char) : code false ('/' :: '/' :: rest) = ([], false) :=
  have hgap := List.forall_mem_nil fun c => Text.isBlank c = true
  code_of_lineComment hgap (beforeLineComment?_of_slashes hgap)

theorem code_opening (rest : List Char) :
    code false ('/' :: '*' :: rest) = (' ' :: (code true rest).1, (code true rest).2) :=
  code_of_opened (openedBlock?_of_blank (List.forall_mem_nil _))

theorem code_closing (rest : List Char) : code true ('*' :: '/' :: rest) = code false rest :=
  code_of_closed (@Text.cutAt?_pair [] rest '*' '/' (by decide) (by simp))

theorem code_hidden (hinside : ¬ blockEnd <+: c :: rest) :
    code true (c :: rest) = code true rest := by
  have hclosed := cutAt?_cons hinside
  cases hrest : Text.cutAt? blockEnd rest with
  | none =>
      rw [hrest] at hclosed
      rw [code_of_not_closed hclosed, code_of_not_closed hrest]
  | some block =>
      obtain ⟨early, late⟩ := block
      rw [hrest] at hclosed
      rw [code_of_closed hclosed, code_of_closed hrest]

theorem code_eq_scanLine (inBlock : Bool) (line : List Char) :
    code inBlock line = scanLine inBlock line := by
  fun_induction scanLine inBlock line with
  | case1 => exact code_nil false
  | case2 rest => exact code_hash rest
  | case3 rest => exact code_slashes rest
  | case4 rest kept stillOpen hrest ih => rw [code_opening, ih, hrest]
  | case5 c rest hhash hslashes hblock kept stillOpen hrest ih =>
      rw [code_cons (plain_of_forall hhash hslashes hblock), ih, hrest]
  | case6 => exact code_nil true
  | case7 rest ih => rw [code_closing, ih]
  | case8 c rest hclosing ih =>
      have hinside : ¬ blockEnd <+: c :: rest := by
        rw [blockEnd, pair_prefix_iff, List.head?_eq_some_iff]
        rintro ⟨hc, after, hafter⟩
        exact hclosing after hc hafter
      rw [code_hidden hinside, ih]

/-! ## Nothing is left to strip -/

theorem Free.of_infix (htext : Free text) (hpart : part <:+: text) : Free part where
  slashes hoccurs := htext.slashes (hoccurs.trans hpart)
  hash hmem := htext.hash (hpart.subset hmem)
  block hoccurs := htext.block (hoccurs.trans hpart)

theorem Free.cons (hplain : Plain c text) (htext : Free text) : Free (c :: text) where
  slashes hoccurs := by
    rcases List.infix_cons_iff.mp hoccurs with hstarts | hoccurs
    · exact hplain.not_slashes hstarts
    · exact htext.slashes hoccurs
  hash hmem := by
    rcases List.mem_cons.mp hmem with heq | hmem
    · exact hplain.hash heq.symm
    · exact htext.hash hmem
  block hoccurs := by
    rcases List.infix_cons_iff.mp hoccurs with hstarts | hoccurs
    · exact hplain.not_block hstarts
    · exact htext.block hoccurs

/-- What is kept of a line begins like the line or with the blank for a block. -/
theorem head?_scanLine (hout : inBlock = false) :
    (scanLine inBlock line).1.head? = none ∨ (scanLine inBlock line).1.head? = some ' ' ∨
      (scanLine inBlock line).1.head? = line.head? := by
  fun_cases scanLine inBlock line with
  | case1 => exact .inl rfl
  | case2 rest => exact .inl rfl
  | case3 rest => exact .inl rfl
  | case4 rest kept stillOpen hrest => exact .inr (.inl rfl)
  | case5 c rest hhash hslashes hblock kept stillOpen hrest => exact .inr (.inr rfl)
  | case6 => cases hout
  | case7 rest => cases hout
  | case8 c rest hclosing => cases hout

/-- No comment arises where parts of a line come together. -/
theorem Plain.scanLine (hplain : Plain c rest) : Plain c (scanLine false rest).1 where
  hash := hplain.hash
  slashes hc := by
    rcases @head?_scanLine rest false rfl with hnone | hblank | hsame
    · simp [hnone]
    · simp [hblank]
    · rw [hsame]
      exact hplain.slashes hc
  block hc := by
    rcases @head?_scanLine rest false rfl with hnone | hblank | hsame
    · simp [hnone]
    · simp [hblank]
    · rw [hsame]
      exact hplain.block hc

theorem free_scanLine (inBlock : Bool) (line : List Char) : Free (scanLine inBlock line).1 := by
  fun_induction scanLine inBlock line with
  | case1 => exact free_of_blank (List.forall_mem_nil _)
  | case2 rest => exact free_of_blank (List.forall_mem_nil _)
  | case3 rest => exact free_of_blank (List.forall_mem_nil _)
  | case4 rest kept stillOpen hrest ih =>
      rw [hrest] at ih
      exact ih.cons ⟨by decide, by simp, by simp⟩
  | case5 c rest hhash hslashes hblock kept stillOpen hrest ih =>
      have hplain := (plain_of_forall hhash hslashes hblock).scanLine
      rw [hrest] at ih hplain
      exact ih.cons hplain
  | case6 => exact free_of_blank (List.forall_mem_nil _)
  | case7 rest ih => exact ih
  | case8 c rest hclosing ih => exact ih

theorem infix_of_trim (text : List Char) : Text.trim text <:+: text := by
  obtain ⟨before, after, -, -, htext⟩ := Text.padded_trim text
  exact ⟨before, after, htext.symm⟩

/-- Code without comments and without blanks around it stays what it is. -/
theorem strip_of_free (htext : Free text) :
    strip false (String.ofList (Text.trim text)) = (String.ofList (Text.trim text), false) := by
  have hcode := code_of_free (htext.of_infix (infix_of_trim text))
  simp only [strip, String.toList_ofList, hcode, Text.trim_of_tight (Text.tight_trim text)]

theorem strip_eq_scanLine (inBlock : Bool) (line : String) :
    strip inBlock line =
      (String.ofList (Text.trim (scanLine inBlock line.toList).1),
        (scanLine inBlock line.toList).2) := by
  rw [strip, code_eq_scanLine]

theorem stripAll_eq_scanLines (inBlock : Bool) (lines : List String) :
    stripAll inBlock lines =
      ((scanLines inBlock (lines.map String.toList)).1.map fun kept =>
          String.ofList (Text.trim kept),
        (scanLines inBlock (lines.map String.toList)).2) := by
  induction lines generalizing inBlock with
  | nil => rfl
  | cons line rest ih =>
      rw [stripAll, strip_eq_scanLine, List.map_cons, scanLines]
      simp only [ih, List.map_cons]

theorem strip_strip (inBlock : Bool) (line : String) :
    strip false (strip inBlock line).1 = ((strip inBlock line).1, false) := by
  rw [strip_eq_scanLine inBlock line]
  exact strip_of_free (free_scanLine inBlock line.toList)

theorem strip_body (inBlock : Bool) (line : String) :
    strip false (Statement.body (strip inBlock line).1) =
      (Statement.body (strip inBlock line).1, false) := by
  rw [strip_eq_scanLine inBlock line, Statement.body, String.toList_ofList]
  have hfree := free_scanLine inBlock line.toList
  have hstripped := hfree.of_infix (infix_of_trim _)
  have hprefix : Text.dropEndWhile (· = ';') (Text.trim (scanLine inBlock line.toList).1) <+:
      Text.trim (scanLine inBlock line.toList).1 := ⟨_, Text.dropEndWhile_append_run _ _⟩
  exact strip_of_free (hstripped.of_infix hprefix.isInfix)

/-- Stripping lines of their comments is reading them from left to right, from a line
that begins in a block as from one that does not.  Outside of blocks a line that is
stripped has nothing left to strip, and neither has the body that is kept of it. -/
theorem strips_as_scanned (inBlock : Bool) (lines : List String) :
    stripAll inBlock lines =
      ((scanLines inBlock (lines.map String.toList)).1.map fun kept =>
          String.ofList (Text.trim kept),
        (scanLines inBlock (lines.map String.toList)).2) ∧
    ∀ line, strip false (strip inBlock line).1 = ((strip inBlock line).1, false) ∧
      strip false (Statement.body (strip inBlock line).1) =
        (Statement.body (strip inBlock line).1, false) :=
  ⟨stripAll_eq_scanLines inBlock lines,
    fun line => ⟨strip_strip inBlock line, strip_body inBlock line⟩⟩

example : scanLines false ["a /*/ b".toList, "c // */d*//# e".toList] =
    (["a  ".toList, "d*".toList], false) := by
  decide

end Comment

end ImplicitDynamics
