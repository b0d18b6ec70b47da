import ImplicitDynamics.Expression.Token

/-!
# Comments

A comment runs from `//` or `#` to the end of its line, or from `/*` to the
next `*/`, possibly some lines later.  Reading a line therefore needs to know
whether the line before it ended inside a block.
-/

namespace ImplicitDynamics.Comment

def blockStart : List Char := ['/', '*']

def blockEnd : List Char := ['*', '/']

/-- The code before the first comment that runs to the end of the line. -/
def beforeLineComment? (code : List Char) : Option (List Char) :=
  let slashes := (Text.cutAt? ['/', '/'] code).map Prod.fst
  let hash := (Text.cutAt? ['#'] code).map Prod.fst
  match slashes, hash with
  | some a, some b => if a.length ≤ b.length then some a else some b
  | some a, none => some a
  | none, found => found

/-- The code before the block that opens before any comment to the end of the
line, and the text after its start. -/
def openedBlock? (code : List Char) : Option (List Char × List Char) :=
  match Text.cutAt? blockStart code, beforeLineComment? code with
  | some (before, after), some kept =>
    if before.length < kept.length then some (before, after) else none
  | found, none => found
  | none, some _ => none

theorem length_after_lt {word text before after : List Char} (hword : word ≠ [])
    (hcut : Text.cutAt? word text = some (before, after)) :
    after.length < text.length := by
  have heq := congrArg List.length (Text.eq_append_of_cutAt? hcut)
  have hpos := List.length_pos_iff.2 hword
  simp only [List.length_append] at heq
  omega

theorem cutAt?_of_openedBlock? {code before after : List Char}
    (hopened : openedBlock? code = some (before, after)) :
    Text.cutAt? blockStart code = some (before, after) := by
  unfold openedBlock? at hopened
  split at hopened
  · next hcut _ =>
    split at hopened
    · rw [hcut, hopened]
    · cases hopened
  · exact hopened
  · cases hopened

/-- The code of a line, each block replaced by one blank, and whether the line
ends inside a block. -/
def code (inBlock : Bool) (line : List Char) : List Char × Bool :=
  if inBlock then
    match hend : Text.cutAt? blockEnd line with
    | some (_, after) =>
      have := length_after_lt (by decide) hend
      code false after
    | none => ([], true)
  else
    match hopened : openedBlock? line with
    | some (before, after) =>
      have := length_after_lt (by decide) (cutAt?_of_openedBlock? hopened)
      let (kept, stillOpen) := code true after
      (before ++ ' ' :: kept, stillOpen)
    | none => ((beforeLineComment? line).getD line, false)
  termination_by line.length

/-- The trimmed code of a line, and whether the line ends inside a block. -/
def strip (inBlock : Bool) (line : String) : String × Bool :=
  let (kept, stillOpen) := code inBlock line.toList
  (String.ofList (Text.trim kept), stillOpen)

/-- The trimmed code of successive lines, and whether the last ends inside a
block. -/
def stripAll (inBlock : Bool) : List String → List String × Bool
  | [] => ([], inBlock)
  | line :: rest =>
    let (kept, stillOpen) := strip inBlock line
    let (others, last) := stripAll stillOpen rest
    (kept :: others, last)

end ImplicitDynamics.Comment

namespace ImplicitDynamics

/-- The tokens of the code of a line, and whether the line ends inside a
block. -/
def tokenizeLine (inBlock : Bool) (line : String) :
    Except ParseError (List Token) × Bool :=
  let (kept, stillOpen) := Comment.strip inBlock line
  (tokenize kept, stillOpen)

end ImplicitDynamics
