/-!
# Text as lists of characters

Everything that reads text here works on the list of its characters.  Blanks
are the characters with the Unicode property `White_Space`; trimming, cutting
at a separator and splitting into lines are defined through them.
-/

namespace ImplicitDynamics.Text

/-- The code points with the Unicode property `White_Space`, as closed
intervals. -/
def blankRanges : List (Nat × Nat) :=
  [(0x09, 0x0D), (0x20, 0x20), (0x85, 0x85), (0xA0, 0xA0), (0x1680, 0x1680),
    (0x2000, 0x200A), (0x2028, 0x2029), (0x202F, 0x202F), (0x205F, 0x205F),
    (0x3000, 0x3000)]

def isBlank (c : Char) : Bool :=
  blankRanges.any fun range => range.1 ≤ c.toNat && c.toNat ≤ range.2

def trimStart (text : List Char) : List Char :=
  text.dropWhile isBlank

/-- Drops the longest run of characters with `p` from the end. -/
def dropEndWhile (p : Char → Bool) (text : List Char) : List Char :=
  (text.reverse.dropWhile p).reverse

def trim (text : List Char) : List Char :=
  dropEndWhile isBlank (trimStart text)

/-- The pieces between the characters with `p`; there is one more piece than
there are such characters. -/
def pieces (p : Char → Bool) : List Char → List (List Char)
  | [] => [[]]
  | c :: rest =>
    if p c then [] :: pieces p rest
    else
      match pieces p rest with
      | [] => [[c]]
      | piece :: others => (c :: piece) :: others

/-- The text before and after the first character with `p`. -/
def cut? (p : Char → Bool) : List Char → Option (List Char × List Char)
  | [] => none
  | c :: rest =>
    if p c then some ([], rest)
    else (cut? p rest).map fun (before, after) => (c :: before, after)

/-- What follows `start` at the beginning of a text. -/
def after? : (start : List Char) → List Char → Option (List Char)
  | [], text => some text
  | _ :: _, [] => none
  | s :: start, c :: text => if s = c then after? start text else none

/-- The text before and after the first occurrence of `word`. -/
def cutAt? (word : List Char) : List Char → Option (List Char × List Char)
  | [] => (after? word []).map fun after => ([], after)
  | c :: rest =>
    match after? word (c :: rest) with
    | some after => some ([], after)
    | none => (cutAt? word rest).map fun (before, after) => (c :: before, after)

/-- A carriage return right before the end of a line belongs to the line end. -/
def dropReturn (line : List Char) : List Char :=
  if line.getLast? = some '\r' then line.dropLast else line

/-- The lines of a text.  A line feed ends a line, together with a carriage
return right before it; what follows the last line feed is a line if there is
something. -/
def lines (text : List Char) : List (List Char) :=
  let parts := pieces (· = '\n') text
  let ended := parts.dropLast.map dropReturn
  match parts.getLast? with
  | some [] => ended
  | some final => ended ++ [final]
  | none => ended

theorem after?_eq_some_iff {start text rest : List Char} :
    after? start text = some rest ↔ text = start ++ rest := by
  induction start generalizing text with
  | nil => simp [after?, eq_comm]
  | cons s start ih =>
    cases text with
    | nil => simp [after?]
    | cons c text =>
      by_cases hsc : s = c
      · simp [after?, hsc, ih]
      · simp [after?, hsc, Ne.symm hsc]

theorem eq_append_of_cutAt? {word text before after : List Char}
    (hcut : cutAt? word text = some (before, after)) :
    text = before ++ word ++ after := by
  induction text generalizing before with
  | nil =>
    obtain ⟨rest, hrest, heq⟩ := Option.map_eq_some_iff.1 hcut
    obtain ⟨rfl, rfl⟩ := Prod.mk.inj heq
    simpa using after?_eq_some_iff.1 hrest
  | cons c text ih =>
    unfold cutAt? at hcut
    split at hcut
    · next rest hrest =>
      obtain ⟨rfl, rfl⟩ := Prod.mk.inj (Option.some.inj hcut)
      simpa using after?_eq_some_iff.1 hrest
    · obtain ⟨⟨early, late⟩, hpair, heq⟩ := Option.map_eq_some_iff.1 hcut
      obtain ⟨rfl, rfl⟩ := Prod.mk.inj heq
      simp [ih hpair]

end ImplicitDynamics.Text
