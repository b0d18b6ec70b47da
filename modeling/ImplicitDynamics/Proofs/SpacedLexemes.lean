import ImplicitDynamics.Proofs.Grammar
import ImplicitDynamics.Proofs.Texts
import Mathlib.Data.List.Chain

/-!
# Lexemes with blanks between them

Lexemes that are written one after the other, with any blanks between them, are
read as one token each.  Blanks are needed only where a number or a word would
otherwise run into what follows it.  A minus is the one lexeme that may become two
tokens: where an operand is due, it is a sign.

What a lexeme is read as is said here by itself and by the lexeme before it, without
the scanner.
-/

namespace ImplicitDynamics

/-- A lexeme and the blanks before it. -/
structure Spaced where
  gap : List Char
  lexeme : Lexeme
  isBlank_gap : Text.Blank gap

namespace Spaced

def text (spaced : Spaced) : List Char :=
  spaced.gap ++ spaced.lexeme.text

/-- Lexemes one after the other, and what follows the last. -/
def written (spaced : List Spaced) (final : List Char) : String :=
  String.ofList (spaced.flatMap text ++ final)

/-- A blank stands wherever a number or a word is directly followed by a lexeme that
starts with a letter, a digit, an underscore or a point. -/
def Apart (spaced : List Spaced) : Prop :=
  spaced.IsChain fun first second =>
    first.lexeme.canGrow = true → second.lexeme.text.head?.any Lexeme.prolongs = true →
      second.gap ≠ []

instance (spaced : List Spaced) : Decidable (Apart spaced) :=
  inferInstanceAs (Decidable (List.IsChain _ _))

end Spaced

namespace Lexeme

/-- The six names that are read as functions. -/
def functionNames : List String :=
  ["der", "sin", "cos", "exp", "sqrt", "tan"]

def kind : Lexeme → TokenKind
  | number _ => .number
  | word w => if w.name ∈ functionNames then .function else .identifier
  | operator _ => .operator
  | leftParen => .leftParen
  | rightParen => .rightParen
  | comma => .comma

def strength : Lexeme → Nat
  | operator .pow => 4
  | operator .mul => 3
  | operator .div => 3
  | operator .add => 2
  | operator .sub => 2
  | _ => 0

/-- The token with the text of a lexeme. -/
def token (lexeme : Lexeme) : Token :=
  ⟨lexeme.kind, String.ofList lexeme.text, lexeme.strength, false⟩

/-- An operand is due at the start, and after an operator, an opening parenthesis, a
comma and the name of a function. -/
def operandDue : Option Lexeme → Bool
  | none => true
  | some previous =>
    match previous.kind with
    | .operator | .leftParen | .comma | .function => true
    | .number | .identifier | .rightParen => false

/-- What a lexeme is read as when another one, or nothing, stands before it. -/
def readAfter (previous : Option Lexeme) (lexeme : Lexeme) : List Token :=
  match lexeme with
  | operator .sub =>
    if operandDue previous then [⟨.number, "-1", 0, false⟩, ⟨.operator, "*", 3, true⟩]
    else [lexeme.token]
  | _ => [lexeme.token]

/-- Each lexeme is read after the one before it. -/
def readAll (lexemes : List Lexeme) : List Token :=
  ((none :: lexemes.map some).zip lexemes).flatMap fun (previous, lexeme) =>
    lexeme.readAfter previous

theorem isFunction_iff {name : String} :
    Name.isFunction name = true ↔ name ∈ functionNames := by
  have hname : (Elementary.ofName? name).isSome = true ↔
      ∃ f ∈ Elementary.all, f.name = name := by
    simp [Elementary.ofName?]
  rw [Name.isFunction, Bool.or_eq_true, hname, decide_eq_true_eq]
  simp [Elementary.all, Elementary.name, functionNames, Name.derivative, eq_comm]

theorem leavesDue_eq (lexeme : Lexeme) : lexeme.leavesDue = operandDue (some lexeme) := by
  cases lexeme with
  | word w =>
      by_cases hfunction : w.name ∈ functionNames
      · simp [leavesDue, operandDue, kind, hfunction, isFunction_iff.mpr hfunction]
      · have hplain : Name.isFunction w.name = false := by
          rwa [← Bool.not_eq_true, isFunction_iff]
        simp [leavesDue, operandDue, kind, hfunction, hplain]
  | _ => rfl

theorem tokens_eq (previous : Option Lexeme) (lexeme : Lexeme) :
    lexeme.tokens (operandDue previous) = lexeme.readAfter previous := by
  cases lexeme with
  | word w =>
      by_cases hfunction : w.name ∈ functionNames
      · have hof : Token.ofWord w.text = .plain .function w.text :=
          if_pos (isFunction_iff.mpr hfunction)
        simp [tokens, readAfter, token, kind, strength, hof, hfunction, Token.plain, text]
      · have hof : Token.ofWord w.text = .plain .identifier w.text :=
          if_neg (mt isFunction_iff.mp hfunction)
        simp [tokens, readAfter, token, kind, strength, hof, hfunction, Token.plain, text]
  | operator op =>
      cases op with
      | sub =>
          cases hdue : operandDue previous <;> simp only [tokens, readAfter, hdue] <;> rfl
      | _ => rfl
  | _ => rfl

theorem tokensOf_eq (previous : Option Lexeme) (lexemes : List Lexeme) :
    tokensOf (operandDue previous) lexemes =
      ((previous :: lexemes.map some).zip lexemes).flatMap fun (previous, lexeme) =>
        lexeme.readAfter previous := by
  induction lexemes generalizing previous with
  | nil => rfl
  | cons lexeme rest ih =>
      rw [tokensOf_cons, tokens_eq, leavesDue_eq, ih, List.map_cons, List.zip_cons_cons,
        List.flatMap_cons]

theorem exists_text_cons (lexeme : Lexeme) : ∃ c rest, lexeme.text = c :: rest := by
  cases lexeme with
  | number n =>
      rcases startsNumber_text n with ⟨c, rest, htext, -⟩
      exact ⟨c, rest, htext⟩
  | word w => exact ⟨w.first, w.rest, rfl⟩
  | operator op => exact ⟨op.char, [], rfl⟩
  | leftParen => exact ⟨'(', [], rfl⟩
  | rightParen => exact ⟨')', [], rfl⟩
  | comma => exact ⟨',', [], rfl⟩

theorem prolongs_of_isBlank {c : Char} (hc : Text.isBlank c = true) : prolongs c = false := by
  rw [prolongs, Bool.or_eq_false_iff, decide_eq_false_iff_not]
  constructor
  · rw [← Bool.not_eq_true]
    intro hpart
    rw [isBlank_of_isPart hpart] at hc
    cases hc
  · rintro rfl
    revert hc
    decide

end Lexeme

namespace Spaced

/-- Nothing that a number or a word could take in follows it at once. -/
theorem Apart.not_prolongs {first : Spaced} {rest : List Spaced} {final : List Char}
    (hapart : Apart (first :: rest)) (hfinal : Text.Blank final)
    (hgrow : first.lexeme.canGrow = true) :
    ∀ c ∈ (rest.flatMap text ++ final).head?, Lexeme.prolongs c = false := by
  intro c hc
  cases rest with
  | nil => exact Lexeme.prolongs_of_isBlank (hfinal c (List.mem_of_mem_head? hc))
  | cons second later =>
      have hpair := (List.isChain_cons_cons.mp hapart).1 hgrow
      rcases second.lexeme.exists_text_cons with ⟨start, tail, htext⟩
      cases hgap : second.gap with
      | nil =>
          have hstart : c = start := by
            simpa [text, hgap, htext, eq_comm] using hc
          rw [← Bool.not_eq_true, hstart]
          intro hprolongs
          exact hpair (by simpa [htext] using hprolongs) hgap
      | cons blank more =>
          have hblank : c = blank := by
            simpa [text, hgap, eq_comm] using hc
          apply Lexeme.prolongs_of_isBlank
          exact hblank ▸ second.isBlank_gap blank (by simp [hgap])

theorem Apart.spells {spaced : List Spaced} {final : List Char} (hapart : Apart spaced)
    (hfinal : Text.Blank final) :
    Spells (spaced.map (·.lexeme)) (spaced.flatMap text ++ final) := by
  induction spaced with
  | nil => exact .done hfinal
  | cons first rest ih =>
      have hrest := ih (List.IsChain.tail hapart)
      rw [List.map_cons, List.flatMap_cons, List.append_assoc, text, List.append_assoc]
      exact .next first.isBlank_gap hrest (hapart.not_prolongs hfinal)

theorem tokenize_of_apart {spaced : List Spaced} {final : List Char} (hapart : Apart spaced)
    (hfinal : Text.Blank final) :
    tokenize (written spaced final) = .ok (Lexeme.readAll (spaced.map (·.lexeme))) := by
  have hspells : Spells (spaced.map (·.lexeme)) (written spaced final).toList := by
    rw [written, String.toList_ofList]
    exact hapart.spells hfinal
  rw [tokenize_of_spells hspells]
  exact congrArg Except.ok (Lexeme.tokensOf_eq none _)

/-- Lexemes are read as they are written, each by itself and by the one before it, and
blanks that are not needed make no difference. -/
theorem tokenize_written {spaced : List Spaced} {final : List Char} (hapart : Apart spaced)
    (hfinal : Text.Blank final) :
    tokenize (written spaced final) = .ok (Lexeme.readAll (spaced.map (·.lexeme))) ∧
      ∀ (other : List Spaced) (otherFinal : List Char), Apart other → Text.Blank otherFinal →
        other.map (·.lexeme) = spaced.map (·.lexeme) →
        tokenize (written other otherFinal) = tokenize (written spaced final) := by
  have hread := tokenize_of_apart hapart hfinal
  refine ⟨hread, fun other otherFinal hother hotherFinal hsame => ?_⟩
  rw [hread, tokenize_of_apart hother hotherFinal, hsame]

def twoAndHalf : Lexeme :=
  .number ⟨['2'], ['5'], List.all_eq_true.mp (by decide), List.all_eq_true.mp (by decide),
    by decide⟩

def letterX : Lexeme :=
  .word (.single 'x' (by decide))

/-- Six lexemes with the one blank that they need. -/
def glued : List Spaced :=
  [⟨[], .operator .sub, by decide⟩, ⟨[], .word (.ofElementary .sin), by decide⟩,
    ⟨[], .operator .sub, by decide⟩, ⟨[], twoAndHalf, by decide⟩,
    ⟨[' '], letterX, by decide⟩, ⟨[], .rightParen, by decide⟩]

/-- The same lexemes with more blanks. -/
def loose : List Spaced :=
  [⟨[' '], .operator .sub, by decide⟩, ⟨['\t'], .word (.ofElementary .sin), by decide⟩,
    ⟨[], .operator .sub, by decide⟩, ⟨['\n', ' '], twoAndHalf, by decide⟩,
    ⟨[' '], letterX, by decide⟩, ⟨[' '], .rightParen, by decide⟩]

theorem tokenize_written_glued :
    (Apart glued ∧ Text.Blank [] ∧ Apart loose ∧ Text.Blank [' '] ∧
      loose.map (·.lexeme) = glued.map (·.lexeme)) ∧
    written glued [] = "-sin-2.5 x)" ∧ written loose [' '] = " -\tsin-\n 2.5 x ) " ∧
    tokenize "-sin-2.5 x)" = .ok (Token.negation ++ [⟨.function, "sin", 0, false⟩] ++
      Token.negation ++ [⟨.number, "2.5", 0, false⟩, ⟨.identifier, "x", 0, false⟩,
        ⟨.rightParen, ")", 0, false⟩]) ∧
    tokenize " -\tsin-\n 2.5 x ) " = tokenize "-sin-2.5 x)" := by
  have happart : Apart glued ∧ Text.Blank [] ∧ Apart loose ∧ Text.Blank [' '] ∧
      loose.map (·.lexeme) = glued.map (·.lexeme) :=
    ⟨by decide, by decide, by decide, by decide, rfl⟩
  have hglued : written glued [] = "-sin-2.5 x)" := by decide
  have hloose : written loose [' '] = " -\tsin-\n 2.5 x ) " := by decide
  have hread := tokenize_written happart.1 happart.2.1
  have hsame := hread.2 loose [' '] happart.2.2.1 happart.2.2.2.1 happart.2.2.2.2
  rw [hglued] at hread hsame
  rw [hloose] at hsame
  exact ⟨happart, hglued, hloose, hread.1.trans (by decide), hsame⟩

end Spaced

end ImplicitDynamics
