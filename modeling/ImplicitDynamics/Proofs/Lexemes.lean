import ImplicitDynamics.Expression.Token
import Mathlib.Tactic.ByContra

/-!
# Lexemes and the tokens that they are read as

A lexeme is a number, a word, an operator, a parenthesis or a comma, as it is
written.  A text spells a list of lexemes if it consists of them and of blanks
between them, and if no number or word is followed at once by a character that
would prolong it.

The scanner takes the longest match, so it reads such a text lexeme by lexeme.
What a minus is read as depends on whether an operand is due, and nothing else
is carried from one lexeme to the next.
-/

namespace ImplicitDynamics

/-- A number without a sign, as it is written: digits, or digits around a point
that is followed by at least one digit. -/
structure WrittenNumber where
  whole : List Char
  fraction : List Char
  whole_isDigit : ∀ c ∈ whole, c.isDigit = true
  fraction_isDigit : ∀ c ∈ fraction, c.isDigit = true
  whole_or_fraction : whole ≠ [] ∨ fraction ≠ []

def WrittenNumber.text (number : WrittenNumber) : List Char :=
  if number.fraction = [] then number.whole else number.whole ++ '.' :: number.fraction

def WrittenNumber.single (c : Char) (hc : c.isDigit = true) : WrittenNumber :=
  ⟨[c], [], by simpa using hc, by simp, by simp⟩

/-- A letter or underscore and the letters, digits and underscores after it. -/
structure Word where
  first : Char
  rest : List Char
  isStart_first : Name.isStart first = true
  isPart_rest : ∀ c ∈ rest, Name.isPart c = true

def Word.text (word : Word) : List Char :=
  word.first :: word.rest

def Word.single (c : Char) (hc : Name.isStart c = true) : Word :=
  ⟨c, [], hc, by simp⟩

def Word.name (word : Word) : String :=
  String.ofList word.text

inductive Lexeme where
  | number (number : WrittenNumber)
  | word (word : Word)
  | operator (op : Binop)
  | leftParen
  | rightParen
  | comma

namespace Lexeme

def text : Lexeme → List Char
  | number n => n.text
  | word w => w.text
  | operator op => [op.char]
  | leftParen => ['(']
  | rightParen => [')']
  | comma => [',']

def tokens (operandDue : Bool) : Lexeme → List Token
  | number n => [.plain .number n.text]
  | word w => [.ofWord w.text]
  | operator op =>
    if op = .sub ∧ operandDue = true then Token.negation else [.operator op]
  | leftParen => [.plain .leftParen ['(']]
  | rightParen => [.plain .rightParen [')']]
  | comma => [.plain .comma [',']]

/-- Whether an operand is due after a lexeme. -/
def leavesDue : Lexeme → Bool
  | number _ => false
  | word w => Name.isFunction w.name
  | operator _ => true
  | leftParen => true
  | rightParen => false
  | comma => true

/-- Numbers and words go on for as long as they can. -/
def canGrow : Lexeme → Bool
  | number _ => true
  | word _ => true
  | _ => false

/-- Characters that a number or a word must not be followed by at once. -/
def prolongs (c : Char) : Bool :=
  Name.isPart c || c = '.'

def tokensOf (operandDue : Bool) : List Lexeme → List Token
  | [] => []
  | lexeme :: rest => lexeme.tokens operandDue ++ tokensOf lexeme.leavesDue rest

def dueAfter (operandDue : Bool) : List Lexeme → Bool
  | [] => operandDue
  | lexeme :: rest => dueAfter lexeme.leavesDue rest

@[simp] theorem tokensOf_nil (operandDue : Bool) : tokensOf operandDue [] = [] := rfl

@[simp] theorem tokensOf_cons (operandDue : Bool) (lexeme : Lexeme) (rest : List Lexeme) :
    tokensOf operandDue (lexeme :: rest) =
      lexeme.tokens operandDue ++ tokensOf lexeme.leavesDue rest := rfl

theorem tokensOf_append (operandDue : Bool) (first second : List Lexeme) :
    tokensOf operandDue (first ++ second) =
      tokensOf operandDue first ++ tokensOf (dueAfter operandDue first) second := by
  induction first generalizing operandDue with
  | nil => rfl
  | cons lexeme rest ih => simp [ih, dueAfter]

theorem dueAfter_append (operandDue : Bool) (first second : List Lexeme) :
    dueAfter operandDue (first ++ second) = dueAfter (dueAfter operandDue first) second := by
  induction first generalizing operandDue with
  | nil => rfl
  | cons lexeme rest ih => simp [ih, dueAfter]

end Lexeme

/-- A text that consists of lexemes in this order, with blanks around them. -/
inductive Spells : List Lexeme → List Char → Prop where
  | done {gap : List Char} (hgap : ∀ c ∈ gap, Text.isBlank c = true) : Spells [] gap
  | next {gap text : List Char} {lexeme : Lexeme} {rest : List Lexeme}
      (hgap : ∀ c ∈ gap, Text.isBlank c = true) (hrest : Spells rest text)
      (hapart : lexeme.canGrow = true → ∀ c ∈ text.head?, Lexeme.prolongs c = false) :
      Spells (lexeme :: rest) (gap ++ (lexeme.text ++ text))

theorem Spells.tight {lexeme : Lexeme} {rest : List Lexeme} {text : List Char}
    (hrest : Spells rest text)
    (hapart : (lexeme.canGrow && text.head?.any Lexeme.prolongs) = false) :
    Spells (lexeme :: rest) (lexeme.text ++ text) := by
  refine .next (List.forall_mem_nil _) hrest ?_
  intro hgrow c hc
  rw [hgrow, Bool.true_and, Option.mem_def.mp hc] at hapart
  exact hapart

theorem Spells.blank {lexemes : List Lexeme} {text : List Char} (hspells : Spells lexemes text)
    {c : Char} (hc : Text.isBlank c = true) : Spells lexemes (c :: text) := by
  cases hspells with
  | done hgap => exact .done (by simpa [hc] using hgap)
  | next hgap hrest hapart =>
      rw [← List.cons_append]
      exact .next (by simpa [hc] using hgap) hrest hapart

theorem isDigit_bounds {c : Char} (hc : c.isDigit = true) :
    48 ≤ c.toNat ∧ c.toNat ≤ 57 :=
  Char.isDigit_iff_toNat.mp hc

theorem isStart_bounds {c : Char} (hc : Name.isStart c = true) :
    65 ≤ c.toNat ∧ c.toNat ≤ 90 ∨ 97 ≤ c.toNat ∧ c.toNat ≤ 122 ∨ c = '_' := by
  rcases (Bool.or_eq_true _ _).mp hc with hletter | hunderscore
  · rcases (Bool.or_eq_true _ _).mp hletter with hupper | hlower
    · exact .inl (of_decide_eq_true hupper)
    · obtain ⟨hfrom, hto⟩ := (Bool.and_eq_true _ _).mp hlower
      exact .inr (.inl ⟨of_decide_eq_true hfrom, of_decide_eq_true hto⟩)
  · exact .inr (.inr (of_decide_eq_true hunderscore))

theorem isBlank_of_isDigit {c : Char} (hc : c.isDigit = true) : Text.isBlank c = false := by
  have hbounds := isDigit_bounds hc
  simp [Text.isBlank, Text.blankRanges]
  omega

theorem isBlank_of_isStart {c : Char} (hc : Name.isStart c = true) :
    Text.isBlank c = false := by
  rcases isStart_bounds hc with hupper | hlower | rfl
  · simp [Text.isBlank, Text.blankRanges]
    omega
  · simp [Text.isBlank, Text.blankRanges]
    omega
  · decide

theorem isDigit_of_isStart {c : Char} (hc : Name.isStart c = true) : c.isDigit = false := by
  by_contra hdigit
  have hbounds := isDigit_bounds (by simpa using hdigit)
  rcases isStart_bounds hc with hupper | hlower | rfl
  · omega
  · omega
  · revert hbounds
    decide

theorem ne_point_of_isStart {c : Char} (hc : Name.isStart c = true) : c ≠ '.' := by
  rintro rfl
  revert hc
  decide

theorem isPart_of_isStart {c : Char} (hc : Name.isStart c = true) : Name.isPart c = true := by
  simp only [Name.isStart, Name.isPart, Char.isAlphanum, Bool.or_eq_true] at hc ⊢
  exact hc.imp_left .inl

theorem isPart_of_isDigit {c : Char} (hc : c.isDigit = true) : Name.isPart c = true := by
  simp [Name.isPart, Char.isAlphanum, hc]

theorem not_prolongs {c : Char} (hc : Lexeme.prolongs c = false) :
    c.isDigit = false ∧ c ≠ '.' ∧ Name.isPart c = false := by
  simp only [Lexeme.prolongs, Bool.or_eq_false_iff, decide_eq_false_iff_not] at hc
  refine ⟨?_, hc.2, hc.1⟩
  by_contra hdigit
  have hpart := isPart_of_isDigit (by simpa using hdigit)
  simp [hc.1] at hpart

theorem WrittenNumber.isDigit_or_point {number : WrittenNumber} {c : Char}
    (hc : c ∈ number.text) : c.isDigit = true ∨ c = '.' := by
  unfold text at hc
  split at hc
  · exact .inl (number.whole_isDigit c hc)
  · rcases List.mem_append.mp hc with hwhole | hrest
    · exact .inl (number.whole_isDigit c hwhole)
    · rcases List.mem_cons.mp hrest with rfl | hfraction
      · exact .inr rfl
      · exact .inl (number.fraction_isDigit c hfraction)

theorem Word.isPart_of_mem {word : Word} {c : Char} (hc : c ∈ word.text) :
    Name.isPart c = true := by
  rcases List.mem_cons.mp hc with rfl | hrest
  · exact isPart_of_isStart word.isStart_first
  · exact word.isPart_rest c hrest

theorem takeWhile_append_of_apart {p : Char → Bool} {run text : List Char}
    (hrun : ∀ c ∈ run, p c = true) (hapart : ∀ c ∈ text.head?, p c = false) :
    (run ++ text).takeWhile p = run := by
  rw [List.takeWhile_append_of_pos hrun]
  cases text with
  | nil => simp
  | cons c text => simp [hapart c rfl]

theorem dropWhile_append_of_apart {p : Char → Bool} {run text : List Char}
    (hrun : ∀ c ∈ run, p c = true) (hapart : ∀ c ∈ text.head?, p c = false) :
    (run ++ text).dropWhile p = text := by
  rw [List.dropWhile_append_of_pos hrun]
  cases text with
  | nil => simp
  | cons c text => simp [hapart c rfl]

theorem spanWord_append {word : Word} {text : List Char}
    (hapart : ∀ c ∈ text.head?, Lexeme.prolongs c = false) :
    Token.spanWord (word.text ++ text) = (word.text, text) := by
  have hrun : ∀ c ∈ word.text, Name.isPart c = true := fun c hc => word.isPart_of_mem hc
  have hend : ∀ c ∈ text.head?, Name.isPart c = false :=
    fun c hc => (not_prolongs (hapart c hc)).2.2
  simp only [Token.spanWord, takeWhile_append_of_apart hrun hend,
    dropWhile_append_of_apart hrun hend]

theorem spanNumber_append {number : WrittenNumber} {text : List Char}
    (hapart : ∀ c ∈ text.head?, Lexeme.prolongs c = false) :
    Token.spanNumber (number.text ++ text) = (number.text, text) := by
  have hend : ∀ c ∈ text.head?, c.isDigit = false :=
    fun c hc => (not_prolongs (hapart c hc)).1
  by_cases hfraction : number.fraction = []
  · have htake := takeWhile_append_of_apart number.whole_isDigit hend
    have hdrop := dropWhile_append_of_apart number.whole_isDigit hend
    simp only [WrittenNumber.text, hfraction, if_true, Token.spanNumber, htake, hdrop]
    split
    next d tail =>
      exact absurd rfl (not_prolongs (hapart '.' rfl)).2.1
    next => rfl
  · obtain ⟨d, digits, hdigits⟩ := List.exists_cons_of_ne_nil hfraction
    have hd : d.isDigit = true := number.fraction_isDigit d (by simp [hdigits])
    have hpoint : ∀ c ∈ ('.' :: (number.fraction ++ text)).head?, c.isDigit = false := by
      simp
    have htake := takeWhile_append_of_apart number.whole_isDigit hpoint
    have hdrop := dropWhile_append_of_apart number.whole_isDigit hpoint
    have htakeFraction := takeWhile_append_of_apart number.fraction_isDigit hend
    have hdropFraction := dropWhile_append_of_apart number.fraction_isDigit hend
    have htext : number.text ++ text = number.whole ++ '.' :: (number.fraction ++ text) := by
      simp [WrittenNumber.text, hfraction]
    rw [hdigits, List.cons_append] at htake hdrop htakeFraction hdropFraction htext
    rw [Token.spanNumber, htext, htake, hdrop]
    simp only [hd, if_true, htakeFraction, hdropFraction]
    simp [WrittenNumber.text, hdigits]

/-! ## Scanning lexeme by lexeme -/

theorem scan_blanks {gap : List Char} (hgap : ∀ c ∈ gap, Text.isBlank c = true)
    (operandDue : Bool) (position : Nat) (text : List Char) :
    Token.scan operandDue position (gap ++ text) =
      Token.scan operandDue (position + gap.length) text := by
  induction gap generalizing position with
  | nil => simp
  | cons c gap ih =>
      rw [List.cons_append, Token.scan, if_pos (hgap c (by simp)),
        ih fun d hd => hgap d (by simp [hd])]
      simp only [List.length_cons]
      congr 1
      omega

theorem startsNumber_text (number : WrittenNumber) :
    ∃ c rest, number.text = c :: rest ∧
      (∀ text, Token.startsNumber c (rest ++ text) = true) ∧ Text.isBlank c = false := by
  cases hwhole : number.whole with
  | cons c rest =>
      have hc : c.isDigit = true := number.whole_isDigit c (by simp [hwhole])
      by_cases hfraction : number.fraction = []
      · exact ⟨c, rest, by simp [WrittenNumber.text, hwhole, hfraction],
          by simp [Token.startsNumber, hc], isBlank_of_isDigit hc⟩
      · exact ⟨c, rest ++ '.' :: number.fraction,
          by simp [WrittenNumber.text, hwhole, hfraction],
          by simp [Token.startsNumber, hc], isBlank_of_isDigit hc⟩
  | nil =>
      have hfraction : number.fraction ≠ [] :=
        number.whole_or_fraction.resolve_left (by simp [hwhole])
      obtain ⟨d, digits, hdigits⟩ := List.exists_cons_of_ne_nil hfraction
      have hd : d.isDigit = true := number.fraction_isDigit d (by simp [hdigits])
      exact ⟨'.', number.fraction, by simp [WrittenNumber.text, hwhole, hfraction],
        by simp [Token.startsNumber, hdigits, hd], by decide⟩

theorem scan_number (number : WrittenNumber) {text : List Char}
    (hapart : ∀ c ∈ text.head?, Lexeme.prolongs c = false)
    (operandDue : Bool) (position : Nat) :
    Token.scan operandDue position (number.text ++ text) =
      (Token.scan false (position + number.text.length) text).map
        (Token.plain .number number.text :: ·) := by
  obtain ⟨c, rest, htext, hstart, hblank⟩ := startsNumber_text number
  have hspan : Token.spanNumber (c :: (rest ++ text)) = (number.text, text) := by
    rw [← List.cons_append, ← htext, spanNumber_append hapart]
  rw [htext, List.cons_append, Token.scan, if_neg (by simp [hblank]), dif_pos (hstart text)]
  simp only [hspan, htext]

theorem Token.kind_ofWord (word : Word) :
    decide ((ofWord word.text).kind = .function) = Name.isFunction word.name := by
  unfold ofWord Word.name
  split
  next hfunction => simp [plain, hfunction]
  next hfunction => simp [plain, hfunction]

theorem scan_word (word : Word) {text : List Char}
    (hapart : ∀ c ∈ text.head?, Lexeme.prolongs c = false)
    (operandDue : Bool) (position : Nat) :
    Token.scan operandDue position (word.text ++ text) =
      (Token.scan (Name.isFunction word.name) (position + word.text.length) text).map
        (Token.ofWord word.text :: ·) := by
  have hspan : Token.spanWord (word.first :: (word.rest ++ text)) = (word.text, text) :=
    spanWord_append hapart
  have hnumber : Token.startsNumber word.first (word.rest ++ text) = false := by
    simp [Token.startsNumber, isDigit_of_isStart word.isStart_first,
      ne_point_of_isStart word.isStart_first]
  rw [Word.text, List.cons_append, Token.scan,
    if_neg (by simp [isBlank_of_isStart word.isStart_first]), dif_neg (by simp [hnumber]),
    dif_pos word.isStart_first]
  simp only [hspan, Token.kind_ofWord]
  rfl

theorem scan_operator (op : Binop) (operandDue : Bool) (position : Nat) (text : List Char) :
    Token.scan operandDue position (op.char :: text) =
      (Token.scan true (position + 1) text).map
        ((Lexeme.operator op).tokens operandDue ++ ·) := by
  have hblank : Text.isBlank op.char = false := by cases op <;> decide
  have hnumber : Token.startsNumber op.char text = false := by
    cases op <;> simp [Token.startsNumber, Binop.char]
  have hword : Name.isStart op.char = false := by cases op <;> decide
  have htokens : Token.ofChar? operandDue op.char =
      some ((Lexeme.operator op).tokens operandDue, true) := by
    cases op <;> cases operandDue <;> rfl
  rw [Token.scan, if_neg (by simp [hblank]), dif_neg (by simp [hnumber]),
    dif_neg (by simp [hword]), htokens]

theorem scan_mark {c : Char} (hmark : c = '(' ∨ c = ')' ∨ c = ',') (kind : TokenKind)
    (due : Bool) (hchar : ∀ operandDue,
      Token.ofChar? operandDue c = some ([.plain kind [c]], due))
    (operandDue : Bool) (position : Nat) (text : List Char) :
    Token.scan operandDue position (c :: text) =
      (Token.scan due (position + 1) text).map ([.plain kind [c]] ++ ·) := by
  have hblank : Text.isBlank c = false := by rcases hmark with rfl | rfl | rfl <;> decide
  have hnumber : Token.startsNumber c text = false := by
    rcases hmark with rfl | rfl | rfl <;> simp [Token.startsNumber]
  have hword : Name.isStart c = false := by rcases hmark with rfl | rfl | rfl <;> decide
  rw [Token.scan, if_neg (by simp [hblank]), dif_neg (by simp [hnumber]),
    dif_neg (by simp [hword]), hchar operandDue]

/-- One lexeme is read, and what follows it is read as if it stood alone, up to
what is due. -/
theorem scan_lexeme (lexeme : Lexeme) {text : List Char}
    (hapart : lexeme.canGrow = true → ∀ c ∈ text.head?, Lexeme.prolongs c = false)
    (operandDue : Bool) (position : Nat) :
    Token.scan operandDue position (lexeme.text ++ text) =
      (Token.scan lexeme.leavesDue (position + lexeme.text.length) text).map
        (lexeme.tokens operandDue ++ ·) := by
  cases lexeme with
  | number n => exact scan_number n (hapart rfl) operandDue position
  | word w => exact scan_word w (hapart rfl) operandDue position
  | operator op => exact scan_operator op operandDue position text
  | leftParen =>
      exact scan_mark (.inl rfl) .leftParen true (by decide) operandDue position text
  | rightParen =>
      exact scan_mark (.inr (.inl rfl)) .rightParen false (by decide) operandDue position text
  | comma =>
      exact scan_mark (.inr (.inr rfl)) .comma true (by decide) operandDue position text

theorem scan_of_spells {lexemes : List Lexeme} {text : List Char}
    (hspells : Spells lexemes text) (operandDue : Bool) (position : Nat) :
    Token.scan operandDue position text = .ok (Lexeme.tokensOf operandDue lexemes) := by
  induction hspells generalizing operandDue position with
  | done hgap =>
      have hscan := scan_blanks hgap operandDue position []
      rw [List.append_nil] at hscan
      rw [hscan, Token.scan, Lexeme.tokensOf_nil]
  | @next gap text lexeme rest hgap _ hapart ih =>
      rw [scan_blanks hgap, scan_lexeme lexeme hapart, ih]
      rfl

theorem tokenize_of_spells {lexemes : List Lexeme} {text : String}
    (hspells : Spells lexemes text.toList) :
    tokenize text = .ok (Lexeme.tokensOf true lexemes) := by
  rw [tokenize, scan_of_spells hspells]

end ImplicitDynamics
