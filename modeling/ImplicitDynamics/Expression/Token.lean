import ImplicitDynamics.Expression.Fault
import ImplicitDynamics.Expression.Name
import ImplicitDynamics.Text

/-!
# Tokens

An expression is read from left to right into tokens.  The only thing that the
reader remembers is whether an operand is due: there a minus is a sign, which
stands for a multiplication by `-1`.
-/

namespace ImplicitDynamics

inductive Binop where
  | add
  | sub
  | mul
  | div
  | pow
  deriving Repr, DecidableEq

namespace Binop

def char : Binop → Char
  | add => '+'
  | sub => '-'
  | mul => '*'
  | div => '/'
  | pow => '^'

def symbol (op : Binop) : String :=
  String.singleton op.char

def all : List Binop := [add, sub, mul, div, pow]

def ofChar? (c : Char) : Option Binop :=
  all.find? fun op => op.char = c

def ofSymbol? (text : String) : Option Binop :=
  all.find? fun op => op.symbol = text

/-- How tightly an operation binds. -/
def precedence : Binop → Nat
  | add => 2
  | sub => 2
  | mul => 3
  | div => 3
  | pow => 4

end Binop

/-- How tightly the operation written with a character binds; zero for what is
no operation. -/
def precedenceOf (c : Char) : Nat :=
  match Binop.ofChar? c with
  | some op => op.precedence
  | none => 0

inductive TokenKind where
  | number
  | identifier
  | operator
  | function
  | leftParen
  | rightParen
  | comma
  deriving Repr, DecidableEq

/-- A token with its text.  `precedence` is the strength of an operator, and
`unary` marks the multiplication that a sign stands for: it binds to the
operand that follows and leaves the operators before it alone. -/
structure Token where
  kind : TokenKind
  text : String
  precedence : Nat
  unary : Bool
  deriving Repr, DecidableEq

namespace Token

def plain (kind : TokenKind) (text : List Char) : Token :=
  ⟨kind, String.ofList text, 0, false⟩

def operator (op : Binop) : Token :=
  ⟨.operator, op.symbol, op.precedence, false⟩

/-- What a minus means where an operand is due. -/
def negation : List Token :=
  [⟨.number, "-1", 0, false⟩, { operator .mul with unary := true }]

/-- A name, or a function if it is the word for one. -/
def ofWord (word : List Char) : Token :=
  if Name.isFunction (String.ofList word) then plain .function word
  else plain .identifier word

/-- The longest number at the start of a text and what follows it.  A point
belongs to a number only if a digit follows it. -/
def spanNumber (text : List Char) : List Char × List Char :=
  let whole := text.takeWhile Char.isDigit
  match text.dropWhile Char.isDigit with
  | '.' :: d :: rest =>
    if d.isDigit then
      (whole ++ '.' :: (d :: rest).takeWhile Char.isDigit, (d :: rest).dropWhile Char.isDigit)
    else (whole, '.' :: d :: rest)
  | rest => (whole, rest)

/-- The longest word at the start of a text and what follows it. -/
def spanWord (text : List Char) : List Char × List Char :=
  (text.takeWhile Name.isPart, text.dropWhile Name.isPart)

/-- A number starts here: a digit, or a point before a digit. -/
def startsNumber (c : Char) (rest : List Char) : Bool :=
  c.isDigit || (c = '.' && (rest.head?.map Char.isDigit).getD false)

/-- The tokens for a single character and whether an operand is due after
them. -/
def ofChar? (operandDue : Bool) (c : Char) : Option (List Token × Bool) :=
  if c = '-' && operandDue then some (negation, true)
  else
    match Binop.ofChar? c with
    | some op => some ([operator op], true)
    | none =>
      if c = '(' then some ([plain .leftParen [c]], true)
      else if c = ')' then some ([plain .rightParen [c]], false)
      else if c = ',' then some ([plain .comma [c]], true)
      else none

theorem length_dropWhile_le (p : Char → Bool) (text : List Char) :
    (text.dropWhile p).length ≤ text.length :=
  (List.dropWhile_sublist p).length_le

theorem length_spanNumber_lt {c : Char} {rest : List Char}
    (hstart : startsNumber c rest = true) :
    (spanNumber (c :: rest)).2.length < rest.length + 1 := by
  have hle := length_dropWhile_le Char.isDigit
  by_cases hc : c.isDigit = true
  · have hdrop : (c :: rest).dropWhile Char.isDigit = rest.dropWhile Char.isDigit := by
      simp [hc]
    unfold spanNumber
    rw [hdrop]
    have hrest := hle rest
    split
    · next d tail heq =>
      rw [heq] at hrest
      have htail := hle (d :: tail)
      simp only [List.length_cons] at hrest htail
      split <;> simp only [List.length_cons] <;> omega
    · simp only
      omega
  · obtain ⟨rfl, d, tail, rfl, hd⟩ :
        c = '.' ∧ ∃ d tail, rest = d :: tail ∧ d.isDigit = true := by
      cases rest with
      | nil => simp [startsNumber, hc] at hstart
      | cons d tail => simpa [startsNumber, hc] using hstart
    have hdrop : ('.' :: d :: tail).dropWhile Char.isDigit = '.' :: d :: tail := by
      simp
    have htail := hle (d :: tail)
    simp only [List.length_cons] at htail
    simp only [spanNumber, hdrop, hd, if_true, List.length_cons]
    omega

theorem length_spanWord_lt {c : Char} {rest : List Char}
    (hstart : Name.isStart c = true) :
    (spanWord (c :: rest)).2.length < rest.length + 1 := by
  have hpart : Name.isPart c = true := by
    simp only [Name.isStart, Name.isPart, Char.isAlphanum, Bool.or_eq_true] at hstart ⊢
    rcases hstart with hstart | hstart
    · exact .inl (.inl hstart)
    · exact .inr hstart
  have hrest := length_dropWhile_le Name.isPart rest
  simp only [spanWord, List.dropWhile_cons, hpart, if_true]
  omega

/-- Reads the tokens of a text that begins at `position`.  A failure is the
first character that fits nowhere and its position. -/
def scan (operandDue : Bool) (position : Nat) :
    List Char → Except (Char × Nat) (List Token)
  | [] => .ok []
  | c :: rest =>
    if Text.isBlank c then scan operandDue (position + 1) rest
    else if hnumber : startsNumber c rest = true then
      let span := spanNumber (c :: rest)
      have := length_spanNumber_lt hnumber
      (scan false (position + span.1.length) span.2).map (plain .number span.1 :: ·)
    else if hword : Name.isStart c = true then
      let span := spanWord (c :: rest)
      have := @length_spanWord_lt c rest hword
      let token := ofWord span.1
      (scan (token.kind = .function) (position + span.1.length) span.2).map (token :: ·)
    else
      match ofChar? operandDue c with
      | some (tokens, due) => (scan due (position + 1) rest).map (tokens ++ ·)
      | none => .error (c, position)
  termination_by text => text.length

end Token

def tokenize (expression : String) : Except ParseError (List Token) :=
  match Token.scan true 0 expression.toList with
  | .ok tokens => .ok tokens
  | .error (found, position) => .error (.unexpectedCharacter found position expression)

end ImplicitDynamics
