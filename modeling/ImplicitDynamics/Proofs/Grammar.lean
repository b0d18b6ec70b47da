import ImplicitDynamics.Expression.Machine
import ImplicitDynamics.Proofs.Lexemes

/-!
# The grammar of expressions

An expression is a tree.  The grammar says which lists of lexemes are written
forms of a tree: `^` binds tightest, then signs, then `*` and `/`, then `+` and
`-`, and all operations on two operands associate to the left.

A sign stands for a multiplication by `-1` and takes in every `^` that directly
follows its operand.  It may also stand right of an operator, where it ends the
chain of `^` that it occurs in: `a^-b^c` is `a^(-(b^c))`, and no further `^` can
be applied to the whole.  So a chain that ends in a sign is a signed expression
and no power.
-/

namespace ImplicitDynamics

def WrittenNumber.numeral (number : WrittenNumber) : Numeral :=
  .decimal false (Numeral.ofDigits (number.whole ++ number.fraction))
    (-(number.fraction.length : Int))

inductive Expr where
  | literal (number : WrittenNumber)
  | name (name : String)
  | derivative (name : String)
  | call (f : Elementary) (argument : Expr)
  | negative (operand : Expr)
  | binary (op : Binop) (left right : Expr)

/-- How tightly the outermost operation of a written form may bind. -/
inductive Level where
  | primary
  | power
  | signed
  | product
  | sum
  deriving DecidableEq

/-- A form that may stand where a looser one is expected. -/
def Level.looser : Level → Level
  | primary => power
  | power => signed
  | signed => product
  | product => sum
  | sum => sum

namespace Binop

/-- The level of an operation and of its left operand. -/
def level : Binop → Level
  | add => .sum
  | sub => .sum
  | mul => .product
  | div => .product
  | pow => .power

/-- The level of the right operand of an operation. -/
def rightLevel : Binop → Level
  | add => .product
  | sub => .product
  | mul => .signed
  | div => .signed
  | pow => .primary

end Binop

def Word.ofDerivative : Word := ⟨'d', ['e', 'r'], by decide, by simp [Name.isPart]⟩

def Word.ofElementary : Elementary → Word
  | .sin => ⟨'s', ['i', 'n'], by decide, by simp [Name.isPart]⟩
  | .cos => ⟨'c', ['o', 's'], by decide, by simp [Name.isPart]⟩
  | .exp => ⟨'e', ['x', 'p'], by decide, by simp [Name.isPart]⟩
  | .sqrt => ⟨'s', ['q', 'r', 't'], by decide, by simp [Name.isPart]⟩
  | .tan => ⟨'t', ['a', 'n'], by decide, by simp [Name.isPart]⟩

inductive Derives : Level → Expr → List Lexeme → Prop where
  | literal (number : WrittenNumber) : Derives .primary (.literal number) [.number number]
  | name (word : Word) (hword : Name.isFunction word.name = false) :
      Derives .primary (.name word.name) [.word word]
  | derivative (word : Word) (hword : Name.isFunction word.name = false) :
      Derives .primary (.derivative word.name)
        [.word .ofDerivative, .leftParen, .word word, .rightParen]
  | call (f : Elementary) {argument : Expr} {lexemes : List Lexeme}
      (hargument : Derives .sum argument lexemes) :
      Derives .primary (.call f argument)
        (.word (.ofElementary f) :: .leftParen :: (lexemes ++ [.rightParen]))
  | parenthesized {expr : Expr} {lexemes : List Lexeme} (hexpr : Derives .sum expr lexemes) :
      Derives .primary expr (.leftParen :: (lexemes ++ [.rightParen]))
  | binary (op : Binop) {left right : Expr} {before after : List Lexeme}
      (hleft : Derives op.level left before) (hright : Derives op.rightLevel right after) :
      Derives op.level (.binary op left right) (before ++ .operator op :: after)
  | negative {operand : Expr} {lexemes : List Lexeme}
      (hoperand : Derives .signed operand lexemes) :
      Derives .signed (.negative operand) (.operator .sub :: lexemes)
  | powNegative {base operand : Expr} {before after : List Lexeme}
      (hbase : Derives .power base before) (hoperand : Derives .signed operand after) :
      Derives .signed (.binary .pow base (.negative operand))
        (before ++ .operator .pow :: .operator .sub :: after)
  | loosen {level : Level} {expr : Expr} {lexemes : List Lexeme}
      (hexpr : Derives level expr lexemes) : Derives level.looser expr lexemes

def Expr.IsWritten (expr : Expr) (text : String) : Prop :=
  ∃ lexemes, Derives .sum expr lexemes ∧ Spells lexemes text.toList

def SymbolTable.lookup {α : Type} (table : SymbolTable) (values : List α) (name : String) :
    Option α :=
  (table.names.zip values).lookup name

namespace Expr

/-- Every name is the time, a variable or a parameter, and derivatives are
taken of variables only. -/
def WellScoped (scope : Program.Scope) : Expr → Prop
  | literal _ => True
  | name n => n = Name.time ∨ n ∈ scope.vars.names ∨ n ∈ scope.parameters.names
  | derivative n => n ∈ scope.vars.names
  | call _ argument => argument.WellScoped scope
  | negative operand => operand.WellScoped scope
  | binary _ left right => left.WellScoped scope ∧ right.WellScoped scope

section Value

variable {α : Type} [Scalar α]

/-- The number that a sign multiplies with. -/
def minusOne : α := Scalar.ofNumeral (.decimal true 1 0)

/-- The value of a name: the time, else that of a variable, else that of a
parameter. -/
def nameValue (scope : Program.Scope) (bindings : Bindings α) (n : String) :
    Except (EvalError α) α :=
  if n = Name.time then .ok bindings.time
  else
    match scope.vars.lookup bindings.state n with
    | some value => .ok value
    | none =>
      match scope.parameters.lookup bindings.parameters n with
      | some value => .ok value
      | none => .error (.malformed (.unknownSymbol n))

/-- The value of an expression, or the first error: operands from left to right,
then the operation. -/
def value (scope : Program.Scope) (bindings : Bindings α) : Expr → Except (EvalError α) α
  | literal number => .ok (Scalar.ofNumeral number.numeral)
  | name n => nameValue scope bindings n
  | derivative n =>
    match scope.vars.lookup bindings.derivatives n with
    | some slope => .ok slope
    | none => .error (.malformed (.unknownSymbol ("der(" ++ n ++ ")")))
  | call f argument => do
    let a ← argument.value scope bindings
    Machine.applyCall f a
  | negative operand => do
    let a ← operand.value scope bindings
    Machine.applyBinary .mul minusOne a
  | binary op left right => do
    let a ← left.value scope bindings
    let b ← right.value scope bindings
    Machine.applyBinary op a b

end Value

end Expr

theorem Derives.dueAfter_eq_false {level : Level} {expr : Expr} {lexemes : List Lexeme}
    (hderives : Derives level expr lexemes) (operandDue : Bool) :
    Lexeme.dueAfter operandDue lexemes = false := by
  induction hderives generalizing operandDue with
  | literal number => rfl
  | name word hword => exact hword
  | derivative word hword => rfl
  | call f hargument ih => simp [Lexeme.dueAfter, Lexeme.dueAfter_append, Lexeme.leavesDue]
  | parenthesized hexpr ih => simp [Lexeme.dueAfter, Lexeme.dueAfter_append, Lexeme.leavesDue]
  | binary op hleft hright ihLeft ihRight =>
      rw [Lexeme.dueAfter_append]
      exact ihRight true
  | negative hoperand ih => exact ih true
  | powNegative hbase hoperand ihBase ihOperand =>
      rw [Lexeme.dueAfter_append]
      exact ihOperand true
  | loosen hexpr ih => exact ih operandDue

/-! ## Numbers are read as written -/

theorem toLower_of_lt_letters {c : Char} (hc : c.toNat < 65) : c.toLower = c := by
  unfold Char.toLower
  rw [dif_neg]
  rintro ⟨hlow, -⟩
  have hlow : 65 ≤ c.toNat := UInt32.le_iff_toNat_le.mp hlow
  omega

theorem WrittenNumber.exists_text_cons (number : WrittenNumber) :
    ∃ c rest, number.text = c :: rest ∧ (c.isDigit = true ∨ c = '.') := by
  obtain ⟨c, rest, htext, hstart, -⟩ := startsNumber_text number
  refine ⟨c, rest, htext, ?_⟩
  have hc := hstart []
  simp only [Token.startsNumber, Bool.or_eq_true, Bool.and_eq_true, decide_eq_true_eq] at hc
  exact hc.imp_right And.left

theorem ofList_map_toLower_ne (text word : List Char) {c d : Char}
    (hc : c.toNat < 65) (hd : 65 ≤ d.toNat) :
    String.ofList ((c :: text).map Char.toLower) ≠ String.ofList (d :: word) := by
  intro heq
  have hhead := (List.cons.inj (String.ofList_injective heq)).1
  rw [toLower_of_lt_letters hc] at hhead
  subst d
  omega

theorem WrittenNumber.magnitude?_text (number : WrittenNumber) (negative : Bool) :
    Numeral.magnitude? negative number.text =
      some (.decimal negative (Numeral.ofDigits (number.whole ++ number.fraction))
        (-(number.fraction.length : Int))) := by
  have hend : ∀ c ∈ ([] : List Char).head?, c.isDigit = false := by simp
  have htakeFraction := takeWhile_append_of_apart number.fraction_isDigit hend
  have hdropFraction := dropWhile_append_of_apart number.fraction_isDigit hend
  rw [List.append_nil] at htakeFraction hdropFraction
  by_cases hfraction : number.fraction = []
  · have hwhole : number.whole ≠ [] := number.whole_or_fraction.resolve_right (by simpa)
    have htake := takeWhile_append_of_apart number.whole_isDigit hend
    have hdrop := dropWhile_append_of_apart number.whole_isDigit hend
    rw [List.append_nil] at htake hdrop
    simp [Numeral.magnitude?, WrittenNumber.text, hfraction, htake, hdrop, hwhole,
      Numeral.exponent?]
  · have hpoint : ∀ c ∈ ('.' :: number.fraction).head?, c.isDigit = false := by simp
    have htake := takeWhile_append_of_apart number.whole_isDigit hpoint
    have hdrop := dropWhile_append_of_apart number.whole_isDigit hpoint
    simp [Numeral.magnitude?, WrittenNumber.text, hfraction, htake, hdrop, htakeFraction,
      hdropFraction, Numeral.exponent?]

theorem WrittenNumber.read?_text (number : WrittenNumber) :
    Numeral.read? number.text = some number.numeral := by
  obtain ⟨c, rest, htext, hc⟩ := number.exists_text_cons
  have hlow : c.toNat < 65 := by
    rcases hc with hdigit | rfl
    · have hbounds := isDigit_bounds hdigit
      omega
    · decide
  have hplus : c ≠ '+' := by
    rintro rfl
    revert hc
    decide
  have hminus : c ≠ '-' := by
    rintro rfl
    revert hc
    decide
  have hinf : String.ofList ((c :: rest).map Char.toLower) ≠ "inf" :=
    ofList_map_toLower_ne rest ['n', 'f'] hlow (by decide)
  have hinfinity : String.ofList ((c :: rest).map Char.toLower) ≠ "infinity" :=
    ofList_map_toLower_ne rest ['n', 'f', 'i', 'n', 'i', 't', 'y'] hlow (by decide)
  have hnan : String.ofList ((c :: rest).map Char.toLower) ≠ "nan" :=
    ofList_map_toLower_ne rest ['a', 'n'] hlow (by decide)
  have hmagnitude := number.magnitude?_text false
  rw [htext] at hmagnitude ⊢
  rw [Numeral.read?, Numeral.unsigned?]
  · simp only [hinf, hinfinity, hnan, decide_false, Bool.or_self, Bool.false_eq_true, if_false]
    exact hmagnitude
  · simpa using hplus
  · simpa using hminus

theorem constant_text {α : Type} [Scalar α] (number : WrittenNumber) :
    Program.constant (α := α) (String.ofList number.text) =
      .ok (.const (Scalar.ofNumeral number.numeral)) := by
  simp [Program.constant, Scalar.read?, number.read?_text]

theorem constant_minusOne {α : Type} [Scalar α] :
    Program.constant (α := α) "-1" = .ok (.const Expr.minusOne) := by
  have hread : Numeral.read? "-1".toList = some (.decimal true 1 0) := by decide
  rw [Program.constant, Scalar.read?, hread]
  rfl

end ImplicitDynamics
