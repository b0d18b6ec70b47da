import ImplicitDynamics.Decimal.Binary

/-!
# The arithmetic of the simulation

Every computation is written over a type of scalars with the operations that
it needs and no laws, so that the same definitions run on doubles and can be
studied over exact numbers.  What an operation does on values such as
infinities is part of the arithmetic.
-/

namespace ImplicitDynamics

/-- Arithmetic operations, comparisons and elementary functions.  `max` and
`min` prefer a number over a value that is not one, and `floor` is the largest
natural number that is not above a value. -/
class Scalar (α : Type) where
  ofNumeral : Numeral → α
  add : α → α → α
  sub : α → α → α
  mul : α → α → α
  div : α → α → α
  neg : α → α
  lt : α → α → Prop
  le : α → α → Prop
  decLt : DecidableRel lt
  decLe : DecidableRel le
  same : α → α → Bool
  isFinite : α → Bool
  floor : α → Nat
  abs : α → α
  sqrt : α → α
  exp : α → α
  sin : α → α
  cos : α → α
  tan : α → α
  pow : α → α → α
  max : α → α → α
  min : α → α → α

namespace Scalar

variable {α : Type} [Scalar α]

/-!
The usual signs stand for these operations.  A type that has operations of its
own under the same signs keeps them: the instances below are found last.
-/

instance (priority := 50) : Add α := ⟨add⟩

instance (priority := 50) : Sub α := ⟨sub⟩

instance (priority := 50) : Mul α := ⟨mul⟩

instance (priority := 50) : Div α := ⟨div⟩

instance (priority := 50) : Neg α := ⟨neg⟩

instance (priority := 50) : LT α := ⟨lt⟩

instance (priority := 50) : LE α := ⟨le⟩

instance (priority := 50) : DecidableLT α := decLt

instance (priority := 50) : DecidableLE α := decLe

def ofNat (n : Nat) : α :=
  ofNumeral (.decimal false n 0)

instance (priority := 50) (n : Nat) : OfNat α n := ⟨ofNat n⟩

instance (priority := 50) : OfScientific α where
  ofScientific digits negative exponent :=
    ofNumeral (.decimal false digits (if negative then -(exponent : Int) else exponent))

/-- The distance from one to the next double. -/
def epsilon : α := 1 / ofNat (Nat.pow 2 52)

/-- Sums run from the left and start from negative zero, which adding to a
number leaves as it is. -/
def sum (values : List α) : α :=
  values.foldl (· + ·) (-0)

/-- `lo` or `hi` for a value outside the interval between them. -/
def clamp (x lo hi : α) : α :=
  if x < lo then lo else if hi < x then hi else x

def read? (text : List Char) : Option α :=
  (Numeral.read? text).map ofNumeral

end Scalar

/-- Of two doubles the larger; a value that is not a number loses. -/
def largerOf (x y : Float) : Float :=
  if x.isNaN then y else if y.isNaN then x else if x < y then y else x

/-- Of two doubles the smaller; a value that is not a number loses. -/
def smallerOf (x y : Float) : Float :=
  if x.isNaN then y else if y.isNaN then x else if y < x then y else x

/-- The largest natural number that is not above a double.  Below zero, and for
what is not a number, it is zero; for infinity it is a number that no finite
double reaches. -/
def floorOf (x : Float) : Nat :=
  match Binary.ofFloat x with
  | .finite value => value.floor
  | .infinite negative => if negative then 0 else Nat.pow 2 1024
  | .notANumber => 0

instance : Scalar Float where
  ofNumeral := Numeral.toFloat
  add x y := x + y
  sub x y := x - y
  mul x y := x * y
  div x y := x / y
  neg x := -x
  lt x y := x < y
  le x y := x ≤ y
  decLt := fun x y => inferInstanceAs (Decidable (x < y))
  decLe := fun x y => inferInstanceAs (Decidable (x ≤ y))
  same x y := x == y
  isFinite := Float.isFinite
  floor := floorOf
  abs := Float.abs
  sqrt := Float.sqrt
  exp := Float.exp
  sin := Float.sin
  cos := Float.cos
  tan := Float.tan
  pow := Float.pow
  max := largerOf
  min := smallerOf

end ImplicitDynamics
