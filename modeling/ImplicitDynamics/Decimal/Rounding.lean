import ImplicitDynamics.Decimal.Binary

/-!
# Rounding a positive quotient to decimal digits

A positive value is a quotient of two natural numbers.  It is rounded to a
multiple of a power of ten in exact arithmetic; of two multiples at the same
distance the even one is taken.
-/

namespace ImplicitDynamics.Decimal

structure Digits where
  digits : Nat
  exponent : Int
  deriving Repr, DecidableEq

/-- The natural number nearest to `num / den`, the even one of two. -/
def roundQuotient (num den : Nat) : Nat :=
  let below := num / den
  let rest := 2 * (num % den)
  if rest < den || (rest = den && below % 2 = 0) then below else below + 1

/-- How many units of `10 ^ exponent` come nearest to a quotient. -/
def roundAt (value : Nat × Nat) (exponent : Int) : Nat :=
  if 0 ≤ exponent then roundQuotient value.1 (value.2 * Nat.pow 10 exponent.toNat)
  else roundQuotient (value.1 * Nat.pow 10 (-exponent).toNat) value.2

/-- The exponent `k` with `10 ^ (k - 1) ≤ num / den < 10 ^ k`, for a positive
quotient. -/
def decade (value : Nat × Nat) : Int :=
  let (num, den) := value
  if den ≤ num then decimalLength (num / den)
  else
    let length := decimalLength (den / num)
    if num * Nat.pow 10 (length - 1) = den then 2 - (length : Int) else 1 - (length : Int)

/-- A positive quotient with one digit before the point and `places` after
it. -/
def toSignificant (places : Nat) (value : Nat × Nat) : Digits :=
  let exponent := decade value - 1 - places
  let digits := roundAt value exponent
  if digits = Nat.pow 10 (places + 1) then ⟨Nat.pow 10 places, exponent + 1⟩
  else ⟨digits, exponent⟩

end ImplicitDynamics.Decimal
