import ImplicitDynamics.Numeral

/-!
# Binary floating-point numbers as exact numbers

A finite double is `± significand · 2 ^ exponent`.  Everything printed about a
double starts from this exact value, and nothing from an approximation.
-/

namespace ImplicitDynamics

/-- A finite double, exactly: `± significand · 2 ^ exponent`. -/
structure Dyadic where
  negative : Bool
  significand : Nat
  exponent : Int
  deriving Repr, DecidableEq

inductive Binary where
  | finite (value : Dyadic)
  | infinite (negative : Bool)
  | notANumber
  deriving Repr, DecidableEq

namespace Binary

def fractionBits : Nat := 52

def ofBits (bits : Nat) : Binary :=
  let fraction : Nat := bits % Nat.pow 2 fractionBits
  let biased : Nat := bits / Nat.pow 2 fractionBits % Nat.pow 2 11
  let negative := bits / Nat.pow 2 63 % 2 == 1
  if biased = 2047 then
    if fraction = 0 then .infinite negative else .notANumber
  else if biased = 0 then .finite ⟨negative, fraction, -1074⟩
  else .finite ⟨negative, fraction + Nat.pow 2 fractionBits, (biased : Int) - 1075⟩

def ofFloat (x : Float) : Binary :=
  ofBits x.toBits.toNat

end Binary

namespace Dyadic

def quotient (x : Dyadic) : Nat × Nat :=
  if 0 ≤ x.exponent then (x.significand * Nat.pow 2 x.exponent.toNat, 1)
  else (x.significand, Nat.pow 2 (-x.exponent).toNat)

/-- The largest natural number that is not above a value; zero when the value
is negative. -/
def floor (x : Dyadic) : Nat :=
  if x.negative then 0 else x.quotient.1 / x.quotient.2

end Dyadic

/-- Number of decimal digits of a natural number; one for zero. -/
def decimalLength (n : Nat) : Nat :=
  (Nat.toDigits 10 n).length

/-- The double nearest to a numeral.  Magnitudes that no double comes near are
decided by their number of digits alone, so that no power of ten is computed
for them. -/
def Numeral.toFloat : Numeral → Float
  | .notANumber => 0.0 / 0.0
  | .infinite negative => if negative then -1.0 / 0.0 else 1.0 / 0.0
  | .decimal negative digits exponent =>
    let decade : Int := exponent + decimalLength digits
    let magnitude : Float :=
      if digits = 0 || decade < -330 then 0.0
      else if 320 < decade then 1.0 / 0.0
      else Float.ofScientific digits (exponent < 0) exponent.natAbs
    if negative then -magnitude else magnitude

end ImplicitDynamics
