import ImplicitDynamics.Decimal.Rounding

/-!
# The fewest digits that read back

Around a double lies the interval of the numbers that are nearer to it than to
any other double; its ends belong to it when the significand is even.  The
shortest decimal of the double is the one of fewest digits in that interval,
and of those the nearest.
-/

namespace ImplicitDynamics.Decimal

/-- The interval of a positive double in units of `2 ^ (exponent - 2)`: the
lower end, the double itself and the upper end.  Below a power of two the
doubles lie twice as close. -/
structure Neighbourhood where
  lower : Nat
  middle : Nat
  upper : Nat
  closed : Bool
  exponent : Int

def neighbourhood (x : Dyadic) : Neighbourhood where
  lower :=
    if x.significand = Nat.pow 2 Binary.fractionBits && -1074 < x.exponent then
      4 * x.significand - 1
    else 4 * x.significand - 2
  middle := 4 * x.significand
  upper := 4 * x.significand + 2
  closed := x.significand % 2 = 0
  exponent := x.exponent - 2

/-- The multiple of `10 ^ exponent` inside a neighbourhood that is nearest to
its middle, if there is one; the larger one of two. -/
def Neighbourhood.multiple? (room : Neighbourhood) (exponent : Int) : Option Nat :=
  let unit := Nat.pow 2 room.exponent.toNat * Nat.pow 10 (-exponent).toNat
  let step := Nat.pow 10 exponent.toNat * Nat.pow 2 (-room.exponent).toNat
  let inside (count : Nat) : Bool :=
    if room.closed then room.lower * unit ≤ count * step && count * step ≤ room.upper * unit
    else room.lower * unit < count * step && count * step < room.upper * unit
  let below := room.middle * unit / step
  let above := below + 1
  if inside below && inside above then
    if 2 * (room.middle * unit) < (below + above) * step then some below else some above
  else if inside below then some below
  else if inside above then some above
  else none

/-- Seventeen digits always suffice. -/
def maxDigits : Nat := 17

/-- The last zeros of a number move into its exponent. -/
def Digits.strip (d : Digits) : (fuel : Nat) → Digits
  | 0 => d
  | fuel + 1 =>
    if d.digits % 10 = 0 then Digits.strip ⟨d.digits / 10, d.exponent + 1⟩ fuel else d

def shortestDigits (x : Dyadic) : Digits :=
  let room := neighbourhood x
  let top := decade x.quotient
  let found := (List.range maxDigits).findSome? fun (n : Nat) =>
    let exponent := top - 1 - n
    (room.multiple? exponent).map fun digits => (⟨digits, exponent⟩ : Digits)
  match found with
  | some d => d.strip maxDigits
  | none => toSignificant (maxDigits - 1) x.quotient

end ImplicitDynamics.Decimal
