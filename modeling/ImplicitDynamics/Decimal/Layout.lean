import ImplicitDynamics.Decimal.Shortest

/-!
# Written forms of a double

Four forms are in use: the shortest decimal in positional notation, the same in
scientific notation, a fixed number of places after the point, and a fixed
number of places in scientific notation.  The sign of zero is written, an
exponent has no plus sign and no leading zeros, and the three special values
are `NaN`, `inf` and `-inf`.
-/

namespace ImplicitDynamics.Decimal

/-- Which digits of a double are written, and where its point stands. -/
inductive Form where
  | shortest
  | shortestScientific
  | fixed (places : Nat)
  | scientific (places : Nat)
  deriving Repr, DecidableEq

def zeros (n : Nat) : String :=
  String.ofList (List.replicate n '0')

def positional (d : Digits) : String :=
  let text := toString d.digits
  if 0 ≤ d.exponent then text ++ zeros d.exponent.toNat
  else
    let places := (-d.exponent).toNat
    let padded := (zeros (places + 1 - text.length) ++ text).toList
    let whole := padded.length - places
    String.ofList (padded.take whole ++ '.' :: padded.drop whole)

/-- One digit before the point and the others after it. -/
def withExponent (d : Digits) : String :=
  let text := (toString d.digits).toList
  let exponent := d.exponent + (text.length - 1 : Nat)
  let head :=
    match text with
    | first :: second :: rest => first :: '.' :: second :: rest
    | single => single
  String.ofList head ++ "e" ++ toString exponent

def Form.magnitude (form : Form) (x : Dyadic) : String :=
  match form with
  | .shortest =>
    if x.significand = 0 then "0" else positional (shortestDigits x)
  | .shortestScientific =>
    if x.significand = 0 then "0e0" else withExponent (shortestDigits x)
  | .fixed places => positional ⟨roundAt x.quotient (-(places : Int)), -(places : Int)⟩
  | .scientific places =>
    if x.significand = 0 then
      if places = 0 then "0e0" else "0." ++ zeros places ++ "e0"
    else withExponent (toSignificant places x.quotient)

def Form.write (form : Form) (x : Float) : String :=
  match Binary.ofFloat x with
  | .notANumber => "NaN"
  | .infinite negative => if negative then "-inf" else "inf"
  | .finite value => (if value.negative then "-" else "") ++ form.magnitude value

/-- Like `Form.write`, with a plus sign before what has no minus sign. -/
def Form.writeSigned (form : Form) (x : Float) : String :=
  match Binary.ofFloat x with
  | .notANumber => "NaN"
  | .infinite negative => if negative then "-inf" else "+inf"
  | .finite value => (if value.negative then "-" else "+") ++ form.magnitude value

/-- The shortest decimal in positional notation, as messages show it. -/
def shortest (x : Float) : String :=
  Form.shortest.write x

/-- A text moved to the right edge of a column. -/
def padLeft (width : Nat) (text : String) : String :=
  String.ofList (List.replicate (width - text.length) ' ') ++ text

end ImplicitDynamics.Decimal
