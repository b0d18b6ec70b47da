import ImplicitDynamics.Decimal.Layout

/-!
# Structured documents

Results for other programs are written as JSON, indented by two blanks.  A
number is written with the fewest digits that read back, in positional
notation while its point is near them; a value that is no finite number is
written as `null`.
-/

namespace ImplicitDynamics

inductive Document where
  | null
  | bool (value : Bool)
  | count (value : Nat)
  | number (value : Float)
  | text (value : String)
  | list (items : List Document)
  | record (fields : List (String × Document))

namespace Document

def hexDigit (n : Nat) : Char :=
  if n < 10 then Char.ofNat ('0'.toNat + n) else Char.ofNat ('a'.toNat + (n - 10))

def escape (c : Char) : List Char :=
  if c = '"' then ['\\', '"']
  else if c = '\\' then ['\\', '\\']
  else if c = '\n' then ['\\', 'n']
  else if c = '\r' then ['\\', 'r']
  else if c = '\t' then ['\\', 't']
  else if c.toNat = 8 then ['\\', 'b']
  else if c.toNat = 12 then ['\\', 'f']
  else if c.toNat < 32 then
    ['\\', 'u', '0', '0', hexDigit (c.toNat / 16), hexDigit (c.toNat % 16)]
  else [c]

def quote (value : String) : String :=
  String.ofList ('"' :: value.toList.flatMap escape ++ ['"'])

/-- A positive magnitude.  The point is written if it lies at most five places
before the digits or within sixteen places from their start. -/
def magnitude (d : Decimal.Digits) : String :=
  let text := toString d.digits
  let point : Int := text.length + d.exponent
  if 0 ≤ d.exponent && point ≤ 16 then Decimal.positional d ++ ".0"
  else if -5 < point && point ≤ 16 then Decimal.positional d
  else Decimal.withExponent d

def writeNumber (x : Float) : String :=
  match Binary.ofFloat x with
  | .finite value =>
    (if value.negative then "-" else "") ++
      (if value.significand = 0 then "0.0" else magnitude (Decimal.shortestDigits value))
  | _ => "null"

/-- A line break and the blanks at the start of a line. -/
def newline (depth : Nat) : String :=
  String.ofList ('\n' :: List.replicate (2 * depth) ' ')

def block (opening closing : String) (depth : Nat) (items : List String) : String :=
  if items.isEmpty then opening ++ closing
  else
    opening ++ newline (depth + 1) ++ ("," ++ newline (depth + 1)).intercalate items ++
      newline depth ++ closing

mutual

def writeAt (depth : Nat) : Document → String
  | null => "null"
  | bool value => if value then "true" else "false"
  | count value => toString value
  | number value => writeNumber value
  | text value => quote value
  | list items => block "[" "]" depth (writeItems (depth + 1) items)
  | record fields => block "\x7b" "\x7d" depth (writeFields (depth + 1) fields)

def writeItems (depth : Nat) : List Document → List String
  | [] => []
  | item :: rest => writeAt depth item :: writeItems depth rest

def writeFields (depth : Nat) : List (String × Document) → List String
  | [] => []
  | (name, value) :: rest =>
    (quote name ++ ": " ++ writeAt depth value) :: writeFields depth rest

end

def write (document : Document) : String :=
  document.writeAt 0

def numbers (values : List Float) : Document :=
  list (values.map number)

def counts (values : List Nat) : Document :=
  list (values.map count)

def texts (values : List String) : Document :=
  list (values.map text)

end Document

end ImplicitDynamics
