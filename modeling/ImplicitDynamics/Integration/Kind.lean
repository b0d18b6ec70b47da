import ImplicitDynamics.Text

/-!
# Kinds of integrators

Three methods take steps of a fixed length; the fourth chooses step and order
itself.
-/

namespace ImplicitDynamics

inductive IntegratorKind where
  | explicitEuler
  | implicitEuler
  | rungeKutta4
  | dassl
  deriving Repr, DecidableEq

namespace IntegratorKind

def name : IntegratorKind → String
  | explicitEuler => "Explicit Euler"
  | implicitEuler => "Implicit Euler"
  | rungeKutta4 => "Runge-Kutta 4"
  | dassl => "DASSL"

def isFixedStep (kind : IntegratorKind) : Bool :=
  kind ≠ dassl

/-- The words by which a kind may be asked for. -/
def words : List (String × IntegratorKind) :=
  [("explicit-euler", explicitEuler), ("explicit_euler", explicitEuler),
    ("euler", explicitEuler), ("implicit-euler", implicitEuler),
    ("implicit_euler", implicitEuler), ("backward-euler", implicitEuler),
    ("rk4", rungeKutta4), ("runge-kutta-4", rungeKutta4), ("runge_kutta_4", rungeKutta4),
    ("dassl", dassl), ("bdf", dassl)]

/-- A word without the blanks around it and in small letters. -/
def normalize (text : String) : String :=
  String.ofList ((Text.trim text.toList).map Char.toLower)

/-- Reads a word; an unknown one is refused with a message. -/
def parse (text : String) : Except String IntegratorKind :=
  let word := normalize text
  match words.find? fun (known, _) => known = word with
  | some (_, kind) => .ok kind
  | none =>
    .error s!"unknown solver '{word}' (expected explicit-euler, implicit-euler, rk4 or dassl)"

end IntegratorKind

end ImplicitDynamics
