import ImplicitDynamics.Decimal.Layout
import ImplicitDynamics.Trajectory

/-!
# Comparison with a reference

A trajectory is compared point by point with a reference that has the same
number of points.  All states have the same positive number of variables.  Of
the measures, two have no value when the reference gives nothing to measure
by: the relative error against a reference of zeros, and the error against the
range of a constant reference.
-/

namespace ImplicitDynamics

inductive CompareError where
  | lengthMismatch (solution reference : Nat)
  | dimensionMismatch (solution reference : Nat)
  | empty
  deriving Repr, DecidableEq

def CompareError.message : CompareError → String
  | lengthMismatch solution reference =>
    s!"solutions have different lengths ({solution} vs {reference})"
  | dimensionMismatch solution reference =>
    s!"solutions have different state dimensions ({solution} vs {reference})"
  | empty => "cannot compare empty solutions"

/-- Measures of the difference between a trajectory and its reference. -/
structure ErrorAnalysis (α : Type) where
  maxAbsolute : α
  meanAbsolute : α
  rootMeanSquare : α
  /-- The Euclidean norm of the differences over that of the reference. -/
  relative : Option α
  /-- The root mean square over the range of the reference. -/
  normalized : Option α
  /-- The mean over the variables at each point. -/
  localErrors : List α
  /-- The mean over the points for each variable. -/
  variableErrors : List α

namespace ErrorAnalysis

variable {α : Type} [Scalar α]

structure Totals (α : Type) where
  absolute : α
  squares : α
  referenceSquares : α
  referenceRange : Option (α × α)
  largest : α

def Totals.start : Totals α := ⟨0, 0, 0, none, 0⟩

def Totals.add (totals : Totals α) (value expected : α) : Totals α :=
  let error := Scalar.abs (value - expected)
  { absolute := totals.absolute + error
    squares := totals.squares + error * error
    referenceSquares := totals.referenceSquares + expected * expected
    referenceRange :=
      match totals.referenceRange with
      | none => some (expected, expected)
      | some (lo, hi) => some (Scalar.min lo expected, Scalar.max hi expected)
    largest := Scalar.max totals.largest error }

def differences (state reference : List α) : List α :=
  state.zipWith (fun value expected => Scalar.abs (value - expected)) reference

/-- The first pair of states of which one does not have `dimension`
variables. -/
def mismatch? (dimension : Nat) : List (List α × List α) → Option CompareError
  | [] => none
  | (state, reference) :: rest =>
    if state.length = dimension && reference.length = dimension then
      mismatch? dimension rest
    else some (.dimensionMismatch state.length reference.length)

/-- The measures for pairs of states that all have `dimension` variables. -/
def ofPairs (dimension : Nat) (pairs : List (List α × List α)) : ErrorAnalysis α :=
  let totals := (pairs.flatMap fun (state, reference) => state.zip reference).foldl
    (fun totals (value, expected) => totals.add value expected) Totals.start
  let points := pairs.length
  let count : α := Scalar.ofNat (points * dimension)
  let rootMeanSquare := Scalar.sqrt (totals.squares / count)
  let range : α :=
    match totals.referenceRange with
    | some (lo, hi) => hi - lo
    | none => 0
  let zeros : List α := List.replicate dimension 0
  { maxAbsolute := totals.largest
    meanAbsolute := totals.absolute / count
    rootMeanSquare
    relative :=
      if 0 < totals.referenceSquares then
        some (Scalar.sqrt (totals.squares / totals.referenceSquares))
      else none
    normalized := if 0 < range then some (rootMeanSquare / range) else none
    localErrors := pairs.map fun (state, reference) =>
      (differences state reference).foldl (· + ·) 0 / Scalar.ofNat dimension
    variableErrors :=
      (pairs.foldl
        (fun sums (state, reference) => sums.zipWith (· + ·) (differences state reference))
        zeros).map (· / Scalar.ofNat points) }

def compare (solution reference : Trajectory α) : Except CompareError (ErrorAnalysis α) :=
  if solution.size ≠ reference.size then
    .error (.lengthMismatch solution.size reference.size)
  else
    let pairs :=
      (solution.points.toList.map Point.state).zip (reference.points.toList.map Point.state)
    match pairs with
    | [] => .error .empty
    | (first, firstReference) :: _ =>
      let dimension := first.length
      if dimension = 0 || firstReference.length ≠ dimension then
        .error (.dimensionMismatch dimension firstReference.length)
      else
        match mismatch? dimension pairs with
        | some cause => .error cause
        | none => .ok (ofPairs dimension pairs)

/-- A measure with six places, or the mark for one without a value. -/
def shown (value : Option Float) : String :=
  match value with
  | some x => (Decimal.Form.scientific 6).write x
  | none => "NaN"

def report (analysis : ErrorAnalysis Float) : String :=
  let lines :=
    ["Error analysis",
      "  max absolute error:  " ++ shown (some analysis.maxAbsolute),
      "  mean absolute error: " ++ shown (some analysis.meanAbsolute),
      "  RMS error:           " ++ shown (some analysis.rootMeanSquare),
      "  relative error:      " ++ shown analysis.relative,
      "  normalized error:    " ++ shown analysis.normalized] ++
    analysis.variableErrors.zipIdx.map fun (error, index) =>
      s!"  variable {index}: " ++ shown (some error)
  String.join (lines.map (· ++ "\n"))

end ErrorAnalysis

end ImplicitDynamics
