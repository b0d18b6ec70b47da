import ImplicitDynamics.Integration.Bdf.Settings

/-!
# The history of a multistep method

The past of a variable is kept as a polynomial around the current time `t`.
Column `j` of the history holds, for each variable, the coefficient of
`((s - t) / h) ^ j`, which is `h ^ j / j!` times the `j`-th derivative.

In this form another step length only scales the columns, and moving on by one
step is multiplication with the triangle of binomial coefficients.
-/

namespace ImplicitDynamics.Bdf

structure History (α : Type) where
  columns : List (List α)
  order : Nat
  step : α
  stepsAtOrder : Nat
  consecutiveFailures : Nat
  /-- Magnitudes that count as typical of the variables. -/
  nominal : List α

variable {α : Type} [Scalar α]

/-- `(c₀ + c₁ x + …) (1 + factor · x)`. -/
def timesFactor (factor : α) (coefficients : List α) : List α :=
  (coefficients ++ [0]).zipWith (fun own lower => own + lower * factor) (0 :: coefficients)

/-- The coefficients of `(1 + x) (1 + x / 2) ⋯ (1 + x / order)`, by which the
history is corrected.  The second is the leading coefficient of the
formula. -/
def formula (order : Nat) : List α :=
  (List.range (min order BdfSettings.highestOrder)).foldl
    (fun coefficients k => timesFactor (1 / Scalar.ofNat (k + 1)) coefficients) [1]

def coefficients (order : Nat) : List α :=
  let given : List α := formula order
  given ++ List.replicate (BdfSettings.highestOrder + 1 - given.length) 0

/-- Each column becomes the sum of itself and all that follow, added from the
last. -/
def suffixSums : List (List α) → List (List α)
  | [] => []
  | column :: rest =>
    match suffixSums rest with
    | [] => [column]
    | next :: others => column.zipWith (· + ·) next :: next :: others

/-- Takes suffix sums from the first column on, then from the second on, and so
forth. -/
def extrapolate : (count : Nat) → List (List α) → List (List α)
  | 0, columns => columns
  | count + 1, columns =>
    match suffixSums columns with
    | [] => []
    | first :: rest => first :: extrapolate count rest

namespace History

/-- The smallest magnitude that counts as typical. -/
def nominalFloor : α := 1e-6

/-- A history of order one from a state and its derivatives. -/
def start (state derivatives : List α) (step : α) : History α where
  columns :=
    state :: derivatives.map (step * ·) ::
      List.replicate (BdfSettings.highestOrder - 1) (List.replicate state.length 0)
  order := 1
  step := step
  stepsAtOrder := 0
  consecutiveFailures := 0
  nominal := state.map fun v => Scalar.max (Scalar.abs v) nominalFloor

/-- Multiplies the first column by `factor · ratio`, the second by
`factor · ratio ^ 2`, and so forth. -/
def scaleColumns (ratio factor : α) : List (List α) → List (List α)
  | [] => []
  | column :: rest =>
    let factor := factor * ratio
    column.map (· * factor) :: scaleColumns ratio factor rest

/-- The same past for a step that is `ratio` times as long. -/
def rescale (history : History α) (ratio : α) : History α :=
  { history with
    columns :=
      match history.columns with
      | [] => []
      | state :: rest => state :: scaleColumns ratio 1 rest
    step := history.step * ratio }

/-- Changes the order and forgets the columns above it. -/
def setOrder (history : History α) (order : Nat) : History α :=
  { history with
    columns := history.columns.take (order + 1) ++
      (history.columns.drop (order + 1)).map fun column => column.map fun _ => 0
    order
    stepsAtOrder := 0 }

def weights (history : History α) (settings : BdfSettings α) : List α :=
  (history.columns.headD []).zipWith
    (fun y nominal =>
      settings.relativeTolerance * Scalar.max (Scalar.abs y) nominal +
        settings.absoluteTolerance)
    history.nominal

/-- The columns up to the order, around the end of the next step. -/
def predict (history : History α) : List (List α) :=
  extrapolate history.order (history.columns.take (history.order + 1))

/-- Adds the formula's multiple of a correction to one entry of a column. -/
def correctEntry (isAlgebraic : Bool) (first : Bool) (coefficient old predicted y y0 : α) : α :=
  if isAlgebraic then if first then y else old
  else predicted + coefficient * (y - y0)

/-- The history after a step to `state`.  Differential variables follow the
prediction, corrected by the formula; of algebraic variables only the state is
kept. -/
def accept (history : History α) (algebraic : List Bool) (formula : List α)
    (predicted : List (List α)) (state : List α) : History α :=
  let y0 := predicted.headD []
  let columns := history.columns.zipIdx.map fun (column, j) =>
    match predicted[j]? with
    | none => column
    | some guess =>
      let coefficient := formula.getD j 0
      (List.range state.length).map fun i =>
        correctEntry (algebraic.getD i false) (j = 0) coefficient (column.getD i 0)
          (guess.getD i 0) (state.getD i 0) (y0.getD i 0)
  { history with columns }

end History

end ImplicitDynamics.Bdf
