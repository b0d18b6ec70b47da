import ImplicitDynamics.Analysis.Report
import ImplicitDynamics.Document
import ImplicitDynamics.Trajectory

/-!
# Reports of an analysis and a trajectory

Results are shown as lines of text or as a document.
-/

namespace ImplicitDynamics.CommandLine

structure Results where
  vars : List String
  analysis : Option (Analysis Float)
  trajectory : Option (Trajectory Float)

def conditionNumber : Conditioning Float → Float
  | .unavailable => 0.0 / 0.0
  | .nearlySingular => 1.0 / 0.0
  | .number value => value

def scientific (places : Nat) (x : Float) : String :=
  (Decimal.Form.scientific places).write x

def fixed (places : Nat) (x : Float) : String :=
  (Decimal.Form.fixed places).write x

def eigenvalueLine (z : Linear.Eigenvalue Float) : String :=
  "  λ = " ++ fixed 6 z.re ++ " " ++ (Decimal.Form.fixed 6).writeSigned z.im ++ "i"

def analysisLines (names : List String) (analysis : Analysis Float) : List String :=
  let algebraic :=
    ((names.zip analysis.algebraic).filter Prod.snd).map Prod.fst
  [s!"Index:             {analysis.index}",
    "Algebraic:         " ++ ", ".intercalate algebraic,
    s!"Stiff:             {analysis.isStiff}",
    "Stiffness ratio:   " ++ scientific 3 analysis.stiffnessRatio,
    "Condition number:  " ++ scientific 3 (conditionNumber analysis.conditioning)] ++
  analysis.eigenvalues.map eigenvalueLine ++
  analysis.warnings.map fun warning => "warning: " ++ warning.message names

def headerLine (names : List String) : String :=
  Decimal.padLeft 12 "t" ++
    String.join (names.map fun name => " " ++ Decimal.padLeft 14 name)

def pointLine (point : Point Float) : String :=
  Decimal.padLeft 12 (fixed 6 point.time) ++
    String.join (point.state.map fun value => " " ++ Decimal.padLeft 14 (scientific 6 value))

def trajectoryLines (names : List String) (trajectory : Trajectory Float) : List String :=
  headerLine names :: trajectory.points.toList.map pointLine

def Results.lines (results : Results) : List String :=
  (results.analysis.map (analysisLines results.vars)).getD [] ++
    (results.trajectory.map (trajectoryLines results.vars)).getD []

def eigenvalueDocument (z : Linear.Eigenvalue Float) : Document :=
  .numbers [z.re, z.im]

def analysisDocument (names : List String) (analysis : Analysis Float) : Document :=
  let decomposition := analysis.decomposition
  .record
    [("index", .count analysis.index),
      ("algebraic_variables", .list (analysis.algebraic.map .bool)),
      ("variable_dependencies",
        .record (analysis.dependencies.edges.zipIdx.map fun (targets, node) =>
          (toString node, .counts targets))),
      ("has_circular_dependency", .bool analysis.hasCircularDependency),
      ("circular_dependency_paths", .texts (analysis.circularPaths names)),
      ("is_stiff", .bool analysis.isStiff),
      ("condition_number", .number (conditionNumber analysis.conditioning)),
      ("stiffness_ratio", .number analysis.stiffnessRatio),
      ("eigenvalues", .list (analysis.eigenvalues.map eigenvalueDocument)),
      ("warnings", .texts (analysis.warnings.map (Warning.message names))),
      ("system_structure",
        .record
          [("blocks", .list (decomposition.blocks.map .counts)),
            ("sccs", .list (decomposition.coupled.map .counts)),
            ("single_equations", .counts decomposition.singles)])]

def terminationName : Termination → String
  | .completed => "Completed"
  | .cancelled => "Cancelled"

def trajectoryDocument (trajectory : Trajectory Float) : Document :=
  let points := trajectory.points.toList
  .record
    [("time_points", .numbers (points.map Point.time)),
      ("states", .list (points.map fun point => .numbers point.state)),
      ("derivatives", .list (points.map fun point => .numbers point.derivatives)),
      ("termination", .text (terminationName trajectory.termination))]

def Results.document (results : Results) : Document :=
  .record
    ([("variables", Document.texts results.vars)] ++
      (results.analysis.toList.map fun analysis =>
        ("analysis", analysisDocument results.vars analysis)) ++
      results.trajectory.toList.map fun trajectory =>
        ("solution", trajectoryDocument trajectory))

end ImplicitDynamics.CommandLine
