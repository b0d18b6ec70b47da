import ImplicitDynamics.Proofs.AnalysisEvents
import ImplicitDynamics.Proofs.BdfAttempt
import ImplicitDynamics.Proofs.DoubleRounding
import Mathlib

/-!
# Percentages in doubles

The percentage of finished columns is computed in doubles, and each of its steps rounds.
Since rounding keeps the order, the percentages still do not fall, and they stay far
enough below the milestone that follows them.
-/

namespace ImplicitDynamics

namespace Double

/-- The percentage of `done` among `all` columns, rounded at every step of its
computation. -/
def Percentage (done all : ℕ) (w : ℚ) : Prop :=
  ∃ d n p s, RoundsTo done d ∧ RoundsTo all n ∧ RoundsTo (40 * d) p ∧ RoundsTo (p / n) s ∧
    RoundsTo (40 + s) w

variable {a b done all : ℕ} {d n p q s v w z : ℚ}

theorem Percentage.mono (hab : a ≤ b) (hv : Percentage a all v) (hw : Percentage b all w) :
    v ≤ w := by
  rcases hv with ⟨d, n, p, s, hd, hn, hp, hs, hv⟩
  rcases hw with ⟨d', n', p', s', hd', hn', hp', hs', hw⟩
  obtain rfl := hn.unique hn'
  have hpos : 0 < n := hn.pos
  have hdone : d ≤ d' := hd.mono (by exact_mod_cast hab) hd'
  have hproduct : p ≤ p' := hp.mono (by linarith) hp'
  have hquotient : s ≤ s' := hs.mono (by gcongr) hs'
  exact hv.mono (by linarith) hw

/-- The quotient may come out above 40, but not by far. -/
theorem quotient_le (hall : done ≤ all) (hd : RoundsTo done d) (hn : RoundsTo all n)
    (hp : RoundsTo (40 * d) p) : p / n ≤ (41 : ℕ) := by
  have hdn : d ≤ n := hd.mono (by exact_mod_cast hall) hn
  have hpos : 0 < d := hd.pos
  have herror := (abs_le.mp hp.abs_sub_le).1
  rw [div_le_iff₀ hn.pos]
  push_cast
  linarith

theorem Percentage.bounds (hall : done ≤ all) (hw : Percentage done all w) :
    40 ≤ w ∧ w ≤ 81 := by
  rcases hw with ⟨d, n, p, s, hd, hn, hp, hs, hw⟩
  have hpos : 0 < s := hs.pos
  have hmost : s ≤ (41 : ℕ) :=
    hs.le_natCast (by norm_num) (by norm_num) (quotient_le hall hd hn hp)
  push_cast at hmost
  constructor
  · exact_mod_cast hw.natCast_le (by norm_num : 0 < 40) (by norm_num) (by push_cast; linarith)
  · exact_mod_cast hw.le_natCast (by norm_num : 0 < 81) (by norm_num) (by push_cast; linarith)

theorem moderate_of_le (hlow : 1 ≤ q * 2 ^ 62) (hhigh : q ≤ 2 ^ 70) : Moderate q := by
  constructor
  · calc (2 : ℚ) ^ (-200 : ℤ) ≤ 1 / 2 ^ 62 := by norm_num
      _ ≤ q := by rwa [div_le_iff₀ (by positivity)]
  · exact hhigh.trans (by norm_num)

theorem represents_percentage (hpos : 0 < done) (hall : done ≤ all) (hlast : all ≤ 2 ^ 62) :
    ∃ w, Percentage done all w ∧
      Represents (Scalar.ofNat 40 + Scalar.ofNat 40 * Scalar.ofNat done / Scalar.ofNat all) w := by
  have h40 : Represents (Scalar.ofNat 40) 40 :=
    represents_natCast (n := 40) (by norm_num) (by norm_num)
  rcases represents_ofNat hpos (hall.trans hlast) with ⟨d, hdone, hd⟩
  rcases represents_ofNat (hpos.trans_le hall) hlast with ⟨n, hcolumns, hn⟩
  have hd1 : (1 : ℕ) ≤ d := hd.natCast_le one_pos (by norm_num) (by exact_mod_cast hpos)
  have hdn : d ≤ n := hd.mono (by exact_mod_cast hall) hn
  have hn62 : n ≤ 2 ^ (62 : ℤ) :=
    hn.mono (by exact_mod_cast hlast) (roundsTo_two_zpow 62)
  norm_num at hd1 hn62
  rcases h40.mul hdone (moderate_of_le (by linarith) (by linarith)) with ⟨p, hproduct, hp⟩
  have hp1 : (1 : ℕ) ≤ p := hp.natCast_le one_pos (by norm_num) (by push_cast; linarith)
  have hquotient : p / n ≤ (41 : ℕ) := quotient_le hall hd hn hp
  norm_num at hp1 hquotient
  have hleast : 1 ≤ p / n * 2 ^ 62 := by
    rw [div_mul_eq_mul_div, one_le_div₀ hn.pos]
    linarith
  rcases hproduct.div hcolumns (moderate_of_le hleast (by linarith)) with ⟨s, hratio, hs⟩
  have hspos : 0 < s := hs.pos
  have hsmost : s ≤ (41 : ℕ) :=
    hs.le_natCast (by norm_num) (by norm_num) (by exact_mod_cast hquotient)
  norm_num at hsmost
  rcases h40.add hratio (moderate_of_le (by linarith) (by linarith)) with ⟨w, hsum, hw⟩
  exact ⟨w, ⟨d, n, p, s, hd, hn, hp, hs, hw⟩, hsum⟩

end Double

namespace Analyzer

instance : Graded Float where
  trans := Double.le_trans
  milestone {a b} _ hb hle := by
    have hb : b ≤ 100 := (by decide : ∀ b ∈ milestones, b ≤ 100) b hb
    exact Double.ofNat_mono hle (hb.trans (by norm_num))

theorem represents_columnPercentage {columns done : ℕ} (hpos : 0 < done)
    (hdone : done ≤ 2 * columns) (hcolumns : columns ≤ 2 ^ 60) :
    ∃ w, Double.Percentage done (2 * columns) w ∧
      Double.Represents (columnPercentage columns done) w := by
  unfold columnPercentage
  rw [if_neg hpos.ne']
  exact Double.represents_percentage hpos hdone (by omega)

theorem columnPercentage_zero (columns : ℕ) :
    (columnPercentage columns 0 : Float) = Scalar.ofNat 40 :=
  if_pos rfl

theorem gradedColumns_double {columns : ℕ} (hcolumns : columns ≤ 2 ^ 60) :
    GradedColumns Float columns where
  rises {a b} hab hb := by
    rcases b.eq_zero_or_pos with rfl | hpos
    · rw [Nat.le_zero.mp hab, columnPercentage_zero]
      exact Double.ofNat_mono le_rfl (by norm_num)
    · rcases represents_columnPercentage hpos hb hcolumns with ⟨w, hw, hsecond⟩
      rcases a.eq_zero_or_pos with rfl | ha
      · have h40 : Double.Represents (Scalar.ofNat 40) (40 : ℕ) :=
          Double.represents_natCast (by norm_num) (by norm_num)
        rw [columnPercentage_zero]
        exact h40.le hsecond (hw.bounds hb).1
      · rcases represents_columnPercentage ha (hab.trans hb) hcolumns with ⟨v, hv, hfirst⟩
        exact hfirst.le hsecond (hv.mono hab hw)
  last := by
    have h85 : Double.Represents (Scalar.ofNat 85) (85 : ℕ) :=
      Double.represents_natCast (by norm_num) (by norm_num)
    rcases (2 * columns).eq_zero_or_pos with hzero | hpos
    · rw [hzero, columnPercentage_zero]
      exact Double.ofNat_mono (by norm_num) (by norm_num)
    · rcases represents_columnPercentage hpos le_rfl hcolumns with ⟨w, hw, hvalue⟩
      exact hvalue.le h85 ((hw.bounds le_rfl).2.trans (by norm_num))

/-- The percentages of an analysis do not fall, it ends with its last event if and only
if it succeeds, and a cancellation before it or at an early event ends it at once.  A
system writes to a buffer whose length it cannot change, and no state in memory has more
than `2 ^ 60` doubles. -/
theorem reports_progress (settings : AnalyzerSettings Float) (react : AnalysisEvent Float → Bool)
    {system : ResidualSystem Float} (hsystem : system.FillsBuffer) {state : List Float}
    (hstate : state.length ≤ 2 ^ 60) (time : Float) (control : Control) :
    Reports react control (run settings react system state time control) := by
  refine run_reports settings system state time control fun hlength hbase => ?_
  rw [hsystem.length_evaluate hbase, ← hlength]
  exact gradedColumns_double hstate

/-- The analysis of an oscillator, to its end and cancelled at the second column. -/
theorem reports_progress_oscillator :
    let system : ResidualSystem Float := .affine [[1, 0], [0, 1]] [[0, -1], [1, 0]] [0, 0]
    let react : AnalysisEvent Float → Bool := fun event => event.message == "Jacobian column 2/4"
    let completed := run .standard (fun _ => false) system [1, 0] 0 .fresh
    let cancelled := run .standard react system [1, 0] 0 .fresh
    system.FillsBuffer ∧ ([1, 0] : List Float).length ≤ 2 ^ 60 ∧
      Reports (fun _ => false) .fresh completed ∧ completed.1.isOk = true ∧
      completed.2.events.map (·.percentage) == [0, 20, 30, 40, 50, 60, 70, 80, 85, 95, 100] ∧
      Reports react .fresh cancelled ∧ cancelled.1.isOk = false ∧
      cancelled.2.events.map (·.percentage) == [0, 20, 30, 40, 50, 60] := by
  have hsystem : (ResidualSystem.affine [[1, 0], [0, 1]] [[0, -1], [1, 0]] [0, 0] :
      ResidualSystem Float).FillsBuffer := ResidualSystem.affine_fillsBuffer rfl rfl
  have hstate : ([1, 0] : List Float).length ≤ 2 ^ 60 := by decide
  refine ⟨hsystem, hstate, ?_, ?_, ?_, ?_, ?_, ?_⟩
  · exact reports_progress .standard _ hsystem hstate 0 .fresh
  · decide +kernel
  · decide +kernel
  · exact reports_progress .standard _ hsystem hstate 0 .fresh
  · decide +kernel
  · decide +kernel

end Analyzer

end ImplicitDynamics
