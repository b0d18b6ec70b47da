import ImplicitDynamics.Integration.Integrator
import ImplicitDynamics.Proofs.KeyedLists

/-!
# Settings given by name

A setting that is given by name is a number; some settings are counts and take
its whole part.  Settings that are applied in turn take the values given for
them and leave all others alone, whatever their order, as long as each name is
given once.
-/

namespace ImplicitDynamics

variable {α : Type}

inductive SettingValue (α : Type) where
  | count (n : Nat)
  | quantity (value : α)

def NewtonSettings.named (settings : NewtonSettings α) : List (String × SettingValue α) :=
  [("newton_max_iterations", .count settings.maxIterations),
    ("newton_tolerance", .quantity settings.tolerance)]

def BdfSettings.named (settings : BdfSettings α) : List (String × SettingValue α) :=
  [("relative_tolerance", .quantity settings.relativeTolerance),
    ("absolute_tolerance", .quantity settings.absoluteTolerance),
    ("initial_step", .quantity settings.initialStep),
    ("min_step", .quantity settings.minStep),
    ("max_step", .quantity settings.maxStep),
    ("max_order", .count settings.maxOrder),
    ("safety_factor", .quantity settings.safetyFactor)]

/-- All settings of an integrator: those of its Newton iterations and, if it
chooses step and order itself, those for that. -/
structure Tuning (α : Type) where
  newton : NewtonSettings α
  bdf? : Option (BdfSettings α)

def Integrator.tuning (integrator : Integrator α) : Tuning α :=
  ⟨integrator.core.newton, integrator.settings?⟩

namespace Tuning

def named (tuning : Tuning α) : List (String × SettingValue α) :=
  tuning.newton.named ++ (tuning.bdf?.map BdfSettings.named).getD []

def get? (tuning : Tuning α) (key : String) : Option (SettingValue α) :=
  tuning.named.lookup key

theorem nodup_names (tuning : Tuning α) : (tuning.named.map Prod.fst).Nodup := by
  obtain ⟨newton, _ | settings⟩ := tuning
  · simp [named, NewtonSettings.named]
  · simp [named, NewtonSettings.named, BdfSettings.named]

/-- The settings that have no name. -/
def unnamed (tuning : Tuning α) : Option (Nat × α) :=
  tuning.bdf?.map fun settings => (settings.maxConsecutiveFailures, settings.correctorTolerance)

end Tuning

variable [Scalar α]

/-- What a setting becomes when a number is given for it.  Counts are cut to the
largest machine word. -/
def SettingValue.ofNumber (key : String) (value : α) : SettingValue α :=
  if key = "newton_max_iterations" ∨ key = "max_order" then
    .count (min (Scalar.floor value) Setting.countLimit)
  else .quantity value

/-- The settings that were given have the values given for them; all others are
what they were. -/
structure Tuning.Overridden (given : List (String × α)) (before after : Tuning α) : Prop where
  named : ∀ key value, (key, value) ∈ given → after.get? key = some (.ofNumber key value)
  others : ∀ key, key ∉ given.map Prod.fst → after.get? key = before.get? key
  unnamed : after.unnamed = before.unnamed

namespace Tuning.Overridden

theorem nil (tuning : Tuning α) : Overridden [] tuning tuning :=
  ⟨by simp, fun _ _ => rfl, rfl⟩

theorem of_set {key : String} {value : α} {before after : Tuning α} {i : Nat}
    (hi : (before.named.map Prod.fst)[i]? = some key)
    (hafter : after.named = before.named.set i (key, .ofNumber key value))
    (hunnamed : after.unnamed = before.unnamed) : Overridden [(key, value)] before after := by
  have hget : ∀ other, after.get? other =
      if other = key then some (.ofNumber key value) else before.get? other := by
    intro other
    rw [get?, hafter, lookup_set_of_nodup before.nodup_names hi]
    rfl
  refine ⟨fun other number hmem => ?_, fun other hother => ?_, hunnamed⟩
  · cases List.mem_singleton.mp hmem
    rw [hget, if_pos rfl]
  · rw [hget, if_neg (by simpa using hother)]

theorem cons {key : String} {value : α} {given : List (String × α)}
    {before middle after : Tuning α} (hfirst : Overridden [(key, value)] before middle)
    (hrest : Overridden given middle after) (hnew : key ∉ given.map Prod.fst) :
    Overridden ((key, value) :: given) before after where
  named other number hmem := by
    rcases List.mem_cons.mp hmem with heq | hmem
    · cases heq
      rw [hrest.others key hnew]
      exact hfirst.named key value (by simp)
    · exact hrest.named other number hmem
  others other hother := by
    rw [List.map_cons, List.mem_cons, not_or] at hother
    rw [hrest.others other hother.2]
    exact hfirst.others other (by simpa using hother.1)
  unnamed := hrest.unnamed.trans hfirst.unnamed

end Tuning.Overridden

/-! ## One setting -/

/-- The error is about a setting and not about the configuration or the
system. -/
def SolverError.concernsSettings : SolverError α → Bool
  | .invalidInput cause =>
    match cause with
    | .notPositive .. | .notWhole .. | .unknownSetting .. | .stepBounds .. | .orderBounds ..
    | .safetyFactor .. => true
    | .noInitialState | .stateDimension .. | .stateNotFinite | .timeNotFinite | .emptyInterval
    | .noIntervals => false
  | _ => false

/-- How giving a setting may end: it is refused, or the settings that `tuning`
reads off the result have it.  A key that stands for nothing is left to
others. -/
def Tuning.Applied {σ : Type} (key : String) (value : α) (before : Tuning α)
    (tuning : σ → Tuning α) : Except (SolverError α) (Option σ) → Prop
  | .error cause => cause.concernsSettings = true
  | .ok none => True
  | .ok (some next) => Overridden [(key, value)] before (tuning next)

namespace Setting

variable {key : String} {value : α} {names : List String}

/-- Counts have to be whole numbers. -/
def IsCount (key : String) : Prop := key = "newton_max_iterations" ∨ key = "max_order"

/-- The value makes sense under that name, if the name stands for anything. -/
structure Sensible (key : String) (value : α) : Prop where
  finite : Scalar.isFinite value = true
  positive : 0 < value
  whole : IsCount key → Scalar.same (Scalar.ofNat (Scalar.floor value)) value = true

def newtonNames : List String := ["newton_max_iterations", "newton_tolerance"]

def bdfNames : List String :=
  ["relative_tolerance", "absolute_tolerance", "initial_step", "min_step", "max_step",
    "max_order", "safety_factor"]

theorem positive_cases (key : String) (value : α) :
    (positive key value = .ok value ∧ Scalar.isFinite value = true ∧ 0 < value) ∨
      ∃ cause, positive key value = .error cause ∧ cause.concernsSettings = true ∧
        ¬ (Scalar.isFinite value = true ∧ 0 < value) := by
  unfold positive
  split
  · next hvalue =>
    rw [Bool.and_eq_true, decide_eq_true_eq] at hvalue
    exact .inl ⟨rfl, hvalue⟩
  · next hvalue =>
    rw [Bool.and_eq_true, decide_eq_true_eq] at hvalue
    exact .inr ⟨_, rfl, rfl, hvalue⟩

/-- Who knows some names answers whenever one of them is given, and accepts the
values that make sense under it. -/
structure Answers {σ : Type} (names : List String) (key : String) (value : α)
    (before : Tuning α) (tuning : σ → Tuning α) (answer : Except (SolverError α) (Option σ)) :
    Prop where
  applied : Tuning.Applied key value before tuning answer
  knows : key ∈ names ↔ answer ≠ .ok none
  accepts : key ∈ names → ((∃ result, answer = .ok result) ↔ Sensible key value)

namespace Answers

variable {σ : Type} {before : Tuning α} {tuning : σ → Tuning α}

theorem refused {cause : SolverError α} (hkey : key ∈ names) (hnot : ¬ Sensible key value)
    (hconcerns : cause.concernsSettings = true) :
    Answers names key value before tuning (.error cause) where
  applied := hconcerns
  knows := iff_of_true hkey nofun
  accepts _ := iff_of_false nofun hnot

theorem accepted {next : σ} (hkey : key ∈ names) (hsensible : Sensible key value)
    (hset : Tuning.Overridden [(key, value)] before (tuning next)) :
    Answers names key value before tuning (.ok (some next)) where
  applied := hset
  knows := iff_of_true hkey nofun
  accepts _ := iff_of_true ⟨_, rfl⟩ hsensible

theorem unknown (hkey : key ∉ names) : Answers names key value before tuning (.ok none) where
  applied := trivial
  knows := iff_of_false hkey fun hne => hne rfl
  accepts h := absurd h hkey

theorem quantity {set : α → σ} (hkey : key ∈ names) (hquantity : ¬ IsCount key)
    (hset : Tuning.Overridden [(key, value)] before (tuning (set value))) :
    Answers names key value before tuning
      ((positive key value).map fun value => some (set value)) := by
  obtain ⟨hvalue, hfinite, hpos⟩ | ⟨cause, hcause, hconcerns, hnot⟩ := positive_cases key value
  · rw [hvalue]
    exact .accepted hkey ⟨hfinite, hpos, fun hcount => absurd hcount hquantity⟩ hset
  · rw [hcause]
    exact .refused hkey (fun hsensible => hnot ⟨hsensible.finite, hsensible.positive⟩) hconcerns

theorem count {set : Nat → σ} (hkey : key ∈ names) (hcount : IsCount key)
    (hset : Tuning.Overridden [(key, value)] before
      (tuning (set (min (Scalar.floor value) countLimit)))) :
    Answers names key value before tuning
      ((positiveCount key value).map fun n => some (set n)) := by
  unfold positiveCount
  obtain ⟨hvalue, hfinite, hpos⟩ | ⟨cause, hcause, hconcerns, hnot⟩ := positive_cases key value
  · rw [hvalue]
    by_cases hwhole : Scalar.same (Scalar.ofNat (Scalar.floor value)) value = true
    · simp only [hwhole, if_true]
      exact .accepted hkey ⟨hfinite, hpos, fun _ => hwhole⟩ hset
    · simp only [hwhole, Bool.false_eq_true, if_false]
      exact .refused hkey (fun hsensible => hwhole (hsensible.whole hcount)) rfl
  · rw [hcause]
    exact .refused hkey (fun hsensible => hnot ⟨hsensible.finite, hsensible.positive⟩) hconcerns

end Answers

end Setting

theorem Core.applyNewton?_keeps {core next : Core α} {key : String} {value : α}
    (happly : core.applyNewton? key value = .ok (some next)) :
    next = { core with newton := next.newton } := by
  unfold applyNewton? at happly
  split at happly
  · cases hcount : Setting.positiveCount key value <;> rw [hcount] at happly <;> cases happly
    rfl
  · split at happly
    · cases hvalue : Setting.positive key value <;> rw [hvalue] at happly <;> cases happly
      rfl
    · cases happly

theorem Core.applyNewton?_answers (core : Core α) (bdf? : Option (BdfSettings α)) (key : String)
    (value : α) :
    Setting.Answers Setting.newtonNames key value ⟨core.newton, bdf?⟩
      (fun next : Core α => ⟨next.newton, bdf?⟩) (core.applyNewton? key value) := by
  unfold applyNewton?
  split
  · next hkey =>
    subst hkey
    exact .count (by decide) (.inl rfl) (.of_set (i := 0) rfl rfl rfl)
  · next hiterations =>
    split
    · next hkey =>
      subst hkey
      exact .quantity (by decide) (by unfold Setting.IsCount; decide)
        (.of_set (i := 1) rfl rfl rfl)
    · next htolerance =>
      exact .unknown (by simp [Setting.newtonNames, hiterations, htolerance])

theorem BdfSettings.set?_answers (settings : BdfSettings α) (newton : NewtonSettings α)
    (key : String) (value : α) :
    Setting.Answers Setting.bdfNames key value ⟨newton, some settings⟩
      (fun next : BdfSettings α => ⟨newton, some next⟩) (settings.set? key value) := by
  by_cases hkey : key ∈ Setting.bdfNames
  · have hquantity : key ≠ "max_order" → key ≠ "newton_max_iterations" → ¬ Setting.IsCount key :=
      fun horder hiterations hcount => hcount.elim hiterations horder
    unfold set?
    simp only [Setting.bdfNames, List.mem_cons, List.not_mem_nil, or_false] at hkey
    rcases hkey with rfl | rfl | rfl | rfl | rfl | rfl | rfl
    · exact .quantity (by decide) (hquantity (by decide) (by decide)) (.of_set (i := 2) rfl rfl rfl)
    · exact .quantity (by decide) (hquantity (by decide) (by decide)) (.of_set (i := 3) rfl rfl rfl)
    · exact .quantity (by decide) (hquantity (by decide) (by decide)) (.of_set (i := 4) rfl rfl rfl)
    · exact .quantity (by decide) (hquantity (by decide) (by decide)) (.of_set (i := 5) rfl rfl rfl)
    · exact .quantity (by decide) (hquantity (by decide) (by decide)) (.of_set (i := 6) rfl rfl rfl)
    · exact .count (by decide) (.inr rfl) (.of_set (i := 7) rfl rfl rfl)
    · exact .quantity (by decide) (hquantity (by decide) (by decide)) (.of_set (i := 8) rfl rfl rfl)
  · have hnone : settings.set? key value = .ok none := by
      simp only [Setting.bdfNames, List.mem_cons, List.not_mem_nil, or_false, not_or] at hkey
      simp [set?, hkey]
    rw [hnone]
    exact .unknown hkey

end ImplicitDynamics
