import ImplicitDynamics.Proofs.Lexemes
import Mathlib.Data.List.Basic
import Mathlib.Data.List.TakeWhile

/-!
# Texts taken apart

What trimming leaves of a text is the part between the blanks around it, and
what cutting and splitting give are the parts between separators.  Each function
is described by how its result is put together again, so that a text can be read
back as it was written.
-/

namespace ImplicitDynamics

theorem isBlank_of_isPart {c : Char} (hc : Name.isPart c = true) : Text.isBlank c = false := by
  by_cases hdigit : c.isDigit = true
  · exact isBlank_of_isDigit hdigit
  · apply isBlank_of_isStart
    simpa [Name.isPart, Name.isStart, Char.isAlphanum, hdigit] using hc

namespace Text

variable {p : Char → Bool} {text before after : List Char} {c : Char}

def Blank (text : List Char) : Prop :=
  ∀ c ∈ text, isBlank c = true

instance (text : List Char) : Decidable (Blank text) :=
  decidable_of_iff (text.all isBlank = true) List.all_eq_true

/-- Neither the first nor the last character is a blank. -/
structure Tight (text : List Char) : Prop where
  head : ∀ c ∈ text.head?, isBlank c = false
  last : ∀ c ∈ text.getLast?, isBlank c = false

/-- A text with blanks around it. -/
def Padded (core text : List Char) : Prop :=
  ∃ before after, Blank before ∧ Blank after ∧ text = before ++ core ++ after

theorem Padded.refl (core : List Char) : Padded core core :=
  ⟨[], [], List.forall_mem_nil _, List.forall_mem_nil _, by simp⟩

theorem tight_of_forall (htext : ∀ c ∈ text, isBlank c = false) : Tight text where
  head c hc := htext c (List.mem_of_mem_head? hc)
  last c hc := htext c (List.mem_of_getLast? hc)

theorem Tight.append (hbefore : Tight before) (hbefore' : before ≠ []) (hafter : Tight after)
    (hafter' : after ≠ []) : Tight (before ++ (text ++ after)) where
  head c hc := by
    rcases List.exists_cons_of_ne_nil hbefore' with ⟨first, rest, rfl⟩
    exact hbefore.head c hc
  last c hc := by
    rw [← List.append_assoc, List.getLast?_append_of_ne_nil _ hafter'] at hc
    exact hafter.last c hc

theorem dropEndWhile_append {run : List Char} (hrun : ∀ c ∈ run, p c = true)
    (hapart : ∀ c ∈ text.getLast?, p c = false) : dropEndWhile p (text ++ run) = text := by
  have hreverse : (run.reverse ++ text.reverse).dropWhile p = text.reverse := by
    refine dropWhile_append_of_apart (fun c hc => hrun c (List.mem_reverse.mp hc)) ?_
    rwa [List.head?_reverse]
  rw [dropEndWhile, List.reverse_append, hreverse, List.reverse_reverse]

theorem dropEndWhile_append_run (p : Char → Bool) (text : List Char) :
    dropEndWhile p text ++ (text.reverse.takeWhile p).reverse = text := by
  rw [dropEndWhile, ← List.reverse_append, List.takeWhile_append_dropWhile, List.reverse_reverse]

theorem apart_dropWhile (p : Char → Bool) (text : List Char) :
    ∀ c ∈ (text.dropWhile p).head?, p c = false := by
  intro c hc
  have hhead := List.head?_dropWhile_not p text
  rw [Option.mem_def.mp hc] at hhead
  exact hhead

theorem apart_dropEndWhile (p : Char → Bool) (text : List Char) :
    ∀ c ∈ (dropEndWhile p text).getLast?, p c = false := by
  rw [dropEndWhile, List.getLast?_reverse]
  exact apart_dropWhile p text.reverse

theorem trim_of_padded {core : List Char} (hcore : Tight core) (htext : Padded core text) :
    trim text = core := by
  rcases htext with ⟨before, after, hbefore, hafter, rfl⟩
  rw [trim, trimStart, List.append_assoc]
  cases core with
  | nil =>
      have hblank : ∀ c ∈ before ++ after, isBlank c = true := by
        rw [List.forall_mem_append]
        exact ⟨hbefore, hafter⟩
      have hdrop := @dropWhile_append_of_apart isBlank (before ++ after) [] hblank (by simp)
      rw [List.append_nil] at hdrop
      rw [List.nil_append, hdrop]
      rfl
  | cons c rest =>
      rw [dropWhile_append_of_apart hbefore (by simpa using hcore.head)]
      exact dropEndWhile_append hafter hcore.last

theorem trim_of_tight (htext : Tight text) : trim text = text :=
  trim_of_padded htext (.refl text)

theorem padded_trim (text : List Char) : Padded (trim text) text := by
  refine ⟨text.takeWhile isBlank, ((trimStart text).reverse.takeWhile isBlank).reverse,
    ?_, ?_, ?_⟩
  · intro c hc
    exact List.mem_takeWhile_imp hc
  · intro c hc
    exact List.mem_takeWhile_imp (List.mem_reverse.mp hc)
  · rw [List.append_assoc, trim, dropEndWhile_append_run, trimStart,
      List.takeWhile_append_dropWhile]

theorem tight_trim (text : List Char) : Tight (trim text) where
  head c hc := by
    -- what is dropped from the end leaves the first character, if there still is one
    have hstart : trim text ++ ((trimStart text).reverse.takeWhile isBlank).reverse =
        trimStart text := dropEndWhile_append_run isBlank (trimStart text)
    apply apart_dropWhile isBlank text
    change c ∈ (trimStart text).head?
    rw [← hstart, List.head?_append, Option.mem_def.mp hc]
    rfl
  last := apart_dropEndWhile isBlank (trimStart text)

theorem trim_eq_iff {core : List Char} : trim text = core ↔ Tight core ∧ Padded core text := by
  constructor
  · rintro rfl
    exact ⟨tight_trim text, padded_trim text⟩
  · rintro ⟨hcore, htext⟩
    exact trim_of_padded hcore htext

/-! ## Separators -/

theorem exists_first (p : Char → Bool) (text : List Char) :
    (∀ c ∈ text, p c = false) ∨
      ∃ before c after, text = before ++ c :: after ∧ (∀ b ∈ before, p b = false) ∧ p c = true := by
  cases hfind : text.find? p with
  | none =>
      left
      simpa using hfind
  | some c =>
      right
      rcases List.find?_eq_some_iff_append.mp hfind with ⟨hc, before, after, rfl, hbefore⟩
      exact ⟨before, c, after, rfl, by simpa using hbefore, hc⟩

theorem pieces_append (hbefore : ∀ b ∈ before, p b = false) (hc : p c = true) :
    pieces p (before ++ c :: after) = before :: pieces p after := by
  induction before with
  | nil => simp [pieces, hc]
  | cons b before ih =>
      rw [List.forall_mem_cons] at hbefore
      rw [List.cons_append, pieces, hbefore.1, ih hbefore.2]
      rfl

theorem pieces_of_forall (htext : ∀ c ∈ text, p c = false) : pieces p text = [text] := by
  induction text with
  | nil => rfl
  | cons c text ih =>
      rw [List.forall_mem_cons] at htext
      rw [pieces, htext.1, ih htext.2]
      rfl

theorem pieces_ne_nil (p : Char → Bool) (text : List Char) : pieces p text ≠ [] := by
  rcases exists_first p text with hall | ⟨before, c, after, rfl, hbefore, hc⟩
  · simp [pieces_of_forall hall]
  · simp [pieces_append hbefore hc]

theorem pieces_eq_singleton_iff {piece : List Char} :
    pieces p text = [piece] ↔ text = piece ∧ ∀ c ∈ text, p c = false := by
  rcases exists_first p text with hall | ⟨before, c, after, rfl, hbefore, hc⟩
  · simpa [pieces_of_forall hall] using fun _ => hall
  · constructor
    · intro hpieces
      rw [pieces_append hbefore hc] at hpieces
      exact absurd (List.cons.inj hpieces).2 (pieces_ne_nil p after)
    · rintro ⟨-, hall⟩
      exact absurd (hall c (by simp)) (by simp [hc])

theorem pieces_eq_pair_iff {left right : List Char} :
    pieces p text = [left, right] ↔
      ∃ c, text = left ++ c :: right ∧ p c = true ∧ (∀ b ∈ left, p b = false) ∧
        ∀ b ∈ right, p b = false := by
  constructor
  · intro hpieces
    rcases exists_first p text with hall | ⟨before, c, after, rfl, hbefore, hc⟩
    · simp [pieces_of_forall hall] at hpieces
    · rw [pieces_append hbefore hc, List.cons.injEq, pieces_eq_singleton_iff] at hpieces
      rcases hpieces with ⟨rfl, rfl, hafter⟩
      exact ⟨c, rfl, hc, hbefore, hafter⟩
  · rintro ⟨c, rfl, hc, hleft, hright⟩
    rw [pieces_append hleft hc, pieces_of_forall hright]

theorem cut?_append (hbefore : ∀ b ∈ before, p b = false) (hc : p c = true) :
    cut? p (before ++ c :: after) = some (before, after) := by
  induction before with
  | nil => simp [cut?, hc]
  | cons b before ih =>
      rw [List.forall_mem_cons] at hbefore
      rw [List.cons_append, cut?, hbefore.1, ih hbefore.2]
      rfl

theorem cut?_of_forall (htext : ∀ c ∈ text, p c = false) : cut? p text = none := by
  induction text with
  | nil => rfl
  | cons c text ih =>
      rw [List.forall_mem_cons] at htext
      rw [cut?, htext.1, ih htext.2]
      rfl

theorem pieces_flatMap {parts : List (List Char)} (hc : p c = true)
    (hparts : ∀ part ∈ parts, ∀ b ∈ part, p b = false) :
    pieces p (parts.flatMap (· ++ [c])) = parts ++ [[]] := by
  induction parts with
  | nil => rfl
  | cons part parts ih =>
      rw [List.forall_mem_cons] at hparts
      rw [List.flatMap_cons, List.append_assoc, List.singleton_append,
        pieces_append hparts.1 hc, ih hparts.2, List.cons_append]

/-- A line feed after each part makes the parts lines, unless a carriage return ends one. -/
theorem lines_flatMap {parts : List (List Char)}
    (hparts : ∀ part ∈ parts, '\n' ∉ part ∧ part.getLast? ≠ some '\r') :
    lines (parts.flatMap (· ++ ['\n'])) = parts := by
  have hpieces : pieces (· = '\n') (parts.flatMap (· ++ ['\n'])) = parts ++ [[]] := by
    refine pieces_flatMap (by decide) fun part hpart b hb => ?_
    rw [decide_eq_false_iff_not]
    rintro rfl
    exact (hparts part hpart).1 hb
  have hkept : parts.map dropReturn = parts.map id :=
    List.map_congr_left fun part hpart => if_neg (hparts part hpart).2
  rw [List.map_id] at hkept
  simp only [lines, hpieces, List.dropLast_concat, List.getLast?_concat, hkept]

end Text

namespace Name

theorem isPart_of_isIdentifier {name : String} (hname : isIdentifier name = true) :
    ∀ c ∈ name.toList, isPart c = true := by
  unfold isIdentifier at hname
  split at hname
  · cases hname
  · next first rest hlist =>
    rw [Bool.and_eq_true, List.all_eq_true] at hname
    rw [hlist, List.forall_mem_cons]
    exact ⟨isPart_of_isStart hname.1, hname.2⟩

theorem tight_of_isIdentifier {name : String} (hname : isIdentifier name = true) :
    Text.Tight name.toList :=
  Text.tight_of_forall fun c hc => isBlank_of_isPart (isPart_of_isIdentifier hname c hc)

theorem toList_ne_nil_of_isIdentifier {name : String} (hname : isIdentifier name = true) :
    name.toList ≠ [] := by
  intro hnil
  simp [isIdentifier, hnil] at hname

end Name

end ImplicitDynamics
