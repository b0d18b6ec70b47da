import ImplicitDynamics.Proofs.Texts

/-!
# What scanning makes of a text

A text is cut into lexemes and blanks, without regard to what stands next to what:
`1.2.3` is the numbers `1.2` and `.3`.  The scanner either cuts the whole text so,
or it stops at the first character that no expression is written with, and then it
has cut all that stands before.  From this one account of its results follow the
texts that it reads, the place at which it stops, and that the tokens still say
what the text said.
-/

namespace ImplicitDynamics

/-- A character with what follows it can be part of an expression: blanks, letters,
digits, underscores, operators, parentheses and commas always, a point only right
before a digit. -/
def Readable (c : Char) (following : List Char) : Prop :=
  Text.isBlank c = true ∨ c.isAlphanum = true ∨ c = '_' ∨
    c ∈ ['+', '-', '*', '/', '^', '(', ')', ','] ∨
    c = '.' ∧ ∃ d ∈ following.head?, d.isDigit = true

/-- All characters of a text are readable where they stand; `after` is what follows
the text. -/
def Legible (text after : List Char) : Prop :=
  ∀ before c rest, text = before ++ c :: rest → Readable c (rest ++ after)

namespace Readable

variable {c : Char} {following : List Char}

theorem of_isPart (hc : Name.isPart c = true) : Readable c following := by
  rcases (Bool.or_eq_true _ _).mp hc with halphanum | hunderscore
  · exact .inr (.inl halphanum)
  · exact .inr (.inr (.inl (of_decide_eq_true hunderscore)))

theorem of_isDigit (hc : c.isDigit = true) : Readable c following :=
  of_isPart (isPart_of_isDigit hc)

end Readable

namespace Legible

variable {c : Char} {text first second after : List Char}

@[simp] theorem nil (after : List Char) : Legible [] after := by
  simp [Legible]

@[simp] theorem cons_iff :
    Legible (c :: text) after ↔ Readable c (text ++ after) ∧ Legible text after := by
  constructor
  · intro hlegible
    refine ⟨hlegible [] c text rfl, fun before d rest htext => ?_⟩
    exact hlegible (c :: before) d rest (by rw [htext, List.cons_append])
  · rintro ⟨hc, hlegible⟩ before d rest htext
    rcases List.cons_eq_append_iff.mp htext with ⟨rfl, hd⟩ | ⟨tail, rfl, htail⟩
    · cases hd
      exact hc
    · exact hlegible tail d rest htail

theorem append_iff :
    Legible (first ++ second) after ↔ Legible first (second ++ after) ∧ Legible second after := by
  induction first with
  | nil => simp
  | cons c first ih => simp [ih, and_assoc]

theorem digits (htext : ∀ c ∈ text, c.isDigit = true) : Legible text after :=
  fun before c rest hsplit => .of_isDigit (htext c (by simp [hsplit]))

end Legible

theorem legible_lexeme (lexeme : Lexeme) (after : List Char) : Legible lexeme.text after := by
  cases lexeme with
  | number n =>
      simp only [Lexeme.text, WrittenNumber.text]
      split
      · exact .digits n.whole_isDigit
      · next hfraction =>
        obtain ⟨d, digits, hdigits⟩ := List.exists_cons_of_ne_nil hfraction
        have hd : d.isDigit = true := n.fraction_isDigit d (by simp [hdigits])
        rw [Legible.append_iff, Legible.cons_iff]
        refine ⟨.digits n.whole_isDigit, ?_, .digits n.fraction_isDigit⟩
        exact .inr (.inr (.inr (.inr ⟨rfl, d, by simp [hdigits], hd⟩)))
  | word w =>
      intro before c rest hsplit
      have hc : c ∈ w.text := by
        rw [show w.text = before ++ c :: rest from hsplit]
        simp
      exact .of_isPart (w.isPart_of_mem hc)
  | operator op =>
      have hop : Readable op.char after := by
        refine .inr (.inr (.inr (.inl ?_)))
        cases op <;> decide
      simpa [Lexeme.text] using hop
  | leftParen | rightParen | comma => simp [Lexeme.text, Readable]

/-- A text that consists of lexemes in this order and of blanks, whatever stands next
to what. -/
inductive Segmented : List Lexeme → List Char → Prop where
  | done : Segmented [] []
  | blank {c : Char} {lexemes : List Lexeme} {text : List Char} (hc : Text.isBlank c = true)
      (hrest : Segmented lexemes text) : Segmented lexemes (c :: text)
  | next {lexeme : Lexeme} {lexemes : List Lexeme} {text : List Char}
      (hrest : Segmented lexemes text) : Segmented (lexeme :: lexemes) (lexeme.text ++ text)

theorem isBlank_text (lexeme : Lexeme) : ∀ c ∈ lexeme.text, Text.isBlank c = false := by
  cases lexeme with
  | number n =>
      intro c hc
      rcases n.isDigit_or_point hc with hdigit | rfl
      · exact isBlank_of_isDigit hdigit
      · decide
  | word w => exact fun c hc => isBlank_of_isPart (w.isPart_of_mem hc)
  | operator op =>
      rw [Lexeme.text, List.forall_mem_singleton]
      cases op <;> decide
  | leftParen | rightParen | comma =>
      rw [Lexeme.text, List.forall_mem_singleton]
      decide

namespace Segmented

variable {lexemes : List Lexeme} {text : List Char}

theorem legible (hsegmented : Segmented lexemes text) (after : List Char) :
    Legible text after := by
  induction hsegmented with
  | done => exact .nil after
  | blank hc _ ih => exact Legible.cons_iff.mpr ⟨.inl hc, ih⟩
  | next _ ih => exact Legible.append_iff.mpr ⟨legible_lexeme _ _, ih⟩

theorem flatMap_text (hsegmented : Segmented lexemes text) :
    lexemes.flatMap Lexeme.text = text.filter fun c => !Text.isBlank c := by
  induction hsegmented with
  | done => rfl
  | blank hc _ ih => simpa [hc] using ih
  | @next lexeme _ _ _ ih =>
      have hkept : (lexeme.text.filter fun c => !Text.isBlank c) = lexeme.text :=
        List.filter_eq_self.mpr fun c hc => by simp [isBlank_text lexeme c hc]
      rw [List.flatMap_cons, List.filter_append, hkept, ih]

end Segmented

/-! ## What the scanner takes -/

namespace Token

variable {c : Char} {rest : List Char}

/-- Without a fraction a number has to begin with a digit. -/
theorem takeWhile_ne_nil (hstart : startsNumber c rest = true)
    (hfraction : ∀ d after, (c :: rest).dropWhile Char.isDigit = '.' :: d :: after →
      ¬ d.isDigit = true) : (c :: rest).takeWhile Char.isDigit ≠ [] := by
  by_cases hc : c.isDigit = true
  · simp [hc]
  · cases rest with
    | nil => simp [startsNumber, hc] at hstart
    | cons d after =>
        obtain ⟨rfl, hd⟩ : c = '.' ∧ d.isDigit = true := by simpa [startsNumber, hc] using hstart
        exact absurd hd (hfraction d after (by simp))

theorem exists_number (hstart : startsNumber c rest = true) :
    ∃ number : WrittenNumber, (spanNumber (c :: rest)).1 = number.text ∧
      c :: rest = number.text ++ (spanNumber (c :: rest)).2 := by
  have hdigits : ∀ text : List Char, ∀ d ∈ text.takeWhile Char.isDigit, d.isDigit = true :=
    fun text d hd => List.mem_takeWhile_imp hd
  have hparts := (List.takeWhile_append_dropWhile (p := Char.isDigit) (l := c :: rest)).symm
  have hplain := takeWhile_ne_nil hstart
  unfold spanNumber
  simp only
  split
  · next d after hafter =>
    rw [hafter] at hparts hplain
    split
    · next hd =>
      refine ⟨⟨_, (d :: after).takeWhile Char.isDigit, hdigits (c :: rest), hdigits _,
        .inr (by simp [hd])⟩, ?_⟩
      simpa [WrittenNumber.text, hd] using hparts
    · next hd =>
      refine ⟨⟨_, [], hdigits (c :: rest), List.forall_mem_nil _, .inl (hplain ?_)⟩, ?_⟩
      · rintro e others heq
        cases heq
        exact hd
      · simpa [WrittenNumber.text] using hparts
  · next hother =>
    refine ⟨⟨_, [], hdigits (c :: rest), List.forall_mem_nil _, .inl (hplain ?_)⟩, ?_⟩
    · exact fun d after hafter => absurd hafter (hother d after)
    · simp [WrittenNumber.text]

theorem exists_word (hstart : Name.isStart c = true) :
    ∃ word : Word, (spanWord (c :: rest)).1 = word.text ∧
      c :: rest = word.text ++ (spanWord (c :: rest)).2 := by
  have hpart : Name.isPart c = true := isPart_of_isStart hstart
  refine ⟨⟨c, rest.takeWhile Name.isPart, hstart, fun d hd => List.mem_takeWhile_imp hd⟩, ?_⟩
  simp [spanWord, Word.text, hpart]

/-- A character that is read by itself is a lexeme. -/
theorem exists_mark {operandDue due : Bool} {tokens : List Token}
    (htokens : ofChar? operandDue c = some (tokens, due)) :
    ∃ lexeme : Lexeme, lexeme.text = [c] ∧ tokens = lexeme.tokens operandDue ∧
      due = lexeme.leavesDue := by
  unfold ofChar? at htokens
  split at htokens
  · next hsign =>
    cases htokens
    obtain ⟨rfl, rfl⟩ := by simpa using hsign
    exact ⟨.operator .sub, rfl, rfl, rfl⟩
  · next hsign =>
    split at htokens
    · next op hop =>
      cases htokens
      have hchar : op.char = c := by simpa using List.find?_some hop
      subst hchar
      refine ⟨.operator op, rfl, ?_, rfl⟩
      rw [Lexeme.tokens, if_neg]
      rintro ⟨rfl, rfl⟩
      exact hsign rfl
    · split at htokens
      · next hparen =>
        cases htokens
        subst hparen
        exact ⟨.leftParen, rfl, rfl, rfl⟩
      · split at htokens
        · next hparen =>
          cases htokens
          subst hparen
          exact ⟨.rightParen, rfl, rfl, rfl⟩
        · split at htokens
          · next hcomma =>
            cases htokens
            subst hcomma
            exact ⟨.comma, rfl, rfl, rfl⟩
          · cases htokens

theorem not_readable {operandDue : Bool} (hblank : ¬ Text.isBlank c = true)
    (hnumber : ¬ startsNumber c rest = true) (hword : ¬ Name.isStart c = true)
    (hmark : ofChar? operandDue c = none) : ¬ Readable c rest := by
  have hdigit : c.isDigit = false := by
    rw [startsNumber, Bool.or_eq_true] at hnumber
    simpa using fun h => hnumber (.inl h)
  rintro (h | h | h | h | ⟨rfl, d, hd, h⟩)
  · exact hblank h
  · rw [Char.isAlphanum, hdigit, Bool.or_false] at h
    exact hword (by simp [Name.isStart, h])
  · exact hword (by simp [Name.isStart, h])
  · simp only [List.mem_cons, List.not_mem_nil, or_false] at h
    rcases h with rfl | rfl | rfl | rfl | rfl | rfl | rfl | rfl <;>
      cases operandDue <;> revert hmark <;> decide
  · rw [Option.mem_def] at hd
    exact hnumber (by simp [startsNumber, hd, h])

/-- The ends that scanning can come to. -/
inductive Outcome (operandDue : Bool) (position : Nat) (text : List Char) :
    Except (Char × Nat) (List Token) → Prop where
  | complete {lexemes : List Lexeme} (htext : Segmented lexemes text) :
      Outcome operandDue position text (.ok (Lexeme.tokensOf operandDue lexemes))
  | stopped {lexemes : List Lexeme} {before after : List Char} {c : Char}
      (hbefore : Segmented lexemes before) (hc : ¬ Readable c after)
      (htext : text = before ++ c :: after) :
      Outcome operandDue position text (.error (c, position + before.length))

namespace Outcome

variable {operandDue : Bool} {position : Nat} {text : List Char}
  {result : Except (Char × Nat) (List Token)}

theorem blank (hc : Text.isBlank c = true)
    (hresult : Outcome operandDue (position + 1) text result) :
    Outcome operandDue position (c :: text) result := by
  cases hresult with
  | complete htext => exact .complete (.blank hc htext)
  | @stopped _ before after d hbefore hd htext =>
      rw [htext, Nat.add_assoc, Nat.add_comm 1]
      exact .stopped (.blank hc hbefore) hd rfl

theorem lexeme (lexeme : Lexeme)
    (hresult : Outcome lexeme.leavesDue (position + lexeme.text.length) text result) :
    Outcome operandDue position (lexeme.text ++ text)
      (result.map (lexeme.tokens operandDue ++ ·)) := by
  cases hresult with
  | complete htext => exact .complete (.next htext)
  | @stopped _ before after d hbefore hd htext =>
      rw [htext, Nat.add_assoc, ← List.length_append, ← List.append_assoc]
      exact .stopped (.next hbefore) hd rfl

end Outcome

theorem outcome_scan (operandDue : Bool) (position : Nat) (text : List Char) :
    Outcome operandDue position text (scan operandDue position text) := by
  fun_induction scan operandDue position text with
  | case1 => exact .complete .done
  | case2 operandDue position c rest hblank ih => exact ih.blank hblank
  | case3 operandDue position c rest hblank hnumber span hshorter ih =>
      obtain ⟨number, hspan, htext⟩ := exists_number hnumber
      have hread := @Outcome.lexeme operandDue position _ _ (.number number) (hspan ▸ ih)
      rw [htext, show span.1 = number.text from hspan]
      exact hread
  | case4 operandDue position c rest hblank hnumber hword span hshorter token ih =>
      obtain ⟨word, hspan, htext⟩ := @exists_word c rest hword
      have htoken : token = ofWord word.text := congrArg ofWord hspan
      rw [htoken, kind_ofWord, show span.1 = word.text from hspan] at ih
      rw [htext, htoken, kind_ofWord, show span.1 = word.text from hspan]
      exact Outcome.lexeme (.word word) ih
  | case5 operandDue position c rest hblank hnumber hword tokens due hmark ih =>
      obtain ⟨lexeme, htext, rfl, rfl⟩ := exists_mark hmark
      have hlength : lexeme.text.length = 1 := by rw [htext]; rfl
      rw [← List.singleton_append, ← htext]
      exact Outcome.lexeme lexeme (hlength ▸ ih)
  | case6 operandDue position c rest hblank hnumber hword hmark =>
      exact .stopped .done (not_readable hblank hnumber hword hmark) rfl

/-! ## Tokens written down again -/

/-- The texts of tokens one after the other, with the sign that a multiplication by
`-1` stands for in place of the two tokens of it. -/
def spelling : List Token → List Char
  | [] => []
  | [token] => token.text.toList
  | first :: second :: rest =>
    if [first, second] = negation then '-' :: spelling rest
    else first.text.toList ++ spelling (second :: rest)

theorem spelling_negation (rest : List Token) :
    spelling (negation ++ rest) = '-' :: spelling rest := by
  rw [negation, List.cons_append, List.cons_append, List.nil_append, spelling]
  exact if_pos rfl

theorem spelling_cons {token : Token} (htext : token.text ≠ "-1") (rest : List Token) :
    spelling (token :: rest) = token.text.toList ++ spelling rest := by
  cases rest with
  | nil => simp [spelling]
  | cons second rest =>
      rw [spelling, if_neg]
      rintro heq
      cases heq
      exact htext rfl

end Token

namespace Lexeme

theorem ne_minusOne {text : List Char} (htext : '-' ∉ text) : String.ofList text ≠ "-1" := by
  intro heq
  have hlist := congrArg String.toList heq
  rw [String.toList_ofList] at hlist
  exact htext (by rw [hlist]; decide)

/-- A lexeme is read as one token with its text, except for a sign. -/
theorem tokens_cases (operandDue : Bool) (lexeme : Lexeme) :
    lexeme.text = ['-'] ∧ lexeme.tokens operandDue = Token.negation ∨
      ∃ token : Token, lexeme.tokens operandDue = [token] ∧ token.unary = false ∧
        token.text ≠ "-1" ∧ token.text.toList = lexeme.text := by
  cases lexeme with
  | number n =>
      refine .inr ⟨_, rfl, rfl, ne_minusOne fun hmem => ?_, by simp [Token.plain, text]⟩
      rcases n.isDigit_or_point hmem with hdigit | hpoint
      · exact absurd hdigit (by decide)
      · exact absurd hpoint (by decide)
  | word w =>
      have hparts : (Token.ofWord w.text).unary = false ∧
          (Token.ofWord w.text).text = String.ofList w.text := by
        unfold Token.ofWord
        split <;> exact ⟨rfl, rfl⟩
      refine .inr ⟨_, rfl, hparts.1, ?_, by rw [hparts.2, String.toList_ofList, text]⟩
      rw [hparts.2]
      exact ne_minusOne fun hmem => absurd (w.isPart_of_mem hmem) (by decide)
  | operator op =>
      simp only [tokens]
      split
      · next hsign => exact .inl ⟨by rw [hsign.1]; rfl, rfl⟩
      · refine .inr ⟨_, rfl, rfl, ?_, ?_⟩ <;> cases op <;> decide
  | leftParen | rightParen | comma => exact .inr ⟨_, rfl, rfl, by decide, by decide⟩

/-- What holds of the tokens of each lexeme holds of all tokens. -/
theorem forall_mem_tokensOf {P : Token → Prop}
    (hlexeme : ∀ (operandDue : Bool) (lexeme : Lexeme), ∀ token ∈ lexeme.tokens operandDue, P token)
    (operandDue : Bool) (lexemes : List Lexeme) :
    ∀ token ∈ tokensOf operandDue lexemes, P token := by
  induction lexemes generalizing operandDue with
  | nil => exact List.forall_mem_nil _
  | cons lexeme rest ih =>
      rw [tokensOf_cons, List.forall_mem_append]
      exact ⟨hlexeme operandDue lexeme, ih _⟩

theorem spelling_tokensOf (operandDue : Bool) (lexemes : List Lexeme) :
    Token.spelling (tokensOf operandDue lexemes) = lexemes.flatMap text := by
  induction lexemes generalizing operandDue with
  | nil => rfl
  | cons lexeme rest ih =>
      rw [tokensOf_cons, List.flatMap_cons]
      rcases tokens_cases operandDue lexeme with
        ⟨htext, htokens⟩ | ⟨token, htokens, -, hne, htext⟩
      · rw [htext, htokens, Token.spelling_negation, ih]
        rfl
      · rw [htokens, List.singleton_append, Token.spelling_cons hne, htext, ih]

end Lexeme

theorem tokenize_cases (text : String) :
    (∃ lexemes, Segmented lexemes text.toList ∧
        tokenize text = .ok (Lexeme.tokensOf true lexemes)) ∨
      ∃ lexemes before c after, text.toList = before ++ c :: after ∧ Segmented lexemes before ∧
        ¬ Readable c after ∧ tokenize text = .error (.unexpectedCharacter c before.length text) := by
  have houtcome := Token.outcome_scan true 0 text.toList
  unfold tokenize
  generalize Token.scan true 0 text.toList = result at houtcome
  cases houtcome with
  | complete htext => exact .inl ⟨_, htext, rfl⟩
  | stopped hbefore hc htext =>
      exact .inr ⟨_, _, _, _, htext, hbefore, hc, by rw [Nat.zero_add]⟩

theorem exists_lexemes_of_tokenize {text : String} {tokens : List Token}
    (htokens : tokenize text = .ok tokens) :
    ∃ lexemes, Segmented lexemes text.toList ∧ tokens = Lexeme.tokensOf true lexemes := by
  rcases tokenize_cases text with
    ⟨lexemes, htext, hok⟩ | ⟨lexemes, before, c, after, -, -, -, herror⟩
  · cases hok.symm.trans htokens
    exact ⟨lexemes, htext, rfl⟩
  · cases herror.symm.trans htokens

theorem exists_tokenize_iff (text : String) :
    (∃ tokens, tokenize text = .ok tokens) ↔ Legible text.toList [] := by
  rcases tokenize_cases text with
    ⟨lexemes, htext, hok⟩ | ⟨lexemes, before, c, after, htext, -, hc, herror⟩
  · exact iff_of_true ⟨_, hok⟩ (htext.legible [])
  · refine iff_of_false (by simp [herror]) fun hlegible => hc ?_
    simpa using hlegible before c after htext

/-- Tokens that a text is read as say what the text says, blanks aside.  The reader
refuses a text exactly for a character that no expression is written with where it
stands; it names the first one and its position, and it reads what stands before. -/
theorem tokenize_accounts_for_text (text : String) :
    (∀ tokens, tokenize text = .ok tokens →
      Token.spelling tokens = text.toList.filter fun c => !Text.isBlank c) ∧
    ((∃ cause, tokenize text = .error cause) ↔
      ∃ before c after, text.toList = before ++ c :: after ∧ ¬ Readable c after) ∧
    ∀ cause, tokenize text = .error cause →
      ∃ before c after, text.toList = before ++ c :: after ∧ ¬ Readable c after ∧
        Legible before (c :: after) ∧ cause = .unexpectedCharacter c before.length text ∧
        ∃ tokens, tokenize (String.ofList before) = .ok tokens := by
  rcases tokenize_cases text with
    ⟨lexemes, htext, hok⟩ | ⟨lexemes, before, c, after, htext, hbefore, hc, herror⟩
  · refine ⟨fun tokens htokens => ?_, iff_of_false (by simp [hok]) ?_, by simp [hok]⟩
    · cases hok.symm.trans htokens
      rw [Lexeme.spelling_tokensOf, htext.flatMap_text]
    · rintro ⟨before, c, after, hsplit, hc⟩
      have hlegible := htext.legible [] before c after hsplit
      rw [List.append_nil] at hlegible
      exact hc hlegible
  · refine ⟨by simp [herror], iff_of_true ⟨_, herror⟩ ⟨before, c, after, htext, hc⟩, ?_⟩
    intro cause hcause
    have hread : ∃ tokens, tokenize (String.ofList before) = .ok tokens := by
      rw [exists_tokenize_iff, String.toList_ofList]
      exact hbefore.legible []
    cases herror.symm.trans hcause
    exact ⟨before, c, after, htext, hc, hbefore.legible _, rfl, hread⟩

/-- Two signs, and a point inside a number, before another one and behind a number. -/
theorem tokenize_accounts_for_points :
    (∃ tokens, tokenize "- x\t-1.2.3" = .ok tokens ∧
      Token.spelling tokens = "-x-1.2.3".toList) ∧
    (∃ cause, tokenize "..5" = .error cause) ∧
    ∃ before c after, "2^5.-y".toList = before ++ c :: after ∧ ¬ Readable c after ∧
      Legible before (c :: after) ∧
      ParseError.unexpectedCharacter '.' 3 "2^5.-y" =
        .unexpectedCharacter c before.length "2^5.-y" ∧
      ∃ tokens, tokenize (String.ofList before) = .ok tokens := by
  refine ⟨?_, ?_, ?_⟩
  · have hread := (tokenize_accounts_for_text "- x\t-1.2.3").1
    exact ⟨_, by with_unfolding_all rfl, hread _ (by with_unfolding_all rfl)⟩
  · refine (tokenize_accounts_for_text "..5").2.1.mpr ⟨[], '.', ['.', '5'], rfl, ?_⟩
    simp [Readable]
    decide
  · exact (tokenize_accounts_for_text "2^5.-y").2.2 _ (by with_unfolding_all rfl)

end ImplicitDynamics
