import ImplicitDynamics.Proofs.TokenGrammar

/-!
# Counting parentheses

Well-nested tokens are built up in groups, each with its own pair of parentheses.
Counted from the left, as many parentheses are closed at the end as are opened, and
nowhere more than are opened up to there.  What has to stand inside of a parenthesis
or before one can be seen at its place in the same way.
-/

namespace ImplicitDynamics

namespace Token

def opened (tokens : List Token) : Nat :=
  tokens.countP fun token => token.kind = .leftParen

def closed (tokens : List Token) : Nat :=
  tokens.countP fun token => token.kind = .rightParen

@[simp] theorem opened_append (first second : List Token) :
    opened (first ++ second) = opened first + opened second :=
  List.countP_append

@[simp] theorem closed_append (first second : List Token) :
    closed (first ++ second) = closed first + closed second :=
  List.countP_append

/-- Tokens inside as many parentheses as `outside` says: nothing is closed that has not
been opened among the tokens, and all of it is closed at the end.  Commas stand inside
a parenthesis, and behind each function but the derivative one is opened. -/
structure Parenthesized (outside : Nat) (tokens : List Token) : Prop where
  closed_le : ∀ before after, tokens = before ++ after → closed before ≤ opened before
  closed_eq : closed tokens = opened tokens
  comma : ∀ before token after, tokens = before ++ token :: after → token.kind = .comma →
    closed before < opened before + outside
  call : ∀ before token after, tokens = before ++ token :: after → token.kind = .function →
    Program.isDerivative token = false →
    ∃ opening rest, after = opening :: rest ∧ opening.kind = .leftParen

theorem append_eq_append_cons {first second before after : List Token} {token : Token}
    (hsplit : first ++ second = before ++ token :: after) :
    (∃ tail, first = before ++ token :: tail ∧ after = tail ++ second) ∨
      ∃ head, before = first ++ head ∧ second = head ++ token :: after := by
  rcases List.append_eq_append_iff.mp hsplit with ⟨head, rfl, rfl⟩ | ⟨tail, rfl, htail⟩
  · exact .inr ⟨head, rfl, rfl⟩
  · cases tail with
    | nil => exact .inr ⟨[], by simp, htail.symm⟩
    | cons other tail =>
        obtain ⟨rfl, rfl⟩ := List.cons.inj htail
        exact .inl ⟨tail, rfl, rfl⟩

theorem singleton_eq_append_cons {last token : Token} {before after : List Token}
    (hsplit : [last] = before ++ token :: after) : before = [] ∧ token = last ∧ after = [] := by
  simpa [List.singleton_eq_append_iff] using hsplit

namespace Parenthesized

variable {outside : Nat} {first second inner : List Token}

theorem nil : Parenthesized outside [] where
  closed_le := by simp [closed]
  closed_eq := rfl
  comma := by simp
  call := by simp

theorem append (hfirst : Parenthesized outside first) (hsecond : Parenthesized outside second) :
    Parenthesized outside (first ++ second) where
  closed_le before after hsplit := by
    have hwhole := hfirst.closed_eq
    rcases List.append_eq_append_iff.mp hsplit with ⟨head, rfl, rfl⟩ | ⟨tail, rfl, -⟩
    · have hhead := hsecond.closed_le head after rfl
      simp only [closed_append, opened_append]
      omega
    · exact hfirst.closed_le before tail rfl
  closed_eq := by
    simp only [closed_append, opened_append, hfirst.closed_eq, hsecond.closed_eq]
  comma before token after hsplit hkind := by
    have hwhole := hfirst.closed_eq
    rcases append_eq_append_cons hsplit with ⟨tail, rfl, -⟩ | ⟨head, rfl, rfl⟩
    · exact hfirst.comma before token tail rfl hkind
    · have hhead := hsecond.comma head token after rfl hkind
      simp only [closed_append, opened_append]
      omega
  call before token after hsplit hkind hword := by
    rcases append_eq_append_cons hsplit with ⟨tail, rfl, rfl⟩ | ⟨head, rfl, rfl⟩
    · obtain ⟨opening, rest, rfl, hopening⟩ := hfirst.call before token tail rfl hkind hword
      exact ⟨opening, rest ++ second, rfl, hopening⟩
    · exact hsecond.call head token after rfl hkind hword

theorem mono (hinner : Parenthesized outside inner) {more : Nat} (hle : outside ≤ more) :
    Parenthesized more inner where
  closed_le := hinner.closed_le
  closed_eq := hinner.closed_eq
  comma before token after hsplit hkind := by
    have hcomma := hinner.comma before token after hsplit hkind
    omega
  call := hinner.call

theorem cons {word : Token} (hopening : word.kind ≠ .leftParen) (hclosing : word.kind ≠ .rightParen)
    (hcomma : word.kind ≠ .comma)
    (hcall : word.kind = .function → Program.isDerivative word = false →
      ∃ opening rest, inner = opening :: rest ∧ opening.kind = .leftParen)
    (hinner : Parenthesized outside inner) : Parenthesized outside (word :: inner) := by
  have hopened : ∀ tokens, opened (word :: tokens) = opened tokens :=
    fun tokens => List.countP_cons_of_neg (by simp [hopening])
  have hclosed : ∀ tokens, closed (word :: tokens) = closed tokens :=
    fun tokens => List.countP_cons_of_neg (by simp [hclosing])
  refine ⟨fun before after hsplit => ?_, ?_, fun before token after hsplit hkind => ?_,
    fun before token after hsplit hkind hword => ?_⟩
  · rcases List.cons_eq_append_iff.mp hsplit with ⟨rfl, -⟩ | ⟨rest, rfl, rfl⟩
    · exact Nat.le_refl _
    · rw [hopened, hclosed]
      exact hinner.closed_le rest after rfl
  · rw [hopened, hclosed, hinner.closed_eq]
  · rcases List.cons_eq_append_iff.mp hsplit with ⟨-, hfirst⟩ | ⟨rest, rfl, rfl⟩
    · cases hfirst
      exact absurd hkind hcomma
    · rw [hopened, hclosed]
      exact hinner.comma rest token after rfl hkind
  · rcases List.cons_eq_append_iff.mp hsplit with ⟨-, hfirst⟩ | ⟨rest, rfl, rfl⟩
    · cases hfirst
      exact hcall hkind hword
    · exact hinner.call rest token after rfl hkind hword

theorem single_comma {token : Token} (hkind : token.kind = .comma) :
    Parenthesized (outside + 1) [token] := by
  have hopened : opened [token] = 0 := List.countP_cons_of_neg (by simp [hkind])
  have hclosed : closed [token] = 0 := List.countP_cons_of_neg (by simp [hkind])
  refine ⟨fun before after hsplit => ?_, by rw [hopened, hclosed],
    fun before other after hsplit hother => ?_, fun before other after hsplit hother => ?_⟩
  · have hzero : closed before + closed after = 0 := by rw [← closed_append, ← hsplit, hclosed]
    omega
  · obtain ⟨rfl, rfl, -⟩ := singleton_eq_append_cons hsplit
    simp [opened, closed]
  · obtain ⟨rfl, rfl, -⟩ := singleton_eq_append_cons hsplit
    simp [hkind] at hother

/-- Parentheses around tokens are one level more for what stands in them. -/
theorem wrap {opening closing : Token} (hopening : opening.kind = .leftParen)
    (hclosing : closing.kind = .rightParen) (hinner : Parenthesized (outside + 1) inner) :
    Parenthesized outside (opening :: (inner ++ [closing])) := by
  have hopened : ∀ tokens, opened (opening :: tokens) = opened tokens + 1 :=
    fun tokens => List.countP_cons_of_pos (by simp [hopening])
  have hclosed : ∀ tokens, closed (opening :: tokens) = closed tokens :=
    fun tokens => List.countP_cons_of_neg (by simp [hopening])
  have hlast : closed [closing] = 1 ∧ opened [closing] = 0 := by
    simp [opened, closed, hclosing]
  refine ⟨fun before after hsplit => ?_, ?_, fun before token after hsplit hkind => ?_,
    fun before token after hsplit hkind hword => ?_⟩
  · rcases List.cons_eq_append_iff.mp hsplit with ⟨rfl, -⟩ | ⟨rest, rfl, hrest⟩
    · exact Nat.le_refl _
    · rw [hopened, hclosed]
      rcases List.append_eq_append_iff.mp hrest with ⟨head, rfl, hhead⟩ | ⟨tail, rfl, -⟩
      · have hwhole := hinner.closed_eq
        have hend : closed head ≤ closed [closing] := by
          rw [hhead, closed_append]
          omega
        rw [closed_append, opened_append]
        omega
      · have hrest := hinner.closed_le rest tail rfl
        omega
  · rw [hopened, hclosed, closed_append, opened_append, hinner.closed_eq, hlast.1, hlast.2]
  · rcases List.cons_eq_append_iff.mp hsplit with ⟨-, hfirst⟩ | ⟨rest, rfl, hrest⟩
    · cases hfirst
      simp [hopening] at hkind
    · rw [hopened, hclosed]
      rcases append_eq_append_cons hrest with ⟨tail, rfl, -⟩ | ⟨head, rfl, hhead⟩
      · have hcomma := hinner.comma rest token tail rfl hkind
        omega
      · obtain ⟨-, rfl, -⟩ := singleton_eq_append_cons hhead
        simp [hclosing] at hkind
  · rcases List.cons_eq_append_iff.mp hsplit with ⟨-, hfirst⟩ | ⟨rest, rfl, hrest⟩
    · cases hfirst
      simp [hopening] at hkind
    · rcases append_eq_append_cons hrest with ⟨tail, rfl, rfl⟩ | ⟨head, rfl, hhead⟩
      · obtain ⟨first, others, rfl, hfirst⟩ := hinner.call rest token tail rfl hkind hword
        exact ⟨first, others ++ [closing], rfl, hfirst⟩
      · obtain ⟨-, rfl, -⟩ := singleton_eq_append_cons hhead
        simp [hclosing] at hkind

end Parenthesized

end Token

theorem OpensGroup.parenthesized {outside : Nat} {head inner : List Token} {closing : Token}
    (hhead : OpensGroup head) (hclosing : closing.kind = .rightParen)
    (hinner : Token.Parenthesized (outside + 1) inner) :
    Token.Parenthesized outside (head ++ (inner ++ [closing])) := by
  cases hhead with
  | paren hopening => exact .wrap hopening hclosing hinner
  | call hkind hword hopening =>
      exact .cons (by simp [hkind]) (by simp [hkind]) (by simp [hkind])
        (fun _ _ => ⟨_, _, rfl, hopening⟩) (.wrap hopening hclosing hinner)

theorem WellNested.parenthesized {inside : Bool} {tokens : List Token}
    (hnested : WellNested inside tokens) : Token.Parenthesized inside.toNat tokens := by
  induction hnested with
  | nil => exact .nil
  | operand _ hkind ih =>
      rcases hkind with hkind | hkind <;>
        exact ih.append (.cons (by simp [hkind]) (by simp [hkind]) (by simp [hkind])
          (by simp [hkind]) .nil)
  | operator _ hkind ih =>
      exact ih.append (.cons (by simp [hkind]) (by simp [hkind]) (by simp [hkind])
        (by simp [hkind]) .nil)
  | comma _ hkind ih => exact ih.append (.single_comma hkind)
  | @derivative inside tokens word opening name closing _ hword hopening hname hclosing ih =>
      have hkind := Program.kind_of_isDerivative hword
      have hinner : Token.Parenthesized (inside.toNat + 1) [name] :=
        .cons (by simp [hname]) (by simp [hname]) (by simp [hname]) (by simp [hname]) .nil
      exact ih.append (.cons (by simp [hkind]) (by simp [hkind]) (by simp [hkind])
        (by simp [hword]) (.wrap hopening hclosing hinner))
  | group _ hhead _ hclosing ih ihinner =>
      exact ih.append (hhead.parenthesized hclosing (ihinner.mono (Nat.le_add_left _ _)))

end ImplicitDynamics
