import MiniC.Proofs.Parser.Grammar

/-!
# Token lists that follow one another

A statement is complete at its last token; only an `else` behind a branch would still belong to it.
So behind a whole program the parser goes on as at the beginning of the input: it reads the same
statements, and fails with the same error.
-/

namespace MiniC

set_option autoImplicit false

namespace Parser

theorem noElse_of_head {ts : List Token} (h : ∀ token ∈ ts.head?, token.kind ≠ .elseWord) :
    NoElse ts := by
  cases ts with
  | nil => rfl
  | cons token ts => exact noElse_cons (h token rfl) ts

/-- All of a token list without an end token is read. -/
theorem program_sound_of_not_end {ts : List Token} {p : Program} (h : program ts = .ok p)
    (hend : ∀ token ∈ ts, token.kind ≠ .endOfInput) :
    Stmt.SpelledAll p ts ∧ Stmt.CanonicalAll p := by
  obtain ⟨used, rest, rfl, hrest, hused, hcan⟩ := program_sound h
  cases rest with
  | nil =>
    rw [List.append_nil]
    exact ⟨hused, hcan⟩
  | cons token rest => exact absurd hrest (hend token (by simp))

/-- The line of an error is found among the last tokens, whatever stands before them. -/
theorem currentLine_append (ts : List Token) {us : List Token} (hus : us ≠ []) (rest : List Token) :
    currentLine (ts ++ us) rest = currentLine us rest := by
  cases rest with
  | nil =>
    have hlast : (ts ++ us).getLast? = us.getLast? := by
      rw [List.getLast?_append, List.getLast?_eq_some_getLast hus]
      rfl
    rw [currentLine, currentLine, hlast]
  | cons token rest => rfl

theorem Failure.error_append (ts : List Token) {us : List Token} (hus : us ≠ []) (p : Program)
    (f : Failure) : (f.after p).error (ts ++ us) = f.error us := by
  rw [Failure.error, Failure.error]
  simp only [Failure.after, currentLine_append ts hus]

end Parser

/-- Behind the tokens of a program, other tokens that do not begin with `else` are read as they are
alone: the two programs follow one another, and an error of the other tokens stays as it is, with
the same line. -/
theorem parse_append {ts₁ ts₂ : List Token} {p₁ : Program}
    (hend : ∀ token ∈ ts₁, token.kind ≠ .endOfInput)
    (helse : ∀ token ∈ ts₂.head?, token.kind ≠ .elseWord) (h₁ : parse ts₁ = .ok p₁) :
    (∀ p₂, parse ts₂ = .ok p₂ → parse (ts₁ ++ ts₂) = .ok (p₁ ++ p₂)) ∧
    ∀ e, parse ts₂ = .error e → parse (ts₁ ++ ts₂) = .error e := by
  obtain ⟨hspelled, hcan⟩ := Parser.program_sound_of_not_end (mapError_eq_ok_iff.mp h₁) hend
  have happend := Parser.program_append hspelled hcan (Parser.noElse_of_head helse)
  constructor
  · intro p₂ h₂
    rw [parse, happend, mapError_eq_ok_iff.mp h₂]
    rfl
  · intro e h₂
    obtain ⟨f, hf, rfl⟩ := mapError_eq_error_iff.mp h₂
    have hne : ts₂ ≠ [] := by
      rintro rfl
      rw [Parser.program] at hf
      cases hf
    rw [parse, happend, hf, ← Parser.Failure.error_append ts₁ hne p₁]
    rfl

/-- `if (x) { }`. -/
def emptyBranch : List Token :=
  [⟨.ifWord, 1, 0, 2, "if"⟩, ⟨.parenLeft, 1, 3, 1, "("⟩, ⟨.identifier, 1, 4, 1, "x"⟩,
    ⟨.parenRight, 1, 5, 1, ")"⟩, ⟨.braceLeft, 1, 7, 1, "\x7b"⟩, ⟨.braceRight, 1, 9, 1, "\x7d"⟩]

/-- `y++`, where the semicolon is missed. -/
def openStep : List Token :=
  [⟨.identifier, 2, 11, 1, "y"⟩, ⟨.plusPlus, 3, 13, 2, "++"⟩]

/-- Behind a branch a step of a variable is a statement of its own. Where its semicolon is missed,
the line is that of its last token. -/
theorem parse_append_emptyBranch :
    parse emptyBranch = .ok [.branch (.name "x") [] .none] ∧
    parse (emptyBranch ++ (openStep ++ [⟨.semicolon, 3, 15, 1, ";"⟩])) =
      .ok [.branch (.name "x") [] .none, .expr (.step .increment "y")] ∧
    parse (emptyBranch ++ openStep) = .error (.expectedToken .semicolon none 3) := by
  have hbranch : parse emptyBranch = .ok [.branch (.name "x") [] .none] := by
    have hx := @Expr.Spelled.name ⟨.identifier, 1, 4, 1, "x"⟩ rfl
    have hspelled : Stmt.SpelledAll [.branch (.name "x") [] .none] (emptyBranch ++ []) :=
      .cons (.branch rfl rfl hx rfl (.braces rfl .nil rfl) .none) .nil
    exact Parser.parse_of_spelledAll hspelled ⟨⟨trivial, trivial, trivial⟩, trivial⟩
  have hstep : parse (openStep ++ [⟨.semicolon, 3, 15, 1, ";"⟩]) =
      .ok [.expr (.step .increment "y")] := by
    have hy := @Expr.Spelled.step .increment ⟨.identifier, 2, 11, 1, "y"⟩
      ⟨.plusPlus, 3, 13, 2, "++"⟩ rfl rfl
    have hspelled : Stmt.SpelledAll [.expr (.step .increment "y")]
        (openStep ++ [⟨.semicolon, 3, 15, 1, ";"⟩] ++ []) :=
      .cons (.expr hy rfl) .nil
    exact Parser.parse_of_spelledAll hspelled ⟨trivial, trivial⟩
  have hprogram : Parser.program openStep = .error (.at (.token .semicolon) []) := by cbv
  have hopen : parse openStep = .error (.expectedToken .semicolon none 3) := by
    rw [parse, hprogram]
    rfl
  refine ⟨hbranch, ?_, ?_⟩
  · exact (parse_append (by decide) (by decide) hbranch).1 _ hstep
  · exact (parse_append (by decide) (by decide) hbranch).2 _ hopen

end MiniC
