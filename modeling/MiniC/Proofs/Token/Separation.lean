import MiniC.Proofs.Token.Tiling

/-!
# Tokens with blanks between them

A token is read back wherever its text ends at a blank or at the end of the source: no longer token
begins there, and it begins no comment. So texts of tokens with a space between any two of them are
tokenized one by one.
-/

namespace MiniC

set_option autoImplicit false

namespace Kind

theorem symbol?_not_blank {kind : Kind} {text : List Char} (h : kind.symbol? = some text) :
    ∀ c ∈ text, ¬ Token.isBlank c := by
  have hall : text.all fun c => !Token.isBlank c := by cases kind <;> cases h <;> rfl
  intro c hc
  simpa using List.all_eq_true.mp hall c hc

end Kind

namespace Token

theorem blank_classes {c : Char} (h : isBlank c) :
    isWordChar c = false ∧ c.isDigit = false ∧ c ≠ '.' ∧ c ≠ '/' := by
  have hmem := isBlank_iff.mp h
  simp only [List.mem_cons, List.not_mem_nil, or_false] at hmem
  rcases hmem with rfl | rfl | rfl | rfl <;> decide

section BeforeBlank

variable {kind : Kind} {c : Char} {text more lexeme rest : List Char}

/-- Only strings hold blanks. -/
theorem Lexical.no_blank (h : Lexical kind text lexeme) (hkind : kind ≠ .string) :
    ∀ c ∈ text, ¬ isBlank c := by
  intro c hc hblank
  obtain ⟨hword, hdigit, hpoint, _⟩ := blank_classes hblank
  have hletter : ¬ isWordChar c := by simp [hword]
  have hnumber : ¬ c.isDigit := by simp [hdigit]
  cases h with
  | symbol h => exact Kind.symbol?_not_blank h c hc hblank
  | keyword h => exact hletter ((Kind.word?_letters h).2 c hc)
  | identifier _ h _ => exact hletter (isWordChar_iff.mpr (h c hc))
  | integer _ h => exact hnumber (h c hc)
  | decimal _ hw _ hf =>
    rcases List.mem_append.mp hc with hc | hc
    · exact hnumber (hw c hc)
    · rcases List.mem_cons.mp hc with hc | hc
      · exact hpoint hc
      · exact hnumber (hf c hc)
  | string => exact hkind rfl

theorem Lexical.quoted (h : Lexical .string text lexeme) : text = '"' :: (lexeme ++ ['"']) := by
  cases h with
  | symbol h => cases h
  | keyword h => cases h
  | string => rfl

theorem Lexical.last_not_blank {d : Char} (h : Lexical kind (text ++ [d]) lexeme) :
    ¬ isBlank d := by
  by_cases hkind : kind = .string
  · subst hkind
    have hquoted : text ++ [d] = '"' :: lexeme ++ ['"'] := h.quoted
    obtain ⟨_, hlast⟩ := List.append_inj' hquoted rfl
    cases hlast
    decide
  · exact h.no_blank hkind d (by simp)

/-- The longest token of a text that a blank may follow. -/
theorem Lexical.longest (h : Lexical kind text lexeme) (hrest : ∀ d ∈ rest.head?, isBlank d) :
    Longest kind lexeme text rest := by
  apply h.longest_of_not_extended
  · intro d hd kind' lexeme' h'
    exact h'.last_not_blank (hrest d hd)
  · intro _ hpoint
    exact absurd rfl (blank_classes (hrest '.' hpoint)).2.2.1

/-- No token with a blank behind it begins a comment. -/
theorem Lexical.not_comment (h : Lexical kind text lexeme) (hrest : ∀ d ∈ rest.head?, isBlank d) :
    ¬ ['/', '/'] <+: text ++ rest := by
  obtain ⟨c, more, rfl⟩ := List.exists_cons_of_ne_nil h.ne_nil
  intro hslash
  obtain ⟨rfl, hsecond⟩ := comment_iff.mp hslash
  obtain ⟨hsymbol, _⟩ := h.of_other (by decide) (by decide) (by decide)
  match more, Kind.symbol?_length hsymbol with
  | [], _ => exact absurd rfl (blank_classes (hrest '/' hsecond)).2.2.2
  | [d], _ =>
    cases hsecond
    rw [← Kind.pair?_eq_some_iff] at hsymbol
    exact absurd hsymbol (by simp [show Kind.pair? '/' '/' = none by decide])

theorem Lexical.begins (h : Lexical kind text lexeme) (hrest : ∀ d ∈ rest.head?, isBlank d) :
    Begins (.token kind lexeme) text rest := by
  refine .token (h.not_comment hrest) (h.longest hrest) ?_
  intro _ hpoint
  exact absurd rfl (blank_classes (hrest '.' hpoint)).2.2.1

end BeforeBlank

/-- A token as it is written, without a place. -/
structure Written where
  kind : Kind
  lexeme : List Char
  deriving DecidableEq

def Written.text (w : Written) : List Char :=
  if w.kind = .string then '"' :: (w.lexeme ++ ['"']) else w.lexeme

def Written.IsToken (w : Written) : Prop :=
  Lexical w.kind w.text w.lexeme

def written (t : Token) : Written :=
  ⟨t.kind, t.lexeme.toList⟩

def spaced (ws : List Written) : List Char :=
  [' '].intercalate (ws.map Written.text)

theorem spaced_singleton (w : Written) : spaced [w] = w.text := by
  simp [spaced, List.intercalate]

theorem spaced_cons (w next : Written) (ws : List Written) :
    spaced (w :: next :: ws) = w.text ++ ' ' :: spaced (next :: ws) := by
  simp [spaced, List.intercalate]

theorem written_place (before text lexeme : List Char) (kind : Kind) :
    (place before text kind lexeme).written = ⟨kind, lexeme⟩ := by
  simp [written, place]

theorem map_written_end (before : List Char) :
    [place before [] .endOfInput []].map written = [] ++ [⟨.endOfInput, []⟩] := by
  rw [List.map_singleton, written_place]
  rfl

theorem map_written_cons {tokens : List Token} {ws last : List Written}
    (h : tokens.map written = ws ++ last) (before text lexeme : List Char) (kind : Kind) :
    (place before text kind lexeme :: tokens).map written = ⟨kind, lexeme⟩ :: ws ++ last := by
  rw [List.map_cons, written_place, h]
  rfl

/-- A text without broken literals, and the tokens that it writes. -/
inductive Writes : List Char → List Written → Prop
  | nil : Writes [] []
  | skip {piece : Piece} {taken rest : List Char} {ws : List Written}
    (hpiece : piece = .blank ∨ piece = .stray) (h : Begins piece taken rest)
    (hrest : Writes rest ws) : Writes (taken ++ rest) ws
  | token {kind : Kind} {lexeme taken rest : List Char} {ws : List Written}
    (h : Begins (.token kind lexeme) taken rest) (hrest : Writes rest ws) :
    Writes (taken ++ rest) (⟨kind, lexeme⟩ :: ws)

theorem Writes.tiling {cs : List Char} {ws : List Written} (h : Writes cs ws) :
    ∃ tiles, Tiling cs tiles ∧ ∀ before, ∃ tokens, read before tiles = .ok tokens ∧
      tokens.map written = ws ++ [⟨.endOfInput, []⟩] := by
  induction h with
  | nil => exact ⟨[], .nil, fun before => ⟨_, rfl, map_written_end before⟩⟩
  | skip hpiece hb _ ih =>
    obtain ⟨tiles, htiling, hread⟩ := ih
    refine ⟨_, .cons hb htiling, fun before => ?_⟩
    rcases hpiece with rfl | rfl <;> exact hread _
  | @token kind lexeme taken _ _ hb _ ih =>
    obtain ⟨tiles, htiling, hread⟩ := ih
    refine ⟨_, .cons hb htiling, fun before => ?_⟩
    obtain ⟨tokens, htokens, hwritten⟩ := hread (before ++ taken)
    refine ⟨place before taken kind lexeme :: tokens, ?_, map_written_cons hwritten _ _ _ _⟩
    rw [read, htokens]
    rfl

theorem Writes.tokenize {source : String} {ws : List Written} (h : Writes source.toList ws) :
    ∃ tokens, tokenize source = .ok tokens ∧ tokens.map written = ws ++ [⟨.endOfInput, []⟩] := by
  obtain ⟨tiles, htiling, hread⟩ := h.tiling
  obtain ⟨tokens, htokens, hwritten⟩ := hread []
  refine ⟨tokens, ?_, hwritten⟩
  rw [← htokens, ← tokensFrom_tiling htiling]
  rfl

theorem writes_spaced {ws : List Written} (h : ∀ w ∈ ws, w.IsToken) : Writes (spaced ws) ws := by
  induction ws with
  | nil => exact .nil
  | cons w ws ih =>
    obtain ⟨hw, hws⟩ := List.forall_mem_cons.mp h
    cases ws with
    | nil =>
      have htoken := Writes.token (Lexical.begins hw (by simp)) .nil
      rw [List.append_nil, ← spaced_singleton] at htoken
      exact htoken
    | cons next ws =>
      have hblank := Writes.skip (.inl rfl) (.blank (c := ' ') (by simp)) (ih hws)
      rw [spaced_cons]
      exact .token (Lexical.begins hw (by simp [isBlank])) hblank

/-- Tokens with spaces between them are read back, with the end token behind them. -/
theorem tokenize_spaced {ws : List Written} (h : ∀ w ∈ ws, w.IsToken) :
    ∃ tokens, tokenize (String.ofList (spaced ws)) = .ok tokens ∧
      tokens.map written = ws ++ [⟨.endOfInput, []⟩] := by
  apply Writes.tokenize
  rw [String.toList_ofList]
  exact writes_spaced h

end Token

end MiniC
