import MiniC.Proofs.Token.Layout
import MiniC.Proofs.Token.Positions

/-!
# Tokens written anew

Every token of a source is one that can be written, whatever stood around it. So the tokens of a
source, written with single spaces between them, are tokenized to the same kinds and lexemes; their
places may be others.
-/

namespace MiniC.Token

set_option autoImplicit false

/-- The kind and the lexeme of a token determine its text. -/
theorem Lexical.isToken {kind : Kind} {text lexeme : List Char} (h : Lexical kind text lexeme) :
    Written.IsToken ⟨kind, lexeme⟩ := by
  unfold Written.IsToken Written.text
  by_cases hkind : kind = .string
  · subst hkind
    rw [if_pos rfl, ← h.quoted]
    exact h
  · rw [if_neg hkind]
    have htext := h.lexeme_eq hkind
    subst htext
    exact h

theorem Writes.isToken {cs : List Char} {ws : List Written} (h : Writes cs ws) :
    ∀ w ∈ ws, w.IsToken := by
  induction h with
  | nil =>
    intro w hw
    cases hw
  | skip _ _ _ ih => exact ih
  | token hb _ ih =>
    cases hb with
    | token _ hlongest _ => exact List.forall_mem_cons.mpr ⟨hlongest.lexical.isToken, ih⟩

theorem isToken_of_tokenize {source : String} {tokens : List Token}
    (h : tokenize source = .ok tokens) :
    ∃ ws : List Written, (∀ w ∈ ws, w.IsToken) ∧
      tokens.map written = ws ++ [⟨.endOfInput, []⟩] := by
  obtain ⟨tiles, htiling⟩ := exists_tiling source.toList
  have hread : read [] tiles = .ok tokens := (tokensFrom_tiling htiling []).symm.trans h
  obtain ⟨ws, hws, hwritten⟩ := htiling.writes hread
  exact ⟨ws, hws.isToken, hwritten⟩

theorem Written.IsToken.not_endOfInput {w : Written} (h : w.IsToken) : w.kind ≠ .endOfInput :=
  Lexical.not_endOfInput h

/-- The kinds and lexemes of tokens, without end tokens. -/
def proper (tokens : List Token) : List Written :=
  (tokens.filter fun t => t.kind ≠ .endOfInput).map written

theorem proper_eq {tokens : List Token} {ws : List Written} (hws : ∀ w ∈ ws, w.IsToken)
    (h : tokens.map written = ws ++ [⟨.endOfInput, []⟩]) : proper tokens = ws := by
  have hfilter : proper tokens =
      (tokens.map written).filter fun w => w.kind ≠ .endOfInput := by
    rw [List.filter_map]
    rfl
  have hkept : ws.filter (fun w => w.kind ≠ .endOfInput) = ws := by
    rw [List.filter_eq_self]
    intro w hw
    simpa using (hws w hw).not_endOfInput
  rw [hfilter, h, List.filter_append, hkept]
  simp

/-- Tokens with single spaces between them are read back, with one end token behind them. The tokens
of every source are of this kind, so that writing them anew and tokenizing gives them again. -/
theorem tokenize_rewritten :
    (∀ ws : List Written, (∀ w ∈ ws, w.IsToken) →
      ∃ tokens, tokenize (String.ofList (spaced ws)) = .ok tokens ∧
        tokens.map written = ws ++ [⟨.endOfInput, []⟩]) ∧
    ∀ (source : String) (tokens : List Token), tokenize source = .ok tokens →
      (∀ t ∈ tokens, t.kind ≠ .endOfInput → t.written.IsToken) ∧
      ∃ again, tokenize (String.ofList (spaced (proper tokens))) = .ok again ∧
        again.map written = tokens.map written := by
  refine ⟨fun ws hws => tokenize_spaced hws, ?_⟩
  intro source tokens h
  obtain ⟨ws, hws, hwritten⟩ := isToken_of_tokenize h
  constructor
  · intro t ht hkind
    have hmem : t.written ∈ ws ++ [⟨.endOfInput, []⟩] := by
      rw [← hwritten]
      exact List.mem_map_of_mem ht
    rcases List.mem_append.mp hmem with hmem | hend
    · exact hws _ hmem
    · exact absurd (congrArg Written.kind (List.mem_singleton.mp hend)) hkind
  · obtain ⟨again, hagain, hsame⟩ := tokenize_spaced hws
    rw [proper_eq hws hwritten]
    exact ⟨again, hagain, hsame.trans hwritten.symm⟩

/-- A string that holds a comment and a reserved word, and marks that would be one without spaces. -/
def lookalikes : List Written :=
  [⟨.string, ['/', '/', '\n', 'i', 'f']⟩, ⟨.slash, ['/']⟩, ⟨.slash, ['/']⟩,
    ⟨.identifier, ['i', 'f', 'f']⟩, ⟨.plus, ['+']⟩, ⟨.plusPlus, ['+', '+']⟩,
    ⟨.decimal, ['0', '.', '5']⟩]

/-- The lookalikes keep apart, and the tokens of `f//g` with `+++2` on the next line are those of
`f ++ + 2`. -/
theorem tokenize_rewritten_lookalikes :
    (∃ tokens, tokenize "\"//\nif\" / / iff + ++ 0.5" = .ok tokens ∧
      tokens.map written = lookalikes ++ [⟨.endOfInput, []⟩]) ∧
    ∃ again, tokenize "f ++ + 2" = .ok again ∧ again.map written =
      [⟨.identifier, ['f']⟩, ⟨.plusPlus, ['+', '+']⟩, ⟨.plus, ['+']⟩, ⟨.integer, ['2']⟩,
        ⟨.endOfInput, []⟩] := by
  obtain ⟨hvalid, hsource⟩ := tokenize_rewritten
  constructor
  · refine hvalid lookalikes ?_
    simp only [lookalikes, List.forall_mem_cons]
    refine ⟨.string (by decide), .symbol rfl, .symbol rfl, ?_, .symbol rfl, .symbol rfl, ?_,
      by simp⟩
    · have hletters : ∀ c ∈ ['i', 'f', 'f'], isWordChar c := List.all_eq_true.mp rfl
      refine .identifier (List.cons_ne_nil _ _) (fun c hc => isWordChar_iff.mp (hletters c hc)) ?_
      intro kind
      cases kind <;> decide
    · exact @Lexical.decimal ['0'] ['5'] (by simp) (List.all_eq_true.mp rfl) (by simp)
        (List.all_eq_true.mp rfl)
  · have htokens : tokenize "f//g\n+++2" = .ok
        [⟨.identifier, 0, 0, 1, "f"⟩, ⟨.plusPlus, 1, 5, 2, "++"⟩, ⟨.plus, 1, 7, 1, "+"⟩,
          ⟨.integer, 1, 8, 1, "2"⟩, ⟨.endOfInput, 1, 9, 0, ""⟩] := by cbv
    exact (hsource _ _ htokens).2

end MiniC.Token
