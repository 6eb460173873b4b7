import MiniC.Proofs.Token.Layout

/-!
# Lines are scanned on their own

A line feed ends every piece before it but a string that is still open, and no piece behind it
depends on what came before. So behind a line feed a text has the tokens that it has alone, farther
behind in the source text. Nothing is said of a text that leaves a string open: the string goes on
behind the line feed.
-/

namespace MiniC

set_option autoImplicit false

open Text (byteSize lineFeeds byteSize_append lineFeeds_append byteSize_toList)

/-- The token, so many bytes and lines farther behind. -/
def Token.shifted (bytes lines : Nat) (t : Token) : Token :=
  { t with line := t.line + lines, start := t.start + bytes }

def ScanError.shifted (bytes lines : Nat) : ScanError → ScanError
  | .unterminatedString line start cursor =>
    .unterminatedString (line + lines) (start + bytes) (cursor + bytes)
  | .malformedFloat line start cursor =>
    .malformedFloat (line + lines) (start + bytes) (cursor + bytes)

namespace Token

def shiftedAll (bytes lines : Nat) (r : Except ScanError (List Token)) :
    Except ScanError (List Token) :=
  (r.map (List.map (shifted bytes lines))).mapError (ScanError.shifted bytes lines)

section Shift

theorem place_shifted (front before text : List Char) (kind : Kind) (lexeme : List Char) :
    place (front ++ before) text kind lexeme =
      (place before text kind lexeme).shifted (byteSize front) (lineFeeds front) := by
  simp only [place, shifted, byteSize_append, lineFeeds_append, Token.mk.injEq, true_and, and_true]
  omega

/-- Characters in front of a text move what is read from it, and change nothing else. -/
theorem read_shifted (front before : List Char) (tiles : List Tile) :
    read (front ++ before) tiles =
      shiftedAll (byteSize front) (lineFeeds front) (read before tiles) := by
  induction tiles generalizing before with
  | nil =>
    rw [read, read, place_shifted]
    rfl
  | cons tile tiles ih =>
    obtain ⟨piece, text⟩ := tile
    have hrest := ih (before ++ text)
    rw [← List.append_assoc] at hrest
    have hstart : byteSize (front ++ before) = byteSize before + byteSize front := by
      rw [byteSize_append, Nat.add_comm]
    have hstop : byteSize (front ++ before ++ text) =
        byteSize (before ++ text) + byteSize front := by
      rw [List.append_assoc, byteSize_append front, Nat.add_comm]
    have hline : lineFeeds (front ++ before ++ text) =
        lineFeeds (before ++ text) + lineFeeds front := by
      rw [List.append_assoc, lineFeeds_append front, Nat.add_comm]
    cases piece with
    | blank | stray => exact hrest
    | token kind lexeme =>
      rw [read, read, hrest, place_shifted]
      cases read (before ++ text) tiles <;> rfl
    | unterminatedString | malformedFloat =>
      rw [read, read, hstart, hstop, hline]
      rfl

end Shift

section Line

variable {before taken rest cs b : List Char} {piece : Piece} {tiles later : List Tile}
  {tokens : List Token}

/-- A line feed ends no piece early, and all but an open string. -/
theorem Begins.before_lineFeed (h : Begins piece taken rest) (hpiece : piece ≠ .unterminatedString)
    (b : List Char) : Begins piece taken (rest ++ '\n' :: b) := by
  cases rest with
  | cons c rest => exact h.congr_rest hpiece rfl
  | nil =>
    have hblank : ∀ d ∈ ([] ++ '\n' :: b).head?, isBlank d := by simp [isBlank]
    cases h with
    | blank hc => exact .blank hc
    | comment hbody _ => exact .comment hbody (by simp)
    | token hcomment h hpoint => exact (Begins.token hcomment h hpoint).token_before_blank hblank
    | malformedFloat hne hdigits _ => exact .malformedFloat hne hdigits (by simp)
    | unterminatedString => exact absurd rfl hpiece
    | stray hc hquote h => exact (Begins.stray hc hquote h).stray_before_blank hblank

theorem Tiling.append_line (h : Tiling cs tiles) (hread : read before tiles = .ok tokens)
    (hlater : Tiling b later) :
    Tiling (cs ++ '\n' :: b) (tiles ++ ⟨.blank, ['\n']⟩ :: later) := by
  induction h generalizing before tokens with
  | nil => exact .cons (.blank (by simp)) hlater
  | @cons piece taken rest tiles hb _ ih =>
    have hpiece : piece ≠ .unterminatedString := by
      rintro rfl
      cases hread
    obtain ⟨_, hrest, _⟩ := read_cons_eq_ok hread
    rw [List.append_assoc]
    exact .cons (hb.before_lineFeed hpiece b) (ih hrest)

/-- Where more pieces follow those of a text, its end token is replaced by what they give. -/
theorem Tiling.read_append (h : Tiling cs tiles) (hread : read before tiles = .ok tokens) :
    ∃ front, tokens = front ++ [place (before ++ cs) [] .endOfInput []] ∧
      (∀ t ∈ front, t.kind ≠ .endOfInput) ∧
      ∀ more, read before (tiles ++ more) = (read (before ++ cs) more).map (front ++ ·) := by
  induction h generalizing before tokens with
  | nil =>
    cases hread
    refine ⟨[], by simp, by simp, ?_⟩
    intro more
    rw [List.append_nil]
    cases h : read before more <;> simp [h, Except.map]
  | @cons piece taken rest tiles hb _ ih =>
    obtain ⟨tokens', hrest, hcases⟩ := read_cons_eq_ok hread
    obtain ⟨front, rfl, hkinds, happend⟩ := ih hrest
    rw [List.append_assoc] at happend
    rcases hcases with ⟨rfl | rfl, rfl⟩ | ⟨kind, lexeme, rfl, rfl⟩
    · exact ⟨front, by simp, hkinds, happend⟩
    · exact ⟨front, by simp, hkinds, happend⟩
    · have hkind : kind ≠ .endOfInput := by
        cases hb with
        | token _ h => exact h.lexical.not_endOfInput
      refine ⟨place before taken kind lexeme :: front, by simp, ?_, ?_⟩
      · exact List.forall_mem_cons.mpr ⟨hkind, hkinds⟩
      · intro more
        rw [List.cons_append, read, happend more]
        cases read (before ++ (taken ++ rest)) more <;> rfl

/-- A number that breaks off at its point is broken whatever follows the line. -/
theorem Tiling.malformed_line {line start cursor : Nat} (h : Tiling cs tiles)
    (hread : read before tiles = .error (.malformedFloat line start cursor)) (b : List Char) :
    ∃ tiles', Tiling (cs ++ '\n' :: b) tiles' ∧
      read before tiles' = .error (.malformedFloat line start cursor) := by
  induction h generalizing before with
  | nil => cases hread
  | @cons piece taken rest tiles hb _ ih =>
    have hpiece : piece ≠ .unterminatedString := by
      rintro rfl
      cases hread
    have hline := hb.before_lineFeed hpiece b
    rw [List.append_assoc]
    cases piece with
    | blank | stray =>
      obtain ⟨tiles', htiling, hread'⟩ := ih hread
      exact ⟨_, .cons hline htiling, hread'⟩
    | token kind lexeme =>
      have hrest : read (before ++ taken) tiles = .error (.malformedFloat line start cursor) := by
        rw [read] at hread
        cases h : read (before ++ taken) tiles with
        | error e =>
          rw [h] at hread
          exact hread
        | ok tokens =>
          rw [h] at hread
          cases hread
      obtain ⟨tiles', htiling, hread'⟩ := ih hrest
      refine ⟨_, .cons hline htiling, ?_⟩
      rw [read, hread']
      rfl
    | unterminatedString => exact absurd rfl hpiece
    | malformedFloat =>
      obtain ⟨tiles', htiling⟩ := exists_tiling (rest ++ '\n' :: b)
      exact ⟨_, .cons hline htiling, hread⟩

end Line

theorem toList_append_line (a b : String) :
    (a ++ "\n" ++ b).toList = a.toList ++ '\n' :: b.toList := by
  rw [String.toList_append, String.toList_append, List.append_assoc]
  rfl

theorem tokenize_append_line {a : String} {tokens : List Token} (h : tokenize a = .ok tokens)
    (b : String) :
    ∃ front last, tokens = front ++ [last] ∧ last.kind = .endOfInput ∧
      (∀ t ∈ front, t.kind ≠ .endOfInput) ∧
      tokenize (a ++ "\n" ++ b) =
        (shiftedAll (a.utf8ByteSize + 1) (lineFeeds a.toList + 1) (tokenize b)).map
          (front ++ ·) := by
  obtain ⟨tiles, htiling⟩ := exists_tiling a.toList
  obtain ⟨later, hlater⟩ := exists_tiling b.toList
  have hread : read [] tiles = .ok tokens := (tokensFrom_tiling htiling []).symm.trans h
  have hb : tokenize b = read [] later := tokensFrom_tiling hlater []
  have hline := htiling.append_line hread hlater
  rw [← toList_append_line] at hline
  obtain ⟨front, rfl, hkinds, happend⟩ := htiling.read_append hread
  have hbytes : byteSize (a.toList ++ ['\n']) = a.utf8ByteSize + 1 := by
    rw [byteSize_append, byteSize_toList]
    rfl
  have hlines : lineFeeds (a.toList ++ ['\n']) = lineFeeds a.toList + 1 := by
    rw [lineFeeds_append]
    rfl
  refine ⟨front, _, rfl, rfl, hkinds, ?_⟩
  calc tokenize (a ++ "\n" ++ b)
      = read [] (tiles ++ ⟨.blank, ['\n']⟩ :: later) := tokensFrom_tiling hline []
    _ = (read (a.toList ++ ['\n'] ++ []) later).map (front ++ ·) := by
      rw [happend, List.append_nil]
      rfl
    _ = _ := by rw [read_shifted, hbytes, hlines, hb]

/-- Behind a text that is scanned to its end and a line feed, another text gives what it gives
alone, so many bytes and lines farther behind; only the end token between them is lost. A number
that breaks off at its point is reported whatever follows the line. -/
theorem tokenize_lines (a b : String) :
    (∀ tokens, tokenize a = .ok tokens →
      ∃ front last, tokens = front ++ [last] ∧ last.kind = .endOfInput ∧
        (∀ t ∈ front, t.kind ≠ .endOfInput) ∧
        (∀ later, tokenize b = .ok later → tokenize (a ++ "\n" ++ b) =
          .ok (front ++ later.map (shifted (a.utf8ByteSize + 1) (lineFeeds a.toList + 1)))) ∧
        ∀ e, tokenize b = .error e → tokenize (a ++ "\n" ++ b) =
          .error (e.shifted (a.utf8ByteSize + 1) (lineFeeds a.toList + 1))) ∧
    ∀ line start cursor, tokenize a = .error (.malformedFloat line start cursor) →
      tokenize (a ++ "\n" ++ b) = .error (.malformedFloat line start cursor) := by
  constructor
  · intro tokens htokens
    obtain ⟨front, last, hfront, hlast, hkinds, hboth⟩ := tokenize_append_line htokens b
    refine ⟨front, last, hfront, hlast, hkinds, ?_, ?_⟩
    · intro later hlater
      rw [hboth, hlater]
      rfl
    · intro e he
      rw [hboth, he]
      rfl
  · intro line start cursor herror
    obtain ⟨tiles, htiling⟩ := exists_tiling a.toList
    have hread := (tokensFrom_tiling htiling []).symm.trans herror
    obtain ⟨tiles', htiling', hread'⟩ := htiling.malformed_line hread b.toList
    rw [← toList_append_line] at htiling'
    exact (tokensFrom_tiling htiling' []).trans hread'

/-- A comment ends with its line. A number is broken where its point ends the line, whatever is
broken behind it. -/
theorem tokenize_lines_comment :
    tokenize "x // y" = .ok [⟨.identifier, 0, 0, 1, "x"⟩, ⟨.endOfInput, 0, 6, 0, ""⟩] ∧
    tokenize ("x // y" ++ "\n" ++ "\n1 ") = .ok [⟨.identifier, 0, 0, 1, "x"⟩,
      ⟨.integer, 2, 8, 1, "1"⟩, ⟨.endOfInput, 2, 10, 0, ""⟩] ∧
    tokenize ("x // y" ++ "\n" ++ "2.z") = .error (.malformedFloat 1 7 9) ∧
    tokenize ("2." ++ "\n" ++ "\"") = .error (.malformedFloat 0 0 2) := by
  have hcomment : tokenize "x // y" =
      .ok [⟨.identifier, 0, 0, 1, "x"⟩, ⟨.endOfInput, 0, 6, 0, ""⟩] := by cbv
  have hnumber : tokenize "\n1 " =
      .ok [⟨.integer, 1, 1, 1, "1"⟩, ⟨.endOfInput, 1, 3, 0, ""⟩] := by cbv
  have hpoint : tokenize "2.z" = .error (.malformedFloat 0 0 2) := by cbv
  have hend : tokenize "2." = .error (.malformedFloat 0 0 2) := by cbv
  obtain ⟨front, last, hfront, _, _, hok, _⟩ := (tokenize_lines "x // y" "\n1 ").1 _ hcomment
  obtain ⟨_, _, _, _, _, _, herror⟩ := (tokenize_lines "x // y" "2.z").1 _ hcomment
  have hx : [⟨.identifier, 0, 0, 1, "x"⟩] = front := by
    simpa using congrArg List.dropLast hfront
  refine ⟨hcomment, ?_, herror _ hpoint, ?_⟩
  · subst hx
    exact hok _ hnumber
  · exact (tokenize_lines "2." "\"").2 _ _ _ hend

end Token

end MiniC
