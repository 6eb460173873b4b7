import MiniC.Proofs.Text.Slice
import MiniC.Proofs.Token.Separation

/-!
# Text between tokens

What a piece is depends on its own characters and on the next one. So text that begins with a blank
and holds blanks, whole comments and characters of no token may stand at the front of a text and
wherever a token ends: it changes none of the pieces before it or behind it, but for a comment at
the end of the text, which may go on into it.
-/

namespace MiniC.Token

set_option autoImplicit false

open Text (byteSize byteSize_append byteSize_pos byteSize_toList)

section Next

variable {piece : Piece} {kind : Kind} {lexeme taken text rest rest' : List Char} {c : Char}

theorem Lexical.comment_congr (h : Lexical kind text lexeme) (hhead : rest'.head? = rest.head?) :
    ['/', '/'] <+: text ++ rest' ↔ ['/', '/'] <+: text ++ rest := by
  obtain ⟨c, more, rfl⟩ := List.exists_cons_of_ne_nil h.ne_nil
  rw [List.cons_append, List.cons_append, comment_iff, comment_iff, List.head?_append,
    List.head?_append, hhead]

theorem Tokenless.congr_rest (h : Tokenless (c :: rest)) (hquote : c ≠ '"')
    (hhead : ∀ d ∈ rest'.head?, d ∈ rest.head? ∨ isBlank d) : Tokenless (c :: rest') := by
  apply tokenless_of_not_lexical hquote
  · intro kind lexeme hlex
    exact h kind lexeme [c] hlex ⟨rest, rfl⟩
  · intro d hd kind lexeme hlex
    rcases hhead d hd with hd | hd
    · obtain ⟨tail, rfl⟩ := List.head?_eq_some_iff.mp hd
      exact h kind lexeme [c, d] hlex ⟨tail, rfl⟩
    · have hpair : Lexical kind ([c] ++ [d]) lexeme := hlex
      exact hpair.last_not_blank hd

/-- A piece sees one character of what follows it. -/
theorem Begins.congr_rest (h : Begins piece taken rest) (hpiece : piece ≠ .unterminatedString)
    (hhead : rest'.head? = rest.head?) : Begins piece taken rest' := by
  cases h with
  | blank hc => exact .blank hc
  | comment hbody hrest =>
    rw [← hhead] at hrest
    exact .comment hbody hrest
  | token hcomment h hpoint =>
    rw [← hhead] at hpoint
    rw [← h.lexical.comment_congr hhead] at hcomment
    refine .token hcomment (h.lexical.longest_of_not_extended ?_ hpoint) hpoint
    intro d hd
    rw [hhead] at hd
    exact h.not_extended d hd
  | malformedFloat hne hdigits hrest =>
    rw [← hhead] at hrest
    exact .malformedFloat hne hdigits hrest
  | unterminatedString => exact absurd rfl hpiece
  | stray hblank hquote h =>
    refine .stray hblank hquote (h.congr_rest hquote ?_)
    intro d hd
    rw [hhead] at hd
    exact .inl hd

theorem Begins.token_before_blank (h : Begins (.token kind lexeme) taken rest)
    (hrest : ∀ d ∈ rest'.head?, isBlank d) : Begins (.token kind lexeme) taken rest' := by
  cases h with
  | token _ h => exact h.lexical.begins hrest

theorem Begins.stray_before_blank (h : Begins .stray taken rest)
    (hrest : ∀ d ∈ rest'.head?, isBlank d) : Begins .stray taken rest' := by
  cases h with
  | stray hblank hquote h =>
    refine .stray hblank hquote (h.congr_rest hquote ?_)
    intro d hd
    exact .inr (hrest d hd)

end Next

/-- A character of no token, strings and the point of a decimal number aside. -/
def isInert (c : Char) : Bool :=
  !isWordChar c && !c.isDigit && c != '"' && Kind.singles.all (fun entry => entry.1 != c) &&
    Kind.pairs.all fun entry => entry.1.1 != c && entry.1.2 != c

/-- Text that writes no token wherever it stands between tokens: blanks, inert characters and whole
comments. -/
inductive Filler : List Char → Prop
  | nil : Filler []
  | char {c : Char} {cs : List Char} (hc : isBlank c ∨ isInert c) (h : Filler cs) :
    Filler (c :: cs)
  | comment {body cs : List Char} (hbody : '\n' ∉ body) (h : Filler cs) :
    Filler ('/' :: '/' :: (body ++ '\n' :: cs))

/-- Text that may stand behind a token: a blank, and filler behind it. -/
def Separates : List Char → Prop
  | [] => False
  | c :: cs => isBlank c ∧ Filler cs

theorem Separates.filler {w : List Char} (h : Separates w) : Filler w := by
  match w, h with
  | _ :: _, ⟨hc, hcs⟩ => exact .char (.inl hc) hcs

theorem Separates.head {w : List Char} (h : Separates w) (rest : List Char) :
    ∀ d ∈ (w ++ rest).head?, isBlank d := by
  match w, h with
  | _ :: _, ⟨hc, _⟩ => simpa using hc

section Filler

variable {c : Char} {body cs w : List Char} {ws : List Written}

theorem tokenless_of_isInert (h : isInert c) (rest : List Char) : Tokenless (c :: rest) := by
  simp only [isInert, Bool.and_eq_true, Bool.not_eq_true', bne_iff_ne, List.all_eq_true] at h
  obtain ⟨⟨⟨⟨hword, hdigit⟩, hquote⟩, hsingles⟩, hpairs⟩ := h
  apply tokenless_of_other ⟨hquote, by simp [hdigit], by simp [hword]⟩
  · intro d _
    rw [Option.eq_none_iff_forall_ne_some]
    intro kind hkind
    exact (hpairs _ (Kind.mem_of_lookup hkind)).1 rfl
  · rw [Option.eq_none_iff_forall_ne_some]
    intro kind hkind
    exact hsingles _ (Kind.mem_of_lookup hkind) rfl

theorem Writes.char (h : Writes cs ws) (hc : isBlank c ∨ isInert c) : Writes (c :: cs) ws := by
  by_cases hblank : isBlank c
  · exact .skip (.inl rfl) (.blank (isBlank_iff.mp hblank)) h
  · have hinert := hc.resolve_left hblank
    have hquote : c ≠ '"' := by
      rintro rfl
      exact absurd hinert (by decide)
    rw [isBlank_iff] at hblank
    exact .skip (.inr rfl) (.stray hblank hquote (tokenless_of_isInert hinert cs)) h

theorem Writes.comment (h : Writes cs ws) (hbody : '\n' ∉ body) :
    Writes ('/' :: '/' :: (body ++ '\n' :: cs)) ws := by
  have hline : Writes ('\n' :: cs) ws := h.char (.inl rfl)
  exact .skip (.inl rfl) (.comment hbody (by simp)) hline

theorem Filler.writes (h : Filler w) (hcs : Writes cs ws) : Writes (w ++ cs) ws := by
  induction h with
  | nil => exact hcs
  | char hc _ ih => exact ih.char hc
  | comment hbody _ ih =>
    rw [List.cons_append, List.cons_append, List.append_assoc]
    exact ih.comment hbody

/-- An open comment takes filler up to its first line feed. -/
theorem Filler.writes_comment (h : Filler w) (hbody : '\n' ∉ body) :
    Writes ('/' :: '/' :: (body ++ w)) [] := by
  induction h generalizing body with
  | nil => exact .skip (.inl rfl) (.comment hbody (by simp)) .nil
  | @char c cs hc h ih =>
    by_cases hline : c = '\n'
    · subst hline
      have hcs := h.writes .nil
      rw [List.append_nil] at hcs
      exact hcs.comment hbody
    · have hlonger : '\n' ∉ body ++ [c] := by simp [hbody, Ne.symm hline]
      have hcomment := ih hlonger
      rw [List.append_assoc] at hcomment
      exact hcomment
  | @comment body' cs hbody' h _ =>
    have hcs := h.writes .nil
    rw [List.append_nil] at hcs
    have hlonger : '\n' ∉ body ++ '/' :: '/' :: body' := by simp [hbody, hbody']
    have hcomment := hcs.comment hlonger
    rw [List.append_assoc] at hcomment
    exact hcomment

end Filler

section Ends

variable {before taken rest a b w : List Char} {piece : Piece} {tiles : List Tile}
  {tokens : List Token} {t : Token}

theorem start_of_mem_read (h : read before tiles = .ok tokens) (ht : t ∈ tokens) :
    byteSize before ≤ t.start := by
  induction tiles generalizing before tokens with
  | nil =>
    cases h
    rw [List.mem_singleton.mp ht]
    exact Nat.le_refl _
  | cons tile tiles ih =>
    obtain ⟨later, hlater, ⟨_, rfl⟩ | ⟨kind, lexeme, _, rfl⟩⟩ := read_cons_eq_ok h
    · have hle := ih hlater ht
      rw [byteSize_append] at hle
      omega
    · rcases List.mem_cons.mp ht with rfl | ht
      · exact Nat.le_refl _
      · have hle := ih hlater ht
        rw [byteSize_append] at hle
        omega

/-- No token ends inside of the first piece. -/
theorem stop_of_mem_read (h : read before (⟨piece, taken⟩ :: tiles) = .ok tokens)
    (ht : t ∈ tokens) : byteSize (before ++ taken) ≤ t.start + t.length := by
  obtain ⟨later, hlater, ⟨_, rfl⟩ | ⟨kind, lexeme, _, rfl⟩⟩ := read_cons_eq_ok h
  · have hle := start_of_mem_read hlater ht
    omega
  · rcases List.mem_cons.mp ht with rfl | ht
    · rw [byteSize_append]
      exact Nat.le_refl _
    · have hle := start_of_mem_read hlater ht
      omega

/-- Only the end token ends where it was looked for. -/
theorem Tiling.eq_nil_of_stop (h : Tiling rest tiles) (hread : read before tiles = .ok tokens)
    (ht : t ∈ tokens) (hstop : t.start + t.length = byteSize before) : rest = [] ∧ tiles = [] := by
  cases h with
  | nil => exact ⟨rfl, rfl⟩
  | cons hb _ =>
    have hle := stop_of_mem_read hread ht
    have hpos := byteSize_pos hb.ne_nil
    rw [byteSize_append] at hle
    omega

theorem append_split_of_byteSize_le (h : taken ++ rest = a ++ b)
    (hsize : byteSize taken ≤ byteSize a) : ∃ a', a = taken ++ a' ∧ rest = a' ++ b := by
  rcases List.append_eq_append_iff.mp h with hsplit | ⟨more, rfl, rfl⟩
  · exact hsplit
  · have hmore : more = [] := by
      by_contra hne
      have hpos := byteSize_pos hne
      rw [byteSize_append] at hsize
      omega
    subst hmore
    exact ⟨[], by simp, rfl⟩

theorem Tiling.writes {cs : List Char} (h : Tiling cs tiles)
    (hread : read before tiles = .ok tokens) :
    ∃ ws, Writes cs ws ∧ tokens.map written = ws ++ [⟨.endOfInput, []⟩] := by
  induction h generalizing before tokens with
  | nil =>
    cases hread
    exact ⟨[], .nil, map_written_end before⟩
  | cons hb _ ih =>
    obtain ⟨later, hlater, hcases⟩ := read_cons_eq_ok hread
    obtain ⟨ws, hws, hwritten⟩ := ih hlater
    rcases hcases with ⟨hpiece, rfl⟩ | ⟨kind, lexeme, rfl, rfl⟩
    · exact ⟨ws, .skip hpiece hb hws, hwritten⟩
    · exact ⟨_, .token hb hws, map_written_cons hwritten _ _ _ _⟩

theorem eq_nil_or_stop_later {kind : Kind} {lexeme : List Char} {later : List Token}
    (ht : t ∈ place before taken kind lexeme :: later)
    (hstop : t.start + t.length = byteSize (before ++ taken ++ a)) :
    a = [] ∨ ∃ t ∈ later, t.start + t.length = byteSize (before ++ taken ++ a) := by
  rcases List.mem_cons.mp ht with rfl | ht
  · left
    by_contra hne
    have hpos := byteSize_pos hne
    simp only [place, byteSize_append] at hstop
    omega
  · exact .inr ⟨t, ht, hstop⟩

theorem Begins.insert (h : Begins piece taken (a ++ b)) (hpiece : piece ≠ .unterminatedString)
    (ha : a ≠ []) (cs : List Char) : Begins piece taken (a ++ cs) := by
  apply h.congr_rest hpiece
  rw [List.head?_append_of_ne_nil a ha, List.head?_append_of_ne_nil a ha]

/-- A blank or a stray character at the end of a text, and what is put behind it. -/
theorem Begins.writes_append (h : Begins piece taken rest)
    (hpiece : piece = .blank ∨ piece = .stray) (hw : Separates w) : Writes (taken ++ w) [] := by
  have hws := hw.filler.writes .nil
  have hhead := hw.head []
  rw [List.append_nil] at hws hhead
  rcases hpiece with rfl | rfl
  · cases h with
    | blank hc => exact .skip (.inl rfl) (.blank hc) hws
    | comment hbody _ => exact hw.filler.writes_comment hbody
  · exact .skip (.inr rfl) (h.stray_before_blank hhead) hws

/-- Text put at the front or behind a token leaves the tokens as they are written. -/
theorem Tiling.insert {cs : List Char} (h : Tiling cs tiles)
    (hread : read before tiles = .ok tokens) (hcs : cs = a ++ b)
    (ha : a = [] ∨ ∃ t ∈ tokens, t.start + t.length = byteSize (before ++ a))
    (hw : Separates w) :
    ∃ ws, Writes (a ++ (w ++ b)) ws ∧ tokens.map written = ws ++ [⟨.endOfInput, []⟩] := by
  induction h generalizing before tokens a with
  | nil =>
    obtain ⟨rfl, rfl⟩ := List.append_eq_nil_iff.mp hcs.symm
    cases hread
    exact ⟨[], hw.filler.writes .nil, map_written_end before⟩
  | @cons piece taken rest tiles hb hrest ih =>
    rcases ha with rfl | ⟨t, ht, hstop⟩
    · obtain ⟨ws, hws, hwritten⟩ := (Tiling.cons hb hrest).writes hread
      rw [hcs] at hws
      exact ⟨ws, hw.filler.writes hws, hwritten⟩
    · have hle := stop_of_mem_read hread ht
      simp only [hstop, byteSize_append] at hle
      obtain ⟨a, rfl, rfl⟩ := append_split_of_byteSize_le hcs (by omega)
      rw [← List.append_assoc] at hstop
      rw [List.append_assoc]
      obtain ⟨later, hlater, ⟨hpiece, rfl⟩ | ⟨kind, lexeme, rfl, rfl⟩⟩ := read_cons_eq_ok hread
      · by_cases hne : a = []
        · subst hne
          rw [List.append_nil] at hstop
          obtain ⟨rfl, rfl⟩ := hrest.eq_nil_of_stop hlater ht hstop
          cases hlater
          refine ⟨[], ?_, map_written_end _⟩
          rw [List.append_nil]
          exact hb.writes_append hpiece hw
        · obtain ⟨ws, hws, hwritten⟩ := ih hlater rfl (.inr ⟨t, ht, hstop⟩)
          have hbroken : piece ≠ .unterminatedString := by
            rintro rfl
            simp at hpiece
          exact ⟨ws, .skip hpiece (hb.insert hbroken hne _) hws, hwritten⟩
      · obtain ⟨ws, hws, hwritten⟩ := ih hlater rfl (eq_nil_or_stop_later ht hstop)
        refine ⟨⟨kind, lexeme⟩ :: ws, ?_, map_written_cons hwritten _ _ _ _⟩
        by_cases hne : a = []
        · subst hne
          exact .token (hb.token_before_blank (hw.head b)) hws
        · exact .token (hb.insert (by simp) hne _) hws

end Ends

theorem tokenize_insert {a b w : String} {tokens : List Token}
    (htokens : tokenize (a ++ b) = .ok tokens)
    (ha : a = "" ∨ ∃ t ∈ tokens, t.start + t.length = a.utf8ByteSize)
    (hw : Separates w.toList) :
    ∃ tokens', tokenize (a ++ w ++ b) = .ok tokens' ∧
      tokens'.map written = tokens.map written := by
  obtain ⟨tiles, htiling⟩ := exists_tiling (a ++ b).toList
  have hread : read [] tiles = .ok tokens := by
    rw [← htokens, ← tokensFrom_tiling htiling]
    rfl
  have hplace : a.toList = [] ∨
      ∃ t ∈ tokens, t.start + t.length = byteSize ([] ++ a.toList) := by
    rw [List.nil_append, byteSize_toList, String.toList_eq_nil_iff]
    exact ha
  obtain ⟨ws, hws, hwritten⟩ := htiling.insert hread String.toList_append hplace hw
  rw [← List.append_assoc, ← String.toList_append, ← String.toList_append] at hws
  obtain ⟨tokens', htokens', hwritten'⟩ := hws.tokenize
  exact ⟨tokens', htokens', by rw [hwritten', hwritten]⟩

end MiniC.Token
