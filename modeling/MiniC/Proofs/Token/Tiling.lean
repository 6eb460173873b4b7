import Mathlib
import MiniC.Proofs.Sequence
import MiniC.Proofs.Token.Pieces
import MiniC.Token.Scanner

/-!
# The tokens of a source text

The rules for pieces cut every source text in exactly one way. Tokenizing reads the tokens off this
tiling, up to the first broken literal, so that every byte outside of the tokens belongs to a blank,
a comment or a stray character.
-/

namespace MiniC.Token

set_option autoImplicit false

open Text (byteSize lineFeeds byteSize_append)

structure Tile where
  piece : Piece
  text : List Char

/-- A text cut into pieces from left to right. -/
inductive Tiling : List Char → List Tile → Prop
  | nil : Tiling [] []
  | cons {piece : Piece} {taken rest : List Char} {tiles : List Tile}
    (h : Begins piece taken rest) (hrest : Tiling rest tiles) :
    Tiling (taken ++ rest) (⟨piece, taken⟩ :: tiles)

theorem exists_tiling (cs : List Char) : ∃ tiles, Tiling cs tiles := by
  match cs with
  | [] => exact ⟨[], .nil⟩
  | c :: cs =>
    have hlength := munch_rest_length_le c cs
    obtain ⟨tiles, htiles⟩ := exists_tiling (munch c cs).rest
    have htiling := Tiling.cons (begins_munch c cs) htiles
    rw [List.cons_append, munch_split] at htiling
    exact ⟨_, htiling⟩
termination_by cs.length

theorem Tiling.unique {cs : List Char} {tiles tiles' : List Tile} (h : Tiling cs tiles)
    (h' : Tiling cs tiles') : tiles' = tiles := by
  induction h generalizing tiles' with
  | nil =>
    generalize hcs : ([] : List Char) = cs at h'
    cases h' with
    | nil => rfl
    | cons hb => exact absurd (List.append_eq_nil_iff.mp hcs.symm).1 hb.ne_nil
  | @cons piece taken rest tiles hb hrest ih =>
    generalize hcs : taken ++ rest = cs at h'
    cases h' with
    | nil => exact absurd (List.append_eq_nil_iff.mp hcs).1 hb.ne_nil
    | cons hb' hrest' =>
      obtain ⟨rfl, rfl, rfl⟩ := hb.unique hb' hcs.symm
      rw [ih hrest']

/-- The token that takes the characters `text` behind the characters `before`. -/
def place (before text : List Char) (kind : Kind) (lexeme : List Char) : Token :=
  { kind, line := lineFeeds (before ++ text), start := byteSize before, length := byteSize text,
    lexeme := String.ofList lexeme }

/-- The tokens of the pieces behind the characters `before`, and the end token, or the first broken
literal. -/
def read (before : List Char) : List Tile → Except ScanError (List Token)
  | [] => .ok [place before [] .endOfInput []]
  | ⟨.blank, text⟩ :: tiles | ⟨.stray, text⟩ :: tiles => read (before ++ text) tiles
  | ⟨.token kind lexeme, text⟩ :: tiles =>
    (read (before ++ text) tiles).map (place before text kind lexeme :: ·)
  | ⟨.unterminatedString, text⟩ :: _ =>
    .error (.unterminatedString (lineFeeds (before ++ text)) (byteSize before)
      (byteSize (before ++ text)))
  | ⟨.malformedFloat, text⟩ :: _ =>
    .error (.malformedFloat (lineFeeds (before ++ text)) (byteSize before)
      (byteSize (before ++ text)))

theorem read_cons_eq_ok {before text : List Char} {piece : Piece} {tiles : List Tile}
    {tokens : List Token} (h : read before (⟨piece, text⟩ :: tiles) = .ok tokens) :
    ∃ later, read (before ++ text) tiles = .ok later ∧
      ((piece = .blank ∨ piece = .stray) ∧ tokens = later ∨
        ∃ kind lexeme, piece = .token kind lexeme ∧
          tokens = place before text kind lexeme :: later) := by
  cases piece with
  | blank => exact ⟨tokens, h, .inl ⟨.inl rfl, rfl⟩⟩
  | stray => exact ⟨tokens, h, .inl ⟨.inr rfl, rfl⟩⟩
  | token kind lexeme =>
    obtain ⟨later, hlater, rfl⟩ := map_eq_ok_iff.mp h
    exact ⟨later, hlater, .inr ⟨kind, lexeme, rfl, rfl⟩⟩
  | unterminatedString => cases h
  | malformedFloat => cases h

def cursorAt (before rest : List Char) : Cursor :=
  ⟨rest, byteSize before, lineFeeds before⟩

theorem cursorAt_advance (before taken rest rest' : List Char) :
    (cursorAt before rest').advance taken rest = cursorAt (before ++ taken) rest := by
  simp [cursorAt, Cursor.advance]

/-- The tokens from a cursor to the end of the text, or the first broken literal. -/
def tokensFrom (c : Cursor) : Except ScanError (List Token) :=
  c.scans.mapM Scan.result

theorem tokensFrom_eq (c : Cursor) :
    tokensFrom c = (do
      let t ← c.next.result
      if t.kind = .endOfInput then .ok [t] else (tokensFrom c.next.cursor).map (t :: ·)) := by
  rw [tokensFrom, Cursor.scans]
  cases h : c.next.result with
  | error e =>
    rw [dif_pos (by simp [Scan.isLast, h]), List.mapM_cons, h]
    rfl
  | ok t =>
    change _ = if t.kind = .endOfInput then _ else _
    by_cases ht : t.kind = .endOfInput
    · rw [dif_pos (by simp [Scan.isLast, h, ht]), List.mapM_cons, h, if_pos ht]
      rfl
    · rw [dif_neg (by simp [Scan.isLast, h, ht]), List.mapM_cons, h, if_neg ht]
      rfl

/-- Two cursors from which the next call gives the same also scan the same tokens. -/
theorem tokensFrom_congr {c d : Cursor} (hresult : c.next.result = d.next.result)
    (hcursor : c.next.cursor = d.next.cursor) : tokensFrom c = tokensFrom d := by
  rw [tokensFrom_eq c, tokensFrom_eq d, hresult, hcursor]

theorem munch_of_begins {piece : Piece} {c : Char} {more rest : List Char}
    (h : Begins piece (c :: more) rest) : munch c (more ++ rest) = ⟨piece, more, rest⟩ := by
  have hmunch := begins_munch c (more ++ rest)
  obtain ⟨hpiece, hmore, hrest⟩ := h.unique hmunch (by rw [List.cons_append, munch_split]; rfl)
  injection hmore with _ hmore
  rcases hm : munch c (more ++ rest) with ⟨piece', more', rest'⟩
  rw [hm] at hpiece hmore hrest
  subst hpiece hmore hrest
  rfl

theorem token_cursorAt (before text rest rest' : List Char) (kind : Kind) (lexeme : List Char) :
    (cursorAt before rest').token (cursorAt (before ++ text) rest) kind lexeme =
      place before text kind lexeme := by
  simp [cursorAt, Cursor.token, place]

theorem next_nil (before : List Char) :
    (cursorAt before []).next = ⟨[], .ok (place before [] .endOfInput []), cursorAt before []⟩ := by
  rw [Cursor.next]
  simp [cursorAt, Cursor.endToken, place]

theorem next_cons (before : List Char) (c : Char) (cs : List Char) :
    (cursorAt before (c :: cs)).next =
      let text := c :: (munch c cs).more
      let stop := cursorAt (before ++ text) (munch c cs).rest
      match (munch c cs).piece with
      | .blank => stop.next
      | .stray => stop.next.after ⟨c, stop.line, byteSize before⟩
      | .token kind lexeme => ⟨[], .ok (place before text kind lexeme), stop⟩
      | .unterminatedString =>
        ⟨[], .error (.unterminatedString stop.line (byteSize before) stop.offset), stop⟩
      | .malformedFloat =>
        ⟨[], .error (.malformedFloat stop.line (byteSize before) stop.offset), stop⟩ := by
  have hstop := cursorAt_advance before (c :: (munch c cs).more) (munch c cs).rest (c :: cs)
  have htoken := token_cursorAt before (c :: (munch c cs).more) (munch c cs).rest (c :: cs)
  rw [Cursor.next]
  simp only [cursorAt] at hstop htoken ⊢
  rw [hstop]
  cases (munch c cs).piece with
  | token kind lexeme => simp only [htoken]
  | _ => rfl

theorem tokensFrom_tiling {cs : List Char} {tiles : List Tile} (h : Tiling cs tiles)
    (before : List Char) : tokensFrom (cursorAt before cs) = read before tiles := by
  induction h generalizing before with
  | nil =>
    rw [tokensFrom_eq, next_nil]
    rfl
  | @cons piece taken rest tiles hb hrest ih =>
    obtain ⟨c, more, rfl⟩ := List.exists_cons_of_ne_nil hb.ne_nil
    have hnext := next_cons before c (more ++ rest)
    rw [munch_of_begins hb] at hnext
    rw [List.cons_append]
    cases piece with
    | blank =>
      rw [read, ← ih]
      exact tokensFrom_congr (congrArg Scan.result hnext) (congrArg Scan.cursor hnext)
    | stray =>
      rw [read, ← ih]
      refine tokensFrom_congr ?_ ?_
      · rw [hnext]
        rfl
      · rw [hnext]
        rfl
    | token kind lexeme =>
      have hkind : kind ≠ .endOfInput := by
        cases hb with
        | token hcomment h => exact h.lexical.not_endOfInput
      rw [read, ← ih, tokensFrom_eq, hnext]
      exact if_neg hkind
    | unterminatedString =>
      rw [read, tokensFrom_eq, hnext]
      rfl
    | malformedFloat =>
      rw [read, tokensFrom_eq, hnext]
      rfl

def Covers (t : Token) (k : Nat) : Prop :=
  t.start ≤ k ∧ k < t.start + t.length

/-- The byte at offset `k` is one of a blank, a comment or a stray character, in pieces that follow
the characters `before`. -/
def Skipped (before : List Char) (tiles : List Tile) (k : Nat) : Prop :=
  ∃ front tile back, tiles = front ++ tile :: back ∧ (tile.piece = .blank ∨ tile.piece = .stray) ∧
    byteSize (before ++ front.flatMap Tile.text) ≤ k ∧
    k < byteSize (before ++ front.flatMap Tile.text ++ tile.text)

theorem Skipped.cons {before : List Char} {tile : Tile} {tiles : List Tile} {k : Nat}
    (h : Skipped (before ++ tile.text) tiles k) : Skipped before (tile :: tiles) k := by
  obtain ⟨front, skipped, back, rfl, hpiece, hlo, hhi⟩ := h
  refine ⟨tile :: front, skipped, back, rfl, hpiece, ?_, ?_⟩
  · rw [List.flatMap_cons, ← List.append_assoc]
    exact hlo
  · rw [List.flatMap_cons, ← List.append_assoc]
    exact hhi

theorem skipped_head {before text : List Char} {piece : Piece} {tiles : List Tile} {k : Nat}
    (hpiece : piece = .blank ∨ piece = .stray) (hlo : byteSize before ≤ k)
    (hhi : k < byteSize (before ++ text)) : Skipped before (⟨piece, text⟩ :: tiles) k :=
  ⟨[], ⟨piece, text⟩, tiles, rfl, hpiece, by simpa using hlo, by simpa using hhi⟩

/-- Every byte is one of a token or is skipped. -/
theorem covered_or_skipped {cs : List Char} {tiles : List Tile} (h : Tiling cs tiles)
    {before : List Char} {tokens : List Token} (hread : read before tiles = .ok tokens) {k : Nat}
    (hlo : byteSize before ≤ k) (hhi : k < byteSize (before ++ cs)) :
    (∃ t ∈ tokens, Covers t k) ∨ Skipped before tiles k := by
  induction h generalizing before tokens with
  | nil =>
    rw [List.append_nil] at hhi
    omega
  | @cons piece taken rest tiles hb hrest ih =>
    rw [← List.append_assoc] at hhi
    have hbehind : ∀ {tokens}, read (before ++ taken) tiles = .ok tokens →
        ¬ k < byteSize (before ++ taken) →
        (∃ t ∈ tokens, Covers t k) ∨ Skipped before (⟨piece, taken⟩ :: tiles) k := by
      intro tokens hread hk
      exact (ih hread (Nat.le_of_not_lt hk) hhi).imp_right Skipped.cons
    by_cases hk : k < byteSize (before ++ taken)
    · cases piece with
      | blank => exact .inr (skipped_head (.inl rfl) hlo hk)
      | stray => exact .inr (skipped_head (.inr rfl) hlo hk)
      | token kind lexeme =>
        obtain ⟨tokens', _, rfl⟩ := map_eq_ok_iff.mp hread
        rw [byteSize_append] at hk
        exact .inl ⟨_, List.mem_cons_self, hlo, hk⟩
      | unterminatedString => cases hread
      | malformedFloat => cases hread
    · cases piece with
      | blank => exact hbehind hread hk
      | stray => exact hbehind hread hk
      | token kind lexeme =>
        obtain ⟨tokens', hread', rfl⟩ := map_eq_ok_iff.mp hread
        exact (hbehind hread' hk).imp_left fun ⟨t, ht, hcovers⟩ =>
          ⟨t, List.mem_cons_of_mem _ ht, hcovers⟩
      | unterminatedString => cases hread
      | malformedFloat => cases hread

/-- The rules cut a source text in exactly one way. Tokenizing it gives the tokens of the pieces and
the end token, or the first broken literal, and every byte outside of the tokens is one of a blank,
a comment or a stray character. -/
theorem tokenize_eq_read (source : String) :
    ∃ tiles, Tiling source.toList tiles ∧
      (∀ tiles', Tiling source.toList tiles' → tiles' = tiles) ∧
      tokenize source = read [] tiles ∧
      ∀ tokens, tokenize source = .ok tokens → ∀ k < byteSize source.toList,
        (∃ t ∈ tokens, Covers t k) ∨ Skipped [] tiles k := by
  obtain ⟨tiles, htiling⟩ := exists_tiling source.toList
  have hread : tokenize source = read [] tiles := tokensFrom_tiling htiling []
  refine ⟨tiles, htiling, fun tiles' h' => htiling.unique h', hread, ?_⟩
  intro tokens htokens k hk
  rw [hread] at htokens
  exact covered_or_skipped htiling htokens (Nat.zero_le k) hk

/-- A comment ends an expression, and a string holds what looks like one. The comment and the stray
character at the end are skipped. -/
theorem tokenize_quotedComment :
    ∃ tiles, Tiling "x/=1.5//&\n\"//\"&".toList tiles ∧
      tokenize "x/=1.5//&\n\"//\"&" = .ok
        [⟨.identifier, 0, 0, 1, "x"⟩, ⟨.slashEqual, 0, 1, 2, "/="⟩, ⟨.decimal, 0, 3, 3, "1.5"⟩,
          ⟨.string, 1, 10, 4, "//"⟩, ⟨.endOfInput, 1, 15, 0, ""⟩] ∧
      Skipped [] tiles 8 ∧ Skipped [] tiles 14 := by
  obtain ⟨tiles, htiling, _, _, hcovers⟩ := tokenize_eq_read "x/=1.5//&\n\"//\"&"
  have htokens : tokenize "x/=1.5//&\n\"//\"&" = .ok
      [⟨.identifier, 0, 0, 1, "x"⟩, ⟨.slashEqual, 0, 1, 2, "/="⟩, ⟨.decimal, 0, 3, 3, "1.5"⟩,
        ⟨.string, 1, 10, 4, "//"⟩, ⟨.endOfInput, 1, 15, 0, ""⟩] := by cbv
  have hsize : byteSize "x/=1.5//&\n\"//\"&".toList = 15 := by cbv
  refine ⟨tiles, htiling, htokens, ?_, ?_⟩
  · exact (hcovers _ htokens 8 (by omega)).resolve_left (by simp [Covers])
  · exact (hcovers _ htokens 14 (by omega)).resolve_left (by simp [Covers])

end MiniC.Token
