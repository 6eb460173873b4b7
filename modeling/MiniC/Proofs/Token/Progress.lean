import MiniC.Proofs.Token.Positions

/-!
# The scanner goes forward and stops

A call of the scanner makes rounds: it skips piece after piece of the text, up to one that gives the
answer. Every piece has characters, so a call moves the cursor by a byte for each of its rounds at
least, unless it finds the end of the text. Hence there are no more calls than bytes before the end
token, also where scanning goes on behind broken literals, and the cursor stays at the end.
-/

namespace MiniC

set_option autoImplicit false

open Text (byteSize lineFeeds byteSize_append byteSize_pos byteSize_toList)

def Scan.AtEnd (s : Scan) : Prop :=
  ∃ t, s.result = .ok t ∧ t.kind = .endOfInput

namespace Cursor

def after : Nat → Cursor → Cursor
  | 0, c => c
  | n + 1, c => after n c.next.cursor

variable {c : Cursor}

theorem after_add (c : Cursor) (n k : Nat) : c.after (n + k) = (c.after n).after k := by
  induction n generalizing c with
  | zero => rw [Nat.zero_add, after]
  | succ n ih =>
    rw [Nat.succ_add]
    exact ih c.next.cursor

theorem after_succ (c : Cursor) (n : Nat) : c.after (n + 1) = (c.after n).next.cursor :=
  after_add c n 1

theorem mem_steps {n k : Nat} (h : k < n) : (c.after k).next ∈ c.steps n := by
  induction n generalizing c k with
  | zero => cases h
  | succ n ih =>
    rw [steps]
    cases k with
    | zero => exact List.mem_cons_self
    | succ k => exact List.mem_cons_of_mem _ (ih (Nat.lt_of_succ_lt_succ h))

theorem next_of_rest_nil (h : c.rest = []) : c.next = ⟨[], .ok c.endToken, c⟩ := by
  obtain ⟨rest, offset, line⟩ := c
  subst h
  rw [next]

theorem after_of_rest_nil (h : c.rest = []) (n : Nat) : c.after n = c := by
  induction n with
  | zero => rfl
  | succ n ih => rw [after, next_of_rest_nil h, ih]

/-- Scanning a text makes the calls up to the first one that is the last. -/
theorem exists_scans_eq_steps (c : Cursor) :
    ∃ n, c.scans = c.steps (n + 1) ∧ (c.after n).next.isLast ∧
      ∀ k < n, (c.after k).next.isLast = false := by
  fun_induction scans c with
  | case1 c h => exact ⟨0, rfl, h, by simp⟩
  | case2 c h ih =>
    obtain ⟨n, hscans, hlast, hbefore⟩ := ih
    refine ⟨n + 1, congrArg (c.next :: ·) hscans, hlast, ?_⟩
    intro k hk
    cases k with
    | zero => exact Bool.eq_false_iff.mpr h
    | succ k => exact hbefore k (Nat.lt_of_succ_lt_succ hk)

end Cursor

namespace Token

variable {source : String} {result : Except ScanError Token} {c stop : Cursor} {n : Nat}

/-- A call from a cursor ends after `n` rounds with a result, and leaves the cursor `stop`. All
rounds but the last one skip a piece. -/
inductive Rounds : Nat → Cursor → Except ScanError Token → Cursor → Prop
  | endOfInput {before : List Char} : Rounds 1 (cursorAt before [])
    (.ok (place before [] .endOfInput [])) (cursorAt before [])
  | token {before text rest lexeme : List Char} {kind : Kind}
    (h : Begins (.token kind lexeme) text rest) : Rounds 1 (cursorAt before (text ++ rest))
    (.ok (place before text kind lexeme)) (cursorAt (before ++ text) rest)
  | unterminatedString {before text rest : List Char} (h : Begins .unterminatedString text rest) :
    Rounds 1 (cursorAt before (text ++ rest))
    (.error (.unterminatedString (lineFeeds (before ++ text)) (byteSize before)
      (byteSize (before ++ text)))) (cursorAt (before ++ text) rest)
  | malformedFloat {before text rest : List Char} (h : Begins .malformedFloat text rest) :
    Rounds 1 (cursorAt before (text ++ rest))
    (.error (.malformedFloat (lineFeeds (before ++ text)) (byteSize before)
      (byteSize (before ++ text)))) (cursorAt (before ++ text) rest)
  | skip {n : Nat} {piece : Piece} {before text rest : List Char} {result : Except ScanError Token}
    {stop : Cursor} (h : Begins piece text rest) (hpiece : piece = .blank ∨ piece = .stray)
    (hmore : Rounds n (cursorAt (before ++ text) rest) result stop) :
    Rounds (n + 1) (cursorAt before (text ++ rest)) result stop

/-- Every call comes to an end. -/
theorem exists_rounds {cs : List Char} {tiles : List Tile} (h : Tiling cs tiles)
    (before : List Char) :
    ∃ n, Rounds n (cursorAt before cs) (cursorAt before cs).next.result
      (cursorAt before cs).next.cursor := by
  -- the induction is on the pieces of the text, of which there are finitely many
  induction h generalizing before with
  | nil =>
    rw [next_nil]
    exact ⟨1, .endOfInput⟩
  | @cons piece taken rest tiles hb hrest ih =>
    obtain ⟨d, more, rfl⟩ := List.exists_cons_of_ne_nil hb.ne_nil
    have hnext := next_cons before d (more ++ rest)
    rw [munch_of_begins hb] at hnext
    rw [List.cons_append, hnext, ← List.cons_append]
    cases piece with
    | blank | stray =>
      obtain ⟨n, hrounds⟩ := ih (before ++ d :: more)
      exact ⟨n + 1, .skip hb (by simp) hrounds⟩
    | token kind lexeme => exact ⟨1, .token hb⟩
    | unterminatedString => exact ⟨1, .unterminatedString hb⟩
    | malformedFloat => exact ⟨1, .malformedFloat hb⟩

theorem Begins.offset_lt {piece : Piece} {text rest : List Char} (h : Begins piece text rest)
    (before : List Char) : byteSize before < byteSize (before ++ text) := by
  have hpos := byteSize_pos h.ne_nil
  rw [byteSize_append]
  omega

namespace Rounds

/-- A call moves by a byte for each round, except in a round that finds the end of the text. -/
theorem offset_le (h : Rounds n c result stop) : c.offset + n ≤ stop.offset + 1 := by
  induction h with
  | endOfInput => exact Nat.le_refl _
  | token h | unterminatedString h | malformedFloat h =>
    exact Nat.le_trans (h.offset_lt _) (Nat.le_succ _)
  | @skip n piece before text rest result stop h _ _ ih =>
    have hlt := h.offset_lt before
    simp only [cursorAt] at ih ⊢
    omega

theorem offset_lt (h : Rounds n c result stop)
    (hend : ∀ t, result = .ok t → t.kind ≠ .endOfInput) : c.offset < stop.offset := by
  induction h with
  | endOfInput => exact absurd rfl (hend _ rfl)
  | token h | unterminatedString h | malformedFloat h => exact h.offset_lt _
  | skip h _ _ ih => exact Nat.lt_trans (h.offset_lt _) (ih hend)

theorem of_end (h : Rounds n c result stop) {t : Token} (hresult : result = .ok t)
    (hkind : t.kind = .endOfInput) : stop.rest = [] ∧ t = stop.endToken := by
  induction h with
  | @endOfInput before =>
    cases hresult
    refine ⟨rfl, ?_⟩
    simp [place, Cursor.endToken, cursorAt]
  | token h =>
    cases hresult
    cases h with
    | token _ hlongest _ => exact absurd hkind hlongest.lexical.not_endOfInput
  | unterminatedString | malformedFloat => cases hresult
  | skip _ _ _ ih => exact ih hresult

theorem of_unterminatedString (h : Rounds n c result stop) {line start cursor : Nat}
    (hresult : result = .error (.unterminatedString line start cursor)) : stop.rest = [] := by
  induction h with
  | endOfInput | token | malformedFloat => cases hresult
  | unterminatedString h =>
    cases h
    rfl
  | skip _ _ _ ih => exact ih hresult

end Rounds

section Source

/-- Wherever calls have led, the cursor stands between two parts of the source. -/
theorem exists_cursorAt (source : String) (n : Nat) :
    ∃ before rest, source.toList = before ++ rest ∧
      (Cursor.ofSource source).after n = cursorAt before rest := by
  induction n with
  | zero => exact ⟨[], source.toList, rfl, rfl⟩
  | succ n ih =>
    obtain ⟨before, cs, hsource, hc⟩ := ih
    obtain ⟨tiles, htiling⟩ := exists_tiling cs
    obtain ⟨skipped, text, rest, rfl, hcursor, _⟩ := readsOn_next htiling before
    rw [Cursor.after_succ, hc]
    refine ⟨before ++ skipped ++ text, rest, ?_, hcursor⟩
    simp only [hsource, List.append_assoc]

theorem offset_after_le (source : String) (n : Nat) :
    ((Cursor.ofSource source).after n).offset ≤ source.utf8ByteSize := by
  obtain ⟨before, rest, hsource, hc⟩ := exists_cursorAt source n
  rw [hc, ← byteSize_toList, hsource, byteSize_append]
  exact Nat.le_add_right _ _

theorem exists_rounds_after (source : String) (n : Nat) :
    ∃ rounds, Rounds rounds ((Cursor.ofSource source).after n)
      ((Cursor.ofSource source).after n).next.result ((Cursor.ofSource source).after (n + 1)) := by
  obtain ⟨before, rest, _, hc⟩ := exists_cursorAt source n
  obtain ⟨tiles, htiling⟩ := exists_tiling rest
  rw [Cursor.after_succ, hc]
  exact exists_rounds htiling before

theorem offset_lt_after (hend : ¬ ((Cursor.ofSource source).after n).next.AtEnd) :
    ((Cursor.ofSource source).after n).offset <
      ((Cursor.ofSource source).after (n + 1)).offset := by
  obtain ⟨rounds, hrounds⟩ := exists_rounds_after source n
  apply hrounds.offset_lt
  intro t hresult hkind
  exact hend ⟨t, hresult, hkind⟩

theorem le_offset_after (h : ∀ k < n, ¬ ((Cursor.ofSource source).after k).next.AtEnd) :
    n ≤ ((Cursor.ofSource source).after n).offset := by
  induction n with
  | zero => exact Nat.zero_le _
  | succ n ih =>
    have hn := ih fun k hk => h k (Nat.lt_succ_of_lt hk)
    have hlt := offset_lt_after (h n (Nat.lt_succ_self n))
    omega

theorem next_after_end {k : Nat} (h : ((Cursor.ofSource source).after n).rest = []) (hk : n ≤ k) :
    ((Cursor.ofSource source).after k).next.result =
      .ok ((Cursor.ofSource source).after n).endToken := by
  obtain ⟨d, rfl⟩ := Nat.exists_eq_add_of_le hk
  rw [Cursor.after_add, Cursor.after_of_rest_nil h, Cursor.next_of_rest_nil h]

theorem endToken_after (h : ((Cursor.ofSource source).after n).rest = []) :
    ((Cursor.ofSource source).after n).endToken =
      ⟨.endOfInput, lineFeeds source.toList, source.utf8ByteSize, 0, ""⟩ := by
  obtain ⟨before, rest, hsource, hc⟩ := exists_cursorAt source n
  rw [hc] at h ⊢
  obtain rfl : rest = [] := h
  rw [List.append_nil] at hsource
  rw [← byteSize_toList, hsource]
  rfl

theorem exists_atEnd (source : String) :
    ∃ s ∈ (Cursor.ofSource source).steps (source.utf8ByteSize + 1), s.AtEnd := by
  by_contra hnone
  have hmoved : source.utf8ByteSize + 1 ≤
      ((Cursor.ofSource source).after (source.utf8ByteSize + 1)).offset := by
    apply le_offset_after
    intro k hk hend
    exact hnone ⟨_, Cursor.mem_steps hk, hend⟩
  have hinside := offset_after_le source (source.utf8ByteSize + 1)
  omega

theorem tokenize_eq_steps (source : String) :
    ∃ calls ≤ source.utf8ByteSize,
      tokenize source = ((Cursor.ofSource source).steps (calls + 1)).mapM Scan.result ∧
      ((Cursor.ofSource source).after calls).next.isLast ∧
      ∀ k < calls, ((Cursor.ofSource source).after k).next.isLast = false := by
  obtain ⟨calls, hscans, hlast, hbefore⟩ := Cursor.exists_scans_eq_steps (Cursor.ofSource source)
  refine ⟨calls, ?_, by rw [tokenize, hscans], hlast, hbefore⟩
  apply Nat.le_trans _ (offset_after_le source calls)
  apply le_offset_after
  rintro k hk ⟨t, hresult, hkind⟩
  have hnot := hbefore k hk
  simp [Scan.isLast, hresult, hkind] at hnot

theorem next_after_atEnd {k : Nat} {t : Token}
    (hresult : ((Cursor.ofSource source).after n).next.result = .ok t)
    (hkind : t.kind = .endOfInput) (hk : n ≤ k) :
    ((Cursor.ofSource source).after k).next.result = .ok t := by
  obtain ⟨rounds, hrounds⟩ := exists_rounds_after source n
  obtain ⟨hrest, ht⟩ := hrounds.of_end hresult hkind
  rcases Nat.eq_or_lt_of_le hk with rfl | hk
  · exact hresult
  · rw [ht]
    exact next_after_end hrest hk

theorem next_after_unterminatedString {line start cursor : Nat}
    (hresult : ((Cursor.ofSource source).after n).next.result =
      .error (.unterminatedString line start cursor)) :
    ((Cursor.ofSource source).after (n + 1)).next.result =
      .ok ⟨.endOfInput, lineFeeds source.toList, source.utf8ByteSize, 0, ""⟩ := by
  obtain ⟨rounds, hrounds⟩ := exists_rounds_after source n
  have hrest := hrounds.of_unterminatedString hresult
  rw [← endToken_after hrest]
  exact next_after_end hrest (Nat.le_refl _)

end Source

/-- The calls of the scanner on a source text. Each ends after some rounds, at most as many as there
are bytes and one. One that does not give the end token, be it a token or a broken literal, moves
the cursor forward, so with as many calls as bytes and one the end token is among the results, and
tokenizing stops. All further calls give the same end token, and an open string is followed by
it. -/
theorem scanner_reaches_end (source : String) :
    let c n := (Cursor.ofSource source).after n
    let size := source.utf8ByteSize
    (∀ n, ∃ rounds ≤ size + 1, Rounds rounds (c n) (c n).next.result (c (n + 1))) ∧
    (∀ n, ¬ (c n).next.AtEnd → (c n).offset < (c (n + 1)).offset) ∧
    (∃ s ∈ (Cursor.ofSource source).steps (size + 1), s.AtEnd) ∧
    (∃ calls ≤ size, tokenize source =
        ((Cursor.ofSource source).steps (calls + 1)).mapM Scan.result ∧
      (c calls).next.isLast ∧ ∀ k < calls, (c k).next.isLast = false) ∧
    (∀ n t, (c n).next.result = .ok t → t.kind = .endOfInput →
      ∀ k ≥ n, (c k).next.result = .ok t) ∧
    ∀ n line start cursor, (c n).next.result = .error (.unterminatedString line start cursor) →
      (c (n + 1)).next.result = .ok ⟨.endOfInput, lineFeeds source.toList, size, 0, ""⟩ := by
  intro c size
  refine ⟨?_, fun n => offset_lt_after, exists_atEnd source, tokenize_eq_steps source, ?_, ?_⟩
  · intro n
    obtain ⟨rounds, hrounds⟩ := exists_rounds_after source n
    have hle : (c n).offset + rounds ≤ (c (n + 1)).offset + 1 := hrounds.offset_le
    have hinside : (c (n + 1)).offset ≤ size := offset_after_le source (n + 1)
    exact ⟨rounds, by omega, hrounds⟩
  · intro n t hresult hkind k hk
    exact next_after_atEnd hresult hkind hk
  · intro n line start cursor hresult
    exact next_after_unterminatedString hresult

/-- A stray character, a broken number and an open string. The third call finds the end behind the
line feed in the string, and so does every later one. -/
theorem scanner_reaches_end_broken :
    let c := Cursor.ofSource "&1. \"é\n"
    c.next.result = .error (.malformedFloat 0 1 3) ∧
    (c.after 1).next.result = .error (.unterminatedString 1 4 8) ∧
    (c.after 1).offset < (c.after 2).offset ∧
    ∀ k ≥ 2, (c.after k).next.result = .ok ⟨.endOfInput, 1, 8, 0, ""⟩ := by
  intro c
  obtain ⟨_, hmoves, _, _, hstays, hopen⟩ := scanner_reaches_end "&1. \"é\n"
  have hfirst : (Cursor.ofSource "&1. \"é\n").next.result = .error (.malformedFloat 0 1 3) := by
    cbv
  have hsecond : ((Cursor.ofSource "&1. \"é\n").after 1).next.result =
      .error (.unterminatedString 1 4 8) := by cbv
  refine ⟨hfirst, hsecond, hmoves 1 ?_, ?_⟩
  · rintro ⟨t, ht, _⟩
    cases hsecond.symm.trans ht
  · exact hstays 2 _ (hopen 1 1 4 8 hsecond) rfl

end Token

end MiniC
