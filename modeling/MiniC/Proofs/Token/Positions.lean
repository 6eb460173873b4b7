import MiniC.Proofs.Text.Slice
import MiniC.Proofs.Token.Separation

/-!
# Tokens stand where they say

The offsets and lines of tokens and broken literals are true of the source text, on every call of
the scanner, also behind a broken literal. Every offset lies between two characters, so that every
slice of the source taken with them exists. This says nothing about which tokens are read.
-/

namespace MiniC

set_option autoImplicit false

open Text (byteSize lineFeeds slice? byteSize_append byteSize_pos byteSize_toList
  slice?_eq_some_iff)

namespace ScanError

def line : ScanError → Nat
  | .unterminatedString line _ _ | .malformedFloat line _ _ => line

def start : ScanError → Nat
  | .unterminatedString _ start _ | .malformedFloat _ start _ => start

def cursor : ScanError → Nat
  | .unterminatedString _ _ cursor | .malformedFloat _ _ cursor => cursor

/-- The bytes of a broken literal are a slice of the source, and its line is the one where it was
given up. -/
structure StandsIn (source : String) (e : ScanError) : Prop where
  start_lt : e.start < e.cursor
  cursor_le : e.cursor ≤ source.utf8ByteSize
  text : (slice? e.start e.cursor source.toList).isSome
  line : (slice? 0 e.cursor source.toList).map lineFeeds = some e.line

end ScanError

/-- The bytes of a token are a slice of the source, which is its lexeme or, for a string, its lexeme
in quotes. Its line is the one on which it ends, and only a string may begin on another one. -/
structure Token.StandsIn (source : String) (t : Token) : Prop where
  stop_le : t.start + t.length ≤ source.utf8ByteSize
  stop_eq : source.utf8ByteSize < UInt64.size → t.stop = .ok (t.start + t.length)
  lexeme : t.kind ≠ .string →
    slice? t.start (t.start + t.length) source.toList = some t.lexeme.toList
  body : t.kind = .string →
    slice? (t.start + 1) (t.start + t.length - 1) source.toList = some t.lexeme.toList
  quotes : t.kind = .string → slice? t.start (t.start + 1) source.toList = some ['"'] ∧
    slice? (t.start + t.length - 1) (t.start + t.length) source.toList = some ['"']
  line : (slice? 0 (t.start + t.length) source.toList).map lineFeeds = some t.line
  line_start : t.kind ≠ .string → (slice? 0 t.start source.toList).map lineFeeds = some t.line
  length_pos : t.kind ≠ .endOfInput → 0 < t.length
  endOfInput : t.kind = .endOfInput →
    t.start = source.utf8ByteSize ∧ t.length = 0 ∧ t.lexeme = ""

namespace Scan

def StandsIn (source : String) (s : Scan) : Prop :=
  match s.result with
  | .ok t => t.StandsIn source
  | .error e => e.StandsIn source

def start (s : Scan) : Nat :=
  match s.result with
  | .ok t => t.start
  | .error e => e.start

def stop (s : Scan) : Nat :=
  match s.result with
  | .ok t => t.start + t.length
  | .error e => e.cursor

end Scan

namespace Token

variable {kind : Kind} {before text lexeme rest : List Char} {source : String}

theorem Lexical.lexeme_eq (h : Lexical kind text lexeme) (hkind : kind ≠ .string) :
    lexeme = text := by
  cases h with
  | string => exact absurd rfl hkind
  | _ => rfl

section Slices

theorem slice?_of_split {start stop : Nat} (hsource : source.toList = before ++ text ++ rest)
    (hstart : start = byteSize before) (hstop : stop = byteSize before + byteSize text) :
    slice? start stop source.toList = some text := by
  rw [slice?_eq_some_iff]
  refine ⟨before, rest, hsource, hstart.symm, ?_⟩
  rw [byteSize_append, hstop]

theorem lineFeeds_slice? (hsource : source.toList = before ++ text ++ rest) :
    (slice? 0 (byteSize before + byteSize text) source.toList).map lineFeeds =
      some (lineFeeds (before ++ text)) := by
  have h : slice? 0 (byteSize before + byteSize text) source.toList = some (before ++ text) := by
    rw [slice?_eq_some_iff]
    exact ⟨[], rest, hsource, rfl, byteSize_append before text⟩
  rw [h]
  rfl

theorem byteSize_add_le (hsource : source.toList = before ++ text ++ rest) :
    byteSize before + byteSize text ≤ source.utf8ByteSize := by
  rw [← byteSize_toList, hsource, byteSize_append, byteSize_append]
  omega

theorem stop_place (hsource : source.toList = before ++ text ++ rest)
    (hsize : source.utf8ByteSize < UInt64.size) :
    (place before text kind lexeme).stop = .ok (byteSize before + byteSize text) := by
  have hle := byteSize_add_le hsource
  exact if_pos (Nat.lt_of_le_of_lt hle hsize)

/-- A token that is no string stands where it was read. The end token has no characters. -/
theorem standsIn_plain (hsource : source.toList = before ++ text ++ rest) (hkind : kind ≠ .string)
    (hline : '\n' ∉ text) (hne : kind ≠ .endOfInput → text ≠ [])
    (hend : kind = .endOfInput → text = [] ∧ rest = []) :
    (place before text kind text).StandsIn source where
  stop_le := byteSize_add_le hsource
  stop_eq := stop_place hsource
  lexeme _ := by
    simp only [place, String.toList_ofList]
    exact slice?_of_split hsource rfl rfl
  body h := absurd h hkind
  quotes h := absurd h hkind
  line := lineFeeds_slice? hsource
  line_start _ := by
    have hsplit : source.toList = before ++ [] ++ (text ++ rest) := by simp [hsource]
    have h := lineFeeds_slice? hsplit
    have hzero : lineFeeds text = 0 := List.count_eq_zero.mpr hline
    simp only [place, Text.lineFeeds_append, hzero]
    simpa using h
  length_pos h := byteSize_pos (hne h)
  endOfInput h := by
    obtain ⟨rfl, rfl⟩ := hend h
    refine ⟨?_, rfl, rfl⟩
    rw [← byteSize_toList, hsource, List.append_nil, List.append_nil]
    rfl

theorem byteSize_quoted (lexeme : List Char) :
    byteSize ['"'] = 1 ∧ byteSize ('"' :: (lexeme ++ ['"'])) = byteSize lexeme + 2 := by
  have hquote : byteSize ['"'] = 1 := rfl
  refine ⟨hquote, ?_⟩
  rw [← List.singleton_append, byteSize_append, byteSize_append, hquote]
  omega

theorem standsIn_string (hsource : source.toList = before ++ '"' :: (lexeme ++ ['"']) ++ rest) :
    (place before ('"' :: (lexeme ++ ['"'])) .string lexeme).StandsIn source where
  stop_le := byteSize_add_le hsource
  stop_eq := stop_place hsource
  lexeme h := absurd rfl h
  body _ := by
    obtain ⟨hquote, hquoted⟩ := byteSize_quoted lexeme
    have hsplit : source.toList = before ++ ['"'] ++ lexeme ++ '"' :: rest := by simp [hsource]
    simp only [place, String.toList_ofList, hquoted]
    apply slice?_of_split hsplit
    · rw [byteSize_append, hquote]
    · rw [byteSize_append, hquote]
      omega
  quotes _ := by
    obtain ⟨hquote, hquoted⟩ := byteSize_quoted lexeme
    have hfirst : source.toList = before ++ ['"'] ++ (lexeme ++ '"' :: rest) := by simp [hsource]
    have hlast : source.toList = before ++ '"' :: lexeme ++ ['"'] ++ rest := by simp [hsource]
    have hbody : byteSize (before ++ '"' :: lexeme) = byteSize before + byteSize lexeme + 1 := by
      rw [← List.singleton_append, byteSize_append, byteSize_append, hquote]
      omega
    simp only [place, hquoted]
    refine ⟨?_, ?_⟩
    · apply slice?_of_split hfirst rfl
      rw [hquote]
    · apply slice?_of_split hlast
      · omega
      · omega
  line := lineFeeds_slice? hsource
  line_start h := absurd rfl h
  length_pos _ := byteSize_pos (List.cons_ne_nil _ _)
  endOfInput h := nomatch h

end Slices

/-- What a call answers that has passed the characters `before` and reads `text`, with `rest` behind
it. -/
inductive Reads (before : List Char) : List Char → List Char → Except ScanError Token → Prop
  | endOfInput : Reads before [] [] (.ok (place before [] .endOfInput []))
  | token {kind : Kind} {text lexeme rest : List Char} (h : Lexical kind text lexeme) :
    Reads before text rest (.ok (place before text kind lexeme))
  | unterminatedString {text rest : List Char} (hne : text ≠ []) :
    Reads before text rest (.error (.unterminatedString (lineFeeds (before ++ text))
      (byteSize before) (byteSize (before ++ text))))
  | malformedFloat {text rest : List Char} (hne : text ≠ []) :
    Reads before text rest (.error (.malformedFloat (lineFeeds (before ++ text))
      (byteSize before) (byteSize (before ++ text))))

theorem standsIn_error {e : ScanError} (hsource : source.toList = before ++ text ++ rest)
    (hne : text ≠ []) (hline : e.line = lineFeeds (before ++ text))
    (hstart : e.start = byteSize before) (hcursor : e.cursor = byteSize (before ++ text)) :
    e.StandsIn source := by
  rw [byteSize_append] at hcursor
  have hpos := byteSize_pos hne
  refine ⟨by omega, ?_, ?_, ?_⟩
  · rw [hcursor]
    exact byteSize_add_le hsource
  · rw [slice?_of_split hsource hstart hcursor]
    rfl
  · rw [hcursor, hline]
    exact lineFeeds_slice? hsource

theorem Reads.standsIn {s : Scan} (h : Reads before text rest s.result)
    (hsource : source.toList = before ++ text ++ rest) : s.StandsIn source := by
  unfold Scan.StandsIn
  generalize s.result = result at h
  cases h with
  | endOfInput => exact standsIn_plain hsource nofun nofun (absurd rfl) fun _ => ⟨rfl, rfl⟩
  | @token kind _ lexeme _ h =>
    by_cases hkind : kind = .string
    · subst hkind
      obtain rfl := h.quoted
      exact standsIn_string hsource
    · obtain rfl := h.lexeme_eq hkind
      apply standsIn_plain hsource hkind
      · intro hline
        exact h.no_blank hkind '\n' hline rfl
      · intro _
        exact h.ne_nil
      · intro hend
        exact absurd hend h.not_endOfInput
  | unterminatedString hne => exact standsIn_error hsource hne rfl rfl rfl
  | malformedFloat hne => exact standsIn_error hsource hne rfl rfl rfl

theorem Reads.span {s : Scan} (h : Reads before text rest s.result) :
    s.start = byteSize before ∧ s.stop = byteSize (before ++ text) := by
  unfold Scan.start Scan.stop
  generalize s.result = result at h
  cases h with
  | endOfInput => exact ⟨rfl, (byteSize_append before []).symm⟩
  | token => exact ⟨rfl, (byteSize_append before text).symm⟩
  | unterminatedString | malformedFloat => exact ⟨rfl, rfl⟩

/-- A call from behind the characters `before` skips some of the characters `cs`, reads some, and
leaves the cursor behind them. -/
def ReadsOn (before cs : List Char) (s : Scan) : Prop :=
  ∃ skipped text rest, cs = skipped ++ text ++ rest ∧
    s.cursor = cursorAt (before ++ skipped ++ text) rest ∧
    Reads (before ++ skipped) text rest s.result

theorem Reads.here {s : Scan} (h : Reads before text rest s.result)
    (hcursor : s.cursor = cursorAt (before ++ text) rest) : ReadsOn before (text ++ rest) s := by
  refine ⟨[], text, rest, rfl, ?_⟩
  rw [List.append_nil]
  exact ⟨hcursor, h⟩

theorem ReadsOn.skip {s s' : Scan} (h : ReadsOn (before ++ text) rest s)
    (hcursor : s'.cursor = s.cursor) (hresult : s'.result = s.result) :
    ReadsOn before (text ++ rest) s' := by
  obtain ⟨skipped, read, rest, rfl, hstop, hread⟩ := h
  refine ⟨text ++ skipped, read, rest, ?_, ?_, ?_⟩
  · simp only [List.append_assoc]
  · rw [hcursor, hstop, List.append_assoc before]
  · rw [hresult, ← List.append_assoc]
    exact hread

theorem readsOn_next {cs : List Char} {tiles : List Tile} (h : Tiling cs tiles)
    (before : List Char) : ReadsOn before cs (cursorAt before cs).next := by
  induction h generalizing before with
  | nil =>
    rw [next_nil]
    refine ⟨[], [], [], rfl, ?_⟩
    rw [List.append_nil, List.append_nil]
    exact ⟨rfl, .endOfInput⟩
  | @cons piece taken rest tiles hb hrest ih =>
    obtain ⟨c, more, rfl⟩ := List.exists_cons_of_ne_nil hb.ne_nil
    have hnext := next_cons before c (more ++ rest)
    rw [munch_of_begins hb] at hnext
    rw [List.cons_append, hnext, ← List.cons_append]
    cases piece with
    | blank => exact (ih (before ++ c :: more)).skip rfl rfl
    | stray => exact (ih (before ++ c :: more)).skip rfl rfl
    | token kind lexeme =>
      cases hb with
      | token _ hlongest _ => exact Reads.here (.token hlongest.lexical) rfl
    | unterminatedString => exact Reads.here (.unterminatedString (List.cons_ne_nil c more)) rfl
    | malformedFloat => exact Reads.here (.malformedFloat (List.cons_ne_nil c more)) rfl

/-- Calls from behind the characters `before` read slices of the source that lie behind these
characters, one behind the other. -/
theorem standsIn_steps (hsource : source.toList = before ++ rest) (n : Nat) :
    (∀ s ∈ (cursorAt before rest).steps n, s.StandsIn source ∧ byteSize before ≤ s.start) ∧
      ((cursorAt before rest).steps n).Pairwise fun s s' => s.stop ≤ s'.start := by
  induction n generalizing before rest with
  | zero => exact ⟨nofun, .nil⟩
  | succ n ih =>
    obtain ⟨tiles, htiling⟩ := exists_tiling rest
    obtain ⟨skipped, text, rest, rfl, hcursor, hreads⟩ := readsOn_next htiling before
    obtain ⟨hstart, hstop⟩ := hreads.span
    have hsplit : source.toList = before ++ skipped ++ text ++ rest := by
      simp only [hsource, List.append_assoc]
    obtain ⟨hmore, hpairwise⟩ := ih hsplit
    rw [Cursor.steps, hcursor, List.forall_mem_cons, List.pairwise_cons]
    refine ⟨⟨⟨hreads.standsIn hsplit, ?_⟩, ?_⟩, ?_, hpairwise⟩
    · rw [hstart, byteSize_append]
      omega
    · intro s hs
      obtain ⟨hstands, hbehind⟩ := hmore s hs
      refine ⟨hstands, ?_⟩
      simp only [byteSize_append] at hbehind
      omega
    · intro s hs
      rw [hstop]
      exact (hmore s hs).2

/-- Whatever is read by any number of calls stands in the source where it says, and the slices of
different calls follow each other without overlap. -/
theorem steps_standIn (source : String) (n : Nat) :
    (∀ s ∈ (Cursor.ofSource source).steps n, s.StandsIn source) ∧
      ((Cursor.ofSource source).steps n).Pairwise fun s s' => s.stop ≤ s'.start := by
  have hsource : source.toList = [] ++ source.toList := rfl
  obtain ⟨hstands, hpairwise⟩ := standsIn_steps hsource n
  exact ⟨fun s hs => (hstands s hs).1, hpairwise⟩

/-- A broken number and an open string, with a character of two bytes before them and a line feed in
the string. -/
theorem steps_standIn_broken :
    ∃ s₁ s₂ s₃, (Cursor.ofSource "é1.\n\"é\n").steps 3 = [s₁, s₂, s₃] ∧
      s₁.result = .error (.malformedFloat 0 2 4) ∧ s₂.result = .error (.unterminatedString 2 5 9) ∧
      s₃.result = .ok ⟨.endOfInput, 2, 9, 0, ""⟩ ∧
      (∀ s ∈ [s₁, s₂, s₃], s.StandsIn "é1.\n\"é\n") ∧ s₁.stop ≤ s₂.start ∧ s₂.stop ≤ s₃.start := by
  obtain ⟨hstands, hpairwise⟩ := steps_standIn "é1.\n\"é\n" 3
  obtain ⟨hfirst, hmore⟩ := List.pairwise_cons.mp hpairwise
  obtain ⟨hsecond, _⟩ := List.pairwise_cons.mp hmore
  refine ⟨_, _, _, rfl, by cbv, by cbv, by cbv, hstands, ?_, ?_⟩
  · exact hfirst _ List.mem_cons_self
  · exact hsecond _ List.mem_cons_self

end Token

end MiniC
