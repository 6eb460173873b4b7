import MiniC.Text.Bytes
import MiniC.Text.Output
import MiniC.Token.Munch

/-!
# Scanning

A cursor is a place in a source text. `Cursor.next` reads on to the next token; it drops stray
characters on the way, and goes on behind a broken literal when it is called again. Every call that
does not end the scan moves the cursor.
-/

namespace MiniC

set_option autoImplicit false

/-- A broken literal, with the line where reading stopped and the bytes that were read. -/
inductive ScanError where
  | unterminatedString (line start cursor : Nat)
  | malformedFloat (line start cursor : Nat)
  deriving DecidableEq, Repr

def ScanError.message : ScanError → String
  | .unterminatedString line start cursor =>
    s!"Unfinished string.\nAt line {line} ({start}, {cursor})"
  | .malformedFloat line start cursor =>
    s!"Expected number after .\nAt line {line} ({start}, {cursor})"

/-- A stray character with the line and the offset at which it stands. -/
structure Stray where
  char : Char
  line : Nat
  offset : Nat
  deriving DecidableEq, Repr

def Stray.message (s : Stray) : Message :=
  ⟨.trace, s!"ignoring character {Text.quotedChar s.char} at line {s.line}, offset {s.offset}"⟩

def Token.scanned (t : Token) : Message :=
  ⟨.trace, s!"token {t.kind.name} {Text.quoted t.lexeme} at {t.start}"⟩

/-- A place in a source text: the characters from there on, and how many bytes and line feeds lie
before it. -/
structure Cursor where
  rest : List Char
  offset : Nat
  line : Nat
  deriving DecidableEq, Repr

/-- What one call of `Cursor.next` reads: the stray characters it drops, the token or the broken
literal, and the place behind it. -/
structure Scan where
  strays : List Stray
  result : Except ScanError Token
  cursor : Cursor

namespace Scan

/-- Whether scanning a whole text ends here: at its end or at a broken literal. -/
def isLast (s : Scan) : Bool :=
  match s.result with
  | .ok token => token.kind = .endOfInput
  | .error _ => true

def after (stray : Stray) (s : Scan) : Scan :=
  { s with strays := stray :: s.strays }

/-- What scanning reports: the stray characters, then the token. -/
def messages (s : Scan) : List Message :=
  s.strays.map Stray.message ++
    match s.result with
    | .ok token => [token.scanned]
    | .error _ => []

end Scan

namespace Cursor

open Token (munch munch_rest_length_le)

def ofSource (source : String) : Cursor :=
  ⟨source.toList, 0, 0⟩

/-- The place behind the characters `taken`, where `rest` follows. -/
def advance (c : Cursor) (taken rest : List Char) : Cursor :=
  ⟨rest, c.offset + Text.byteSize taken, c.line + Text.lineFeeds taken⟩

def endToken (c : Cursor) : Token :=
  { kind := .endOfInput, line := c.line, start := c.offset, length := 0, lexeme := "" }

/-- The token with a kind and a lexeme that reaches from a place to another one. -/
def token (start stop : Cursor) (kind : Kind) (lexeme : List Char) : Token :=
  { kind, line := stop.line, start := start.offset, length := stop.offset - start.offset,
    lexeme := String.ofList lexeme }

/-- Reads the next token. At the end of the text every call gives the end token. -/
def next (c : Cursor) : Scan :=
  match _h : c.rest with
  | [] => ⟨[], .ok c.endToken, c⟩
  | ch :: cs =>
    let stop := c.advance (ch :: (munch ch cs).more) (munch ch cs).rest
    match (munch ch cs).piece with
    | .blank => next stop
    | .stray => (next stop).after ⟨ch, stop.line, c.offset⟩
    | .token kind lexeme => ⟨[], .ok (c.token stop kind lexeme), stop⟩
    | .unterminatedString => ⟨[], .error (.unterminatedString stop.line c.offset stop.offset), stop⟩
    | .malformedFloat => ⟨[], .error (.malformedFloat stop.line c.offset stop.offset), stop⟩
termination_by c.rest.length
decreasing_by
  all_goals
    have := munch_rest_length_le ch cs
    simp only [_h, advance, List.length_cons]
    omega

/-- A call that does not end the scan moves the cursor. -/
theorem rest_length_next {c : Cursor} (h : c.next.isLast = false) :
    c.next.cursor.rest.length < c.rest.length := by
  fun_induction next c with
  | case1 => simp [Scan.isLast, endToken] at h
  | case2 c ch cs hc stop hm ih =>
    have hr := ih h
    have hs : stop.rest.length ≤ cs.length := munch_rest_length_le ch cs
    simp only [hc, List.length_cons]
    omega
  | case3 c ch cs hc stop hm ih =>
    have hr : stop.next.cursor.rest.length < stop.rest.length := ih h
    have hs : stop.rest.length ≤ cs.length := munch_rest_length_le ch cs
    simp only [hc, List.length_cons, Scan.after]
    omega
  | case4 c ch cs hc stop kind lexeme hm =>
    have hs : stop.rest.length ≤ cs.length := munch_rest_length_le ch cs
    simp only [hc, List.length_cons]
    omega
  | case5 => simp [Scan.isLast] at h
  | case6 => simp [Scan.isLast] at h

/-- The calls of `next` that scan the rest of a text, up to its end or to the first broken literal. -/
def scans (c : Cursor) : List Scan :=
  if _h : c.next.isLast then [c.next] else c.next :: scans c.next.cursor
termination_by c.rest.length
decreasing_by exact rest_length_next (Bool.eq_false_iff.mpr _h)

def steps : Nat → Cursor → List Scan
  | 0, _ => []
  | n + 1, c => c.next :: steps n c.next.cursor

end Cursor

/-- The tokens of a source text with the end token behind them, or its first broken literal. -/
def tokenize (source : String) : Except ScanError (List Token) :=
  (Cursor.ofSource source).scans.mapM Scan.result

def tokenizeMessages (source : String) : List Message :=
  (Cursor.ofSource source).scans.flatMap Scan.messages

end MiniC
