import MiniC.Text.Bytes

/-!
# Reading a document

The characters of a document with the place they are read at. Offsets count bytes, columns count
characters; a carriage return with a line feed is one line break.
-/

namespace MiniC.Yaml

set_option autoImplicit false

/-- Whether a document may hold `c`: no controls but the tab and the line breaks. -/
def isAllowed (c : Char) : Bool :=
  c = '\t' || c = '\n' || c = '\r' || c = '\u0085' || ' ' ≤ c && c ≤ '~' ||
    '\u00a0' ≤ c && c ≤ '\ufffd' || 0x10000 ≤ c.toNat

def isBlank (c : Char) : Bool :=
  c = ' ' || c = '\t'

def isBreak (c : Char) : Bool :=
  c = '\n' || c = '\r' || c = '\u0085' || c = '\u2028' || c = '\u2029'

def isSpace (c : Char) : Bool :=
  isBlank c || isBreak c

/-- A line break as it stands in a scalar. -/
def breakText (c : Char) : Char :=
  if c = '\u2028' || c = '\u2029' then c else '\n'

/-- The characters of directives, handles and anchors. -/
def isWordChar (c : Char) : Bool :=
  c.isAlphanum || c = '_' || c = '-'

def hexDigit? (c : Char) : Option Nat :=
  if c.isDigit then some (c.toNat - '0'.toNat)
  else if 'a' ≤ c && c ≤ 'f' then some (c.toNat - 'a'.toNat + 10)
  else if 'A' ≤ c && c ≤ 'F' then some (c.toNat - 'A'.toNat + 10)
  else none

/-- The value of the first `n` characters of `cs`, as hexadecimal digits. -/
def hexValue? (n : Nat) (cs : List Char) : Option Nat :=
  if cs.length < n then none
  else (cs.take n).foldlM (fun value c => (hexDigit? c).map (16 * value + ·)) 0

def endsWord : Option Char → Bool
  | some c => isSpace c
  | none => true

def endsLine : Option Char → Bool
  | some c => isBreak c
  | none => true

/-- What remains of a document, and the place where that begins. -/
structure Reader where
  rest : List Char
  offset : Nat
  line : Nat
  column : Nat

namespace Reader

def ofText (cs : List Char) : Reader :=
  ⟨cs, 0, 0, 0⟩

def next (r : Reader) : Option Char :=
  r.rest.head?

def atSpace (r : Reader) : Bool :=
  match r.next with
  | some c => isSpace c
  | none => false

/-- Goes on behind the next character or line break. -/
def step (r : Reader) : Reader :=
  match r.rest with
  | [] => r
  | '\r' :: '\n' :: cs => ⟨cs, r.offset + 2, r.line + 1, 0⟩
  | c :: cs =>
    if isBreak c then ⟨cs, r.offset + c.utf8Size, r.line + 1, 0⟩
    else ⟨cs, r.offset + c.utf8Size, r.line, r.column + 1⟩

/-- Goes on behind the next `n` characters, none of which is a line break. -/
def pass (r : Reader) (n : Nat) : Reader :=
  ⟨r.rest.drop n, r.offset + Text.byteSize (r.rest.take n), r.line, r.column + n⟩

/-- The characters at the head for which `f` holds; it holds of no line break. -/
def taken (r : Reader) (f : Char → Bool) : List Char :=
  r.rest.takeWhile f

def skip (r : Reader) (f : Char → Bool) : Reader :=
  r.pass (r.taken f).length

def skipComment (r : Reader) : Reader :=
  if r.next = some '#' then r.skip (!isBreak ·) else r

/-- Goes to the next line over blanks and a comment; there is nothing else in the line. -/
def endLine? (r : Reader) : Option Reader :=
  let r := (r.skip isBlank).skipComment
  if endsLine r.next then some r.step else none

/-- Whether a line begins with the three characters `mark` alone. -/
def atMark (r : Reader) (mark : Char) : Bool :=
  r.column = 0 && r.rest.take 3 = [mark, mark, mark] && endsWord r.rest[3]?

/-- Whether a line that begins or ends a document is next. -/
def atBoundary (r : Reader) : Bool :=
  r.atMark '-' || r.atMark '.'

end Reader

end MiniC.Yaml
