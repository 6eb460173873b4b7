import MiniC.Token.Basic

/-!
# Pieces of source text

A source text falls into pieces from left to right: blanks and comments, tokens, stray characters
that begin no token, and broken literals. `munch` finds the piece at the head of a text; it loses no
character and always takes the first one.
-/

namespace MiniC.Token

set_option autoImplicit false

/-- What a piece of source text is. The lexeme of a token need not be all of its text. -/
inductive Piece where
  | blank
  | stray
  | token (kind : Kind) (lexeme : List Char)
  | unterminatedString
  | malformedFloat
  deriving DecidableEq, Repr

/-- The piece at the head of a text: it takes the first character and the characters `more`, and
`rest` follows it. -/
structure Munch where
  piece : Piece
  more : List Char
  rest : List Char
  deriving DecidableEq, Repr

def isBlank (c : Char) : Bool :=
  c = ' ' || c = '\r' || c = '\t' || c = '\n'

def isWordChar (c : Char) : Bool :=
  c.isAlpha || c = '_'

/-- A comment: it ends before the next line feed. -/
def munchComment (cs : List Char) : Munch :=
  ⟨.blank, cs.takeWhile (· ≠ '\n'), cs.dropWhile (· ≠ '\n')⟩

def munchString (cs : List Char) : Munch :=
  match cs.dropWhile (· ≠ '"') with
  | [] => ⟨.unterminatedString, cs, []⟩
  | quote :: rest =>
    ⟨.token .string (cs.takeWhile (· ≠ '"')), cs.takeWhile (· ≠ '"') ++ [quote], rest⟩

/-- A number that begins with the digit `c`. A point belongs to it, and then a digit must follow. -/
def munchNumber (c : Char) (cs : List Char) : Munch :=
  let whole := cs.takeWhile Char.isDigit
  match cs.dropWhile Char.isDigit with
  | '.' :: tail =>
    match tail.takeWhile Char.isDigit with
    | [] => ⟨.malformedFloat, whole ++ ['.'], tail⟩
    | fraction =>
      ⟨.token .decimal (c :: whole ++ '.' :: fraction), whole ++ '.' :: fraction,
        tail.dropWhile Char.isDigit⟩
  | rest => ⟨.token .integer (c :: whole), whole, rest⟩

/-- A word that begins with `c`; reserved words have kinds of their own. -/
def munchWord (c : Char) (cs : List Char) : Munch :=
  let more := cs.takeWhile isWordChar
  ⟨.token ((Kind.keyword? (c :: more)).getD .identifier) (c :: more), more, cs.dropWhile isWordChar⟩

def munchSingle (c : Char) (cs : List Char) : Munch :=
  match Kind.single? c with
  | some kind => ⟨.token kind [c], [], cs⟩
  | none => ⟨.stray, [], cs⟩

/-- An operator or punctuation mark: two characters if they are a token, else one. -/
def munchSymbol (c : Char) : List Char → Munch
  | [] => munchSingle c []
  | d :: cs =>
    match Kind.pair? c d with
    | some kind => ⟨.token kind [c, d], [d], cs⟩
    | none => munchSingle c (d :: cs)

/-- The piece at the head of `c :: cs`. -/
def munch (c : Char) (cs : List Char) : Munch :=
  if isBlank c then ⟨.blank, [], cs⟩
  else if c = '/' ∧ cs.head? = some '/' then munchComment cs
  else if c = '"' then munchString cs
  else if c.isDigit then munchNumber c cs
  else if isWordChar c then munchWord c cs
  else munchSymbol c cs

theorem munchString_split (cs : List Char) :
    (munchString cs).more ++ (munchString cs).rest = cs := by
  unfold munchString
  split
  · simp
  · rename_i quote rest h
    rw [List.append_assoc, List.singleton_append, ← h, List.takeWhile_append_dropWhile]

theorem munchNumber_split (c : Char) (cs : List Char) :
    (munchNumber c cs).more ++ (munchNumber c cs).rest = cs := by
  unfold munchNumber
  split
  · rename_i tail h
    split
    · rw [List.append_assoc, List.singleton_append, ← h, List.takeWhile_append_dropWhile]
    · rw [List.append_assoc, List.cons_append, List.takeWhile_append_dropWhile, ← h,
        List.takeWhile_append_dropWhile]
  · rw [List.takeWhile_append_dropWhile]

theorem munchSymbol_split (c : Char) (cs : List Char) :
    (munchSymbol c cs).more ++ (munchSymbol c cs).rest = cs := by
  unfold munchSymbol munchSingle
  repeat' split <;> try rfl

/-- A piece and what follows it make up the text. -/
theorem munch_split (c : Char) (cs : List Char) :
    (munch c cs).more ++ (munch c cs).rest = cs := by
  unfold munch
  repeat' split
  · rfl
  · exact List.takeWhile_append_dropWhile
  · exact munchString_split cs
  · exact munchNumber_split c cs
  · exact List.takeWhile_append_dropWhile
  · exact munchSymbol_split c cs

theorem munch_rest_length_le (c : Char) (cs : List Char) :
    (munch c cs).rest.length ≤ cs.length := by
  have h := congrArg List.length (munch_split c cs)
  rw [List.length_append] at h
  omega

end MiniC.Token
