import MiniC.Yaml.Scalar
import MiniC.Yaml.Tag

/-!
# Tokens of a document

Indentation and brackets give a document its structure. A text can turn out to be a key only when the
colon behind it is met; such a key lies on one line and takes at most 1024 bytes. The first key of a
block mapping opens it, and a line further left closes it.
-/

namespace MiniC.Yaml

set_option autoImplicit false

inductive Token where
  | directive (d : Directive)
  | documentStart | documentEnd
  | blockSequence | blockMapping | blockEnd
  | flowSequence | flowSequenceEnd | flowMapping | flowMappingEnd
  | blockEntry | flowEntry | key | value
  | alias (name : String)
  | anchor (name : String)
  | tag (name : TagName)
  | scalar (style : Style) (text : String)
  deriving DecidableEq, Repr

/-- A text that may turn out to be a key: the token and the place where it begins. A required one has
to be a key, since it begins a line of a block mapping. -/
structure KeyStart where
  required : Bool
  index : Nat
  offset : Nat
  line : Nat
  column : Nat

/-- A document that is read up to some place. `indents` holds the columns of the open block collections
and `outer` the possible keys outside each open bracket, both from the inside out; `key` is the
possible key inside the innermost bracket. -/
structure Layout where
  reader : Reader
  tokens : Array Token
  indents : List Nat
  key : Option KeyStart
  outer : List (Option KeyStart)
  keyAllowed : Bool

namespace Layout

def ofText (cs : List Char) : Layout :=
  ⟨.ofText cs, #[], [], none, [], true⟩

def inFlow (s : Layout) : Bool :=
  !s.outer.isEmpty

/-- The leftmost column of what belongs to the innermost block collection. -/
def margin (s : Layout) : Nat :=
  match s.indents with
  | [] => 0
  | column :: _ => column + 1

def push (s : Layout) (token : Token) : Layout :=
  { s with tokens := s.tokens.push token }

def pushNext (s : Layout) (token : Token) (n : Nat) : Layout :=
  { s.push token with reader := s.reader.pass n }

/-- Goes to the next token, over blanks, comments and empty lines. A tab may not stand where a key
may begin, and a mark of byte order counts as a column. -/
def toToken : Nat → Layout → Layout
  | 0, s => s
  | fuel + 1, s =>
    let r := if s.reader.column = 0 && s.reader.next = some '\ufeff' then s.reader.pass 1 else s.reader
    let r := r.skip fun c => c = ' ' || (s.inFlow || !s.keyAllowed) && c = '\t'
    let r := r.skipComment
    if r.next.any isBreak then
      toToken fuel { s with reader := r.step, keyAllowed := s.keyAllowed || !s.inFlow }
    else { s with reader := r }

/-- Gives up a possible key that is too far back, unless it is required. -/
def freshKey? (r : Reader) : Option KeyStart → Option (Option KeyStart)
  | none => some none
  | some key =>
    if key.line < r.line || key.offset + 1024 < r.offset then
      if key.required then none else some none
    else some (some key)

def freshKeys? (s : Layout) : Option Layout := do
  return { s with
    key := ← freshKey? s.reader s.key
    outer := ← s.outer.mapM (freshKey? s.reader) }

def dropKey? (s : Layout) : Option Layout :=
  if s.key.any (·.required) then none else some { s with key := none }

/-- Notes that the next token may be a key, where one is allowed. -/
def noteKey? (s : Layout) : Option Layout :=
  if s.keyAllowed then do
    let key : KeyStart := {
      required := !s.inFlow && s.indents.head? = some s.reader.column
      index := s.tokens.size
      offset := s.reader.offset
      line := s.reader.line
      column := s.reader.column }
    return { ← s.dropKey? with key := some key }
  else some s

/-- Closes the block collections whose columns satisfy `f`, from the inside out. -/
def closeBlocks (s : Layout) (f : Nat → Bool) : Layout :=
  if s.inFlow then s
  else { s with
    tokens := s.tokens ++ (s.indents.takeWhile f).map fun _ => Token.blockEnd
    indents := s.indents.dropWhile f }

/-- Opens a block collection at a column right of the innermost one, by a token at `index`. -/
def openBlock (s : Layout) (column index : Nat) (token : Token) : Layout :=
  if s.inFlow || column < s.margin then s
  else { s with
    tokens := s.tokens.insertIdxIfInBounds index token
    indents := column :: s.indents }

def openHere? (s : Layout) (token : Token) : Option Layout :=
  if s.inFlow then some s
  else if s.keyAllowed then some (s.openBlock s.reader.column s.tokens.size token)
  else none

/-- Reads the end of a block structure: a boundary of documents or a directive. -/
def closeAll? (s : Layout) : Option Layout := do
  return { ← (s.closeBlocks fun _ => true).dropKey? with keyAllowed := false }

def openBracket? (s : Layout) (token : Token) : Option Layout := do
  let s ← s.noteKey?
  return { s.pushNext token 1 with key := none, outer := s.key :: s.outer, keyAllowed := true }

def closeBracket? (s : Layout) (token : Token) : Option Layout := do
  let s ← s.dropKey?
  let s := { s.pushNext token 1 with keyAllowed := false }
  return match s.outer with
    | [] => s
    | key :: outer => { s with key, outer }

/-- Reads the colon behind a key. A possible key becomes one; else the key was announced. -/
def value? (s : Layout) : Option Layout :=
  match s.key with
  | some key =>
    let s := { s with tokens := s.tokens.insertIdxIfInBounds key.index .key }
    let s := s.openBlock key.column key.index .blockMapping
    some { s.pushNext .value 1 with key := none, keyAllowed := false }
  | none => do
    let s ← s.openHere? .blockMapping
    return { s.pushNext .value 1 with keyAllowed := !s.inFlow }

def keyToken? (s : Layout) (read : Reader → Option (Token × Reader)) : Option Layout := do
  let s ← s.noteKey?
  let (token, reader) ← read s.reader
  return { s.push token with reader, keyAllowed := false }

def quotedToken? (s : Layout) (quote : Char) (style : Style) : Option Layout :=
  s.keyToken? fun r => (quoted? quote (r.pass 1)).map fun (text, r) =>
    (.scalar style (String.ofList text), r)

/-- Reads a plain scalar. Behind a line break a key may follow it. -/
def plainToken? (s : Layout) : Option Layout := do
  let s ← s.noteKey?
  let scalar ← plain? s.inFlow s.margin s.reader
  return { s.push (.scalar .plain (String.ofList scalar.text)) with
    reader := scalar.reader
    keyAllowed := scalar.broken }

def blockToken? (s : Layout) (style : Style) : Option Layout := do
  let s ← s.dropKey?
  let (text, reader) ← blockScalar? (style = .literal) s.margin (s.reader.pass 1)
  return { s.push (.scalar style (String.ofList text)) with reader, keyAllowed := true }

def beginsPlain (inFlow : Bool) (c : Char) (d : Option Char) : Bool :=
  if c = '-' then !d.any isBlank
  else if c = '?' || c = ':' then !inFlow && !endsWord d
  else !isSpace c && !",[]\x7b\x7d#&*!|>'\"%@`".toList.contains c

def token? (s : Layout) (c : Char) : Option Layout :=
  let d := s.reader.rest[1]?
  let inFlow := s.inFlow
  if s.reader.column = 0 && c = '%' then do
    let s ← s.closeAll?
    let (directive, reader) ← directive? (s.reader.pass 1)
    return { s.push (.directive directive) with reader }
  else if s.reader.atMark '-' then return (← s.closeAll?).pushNext .documentStart 3
  else if s.reader.atMark '.' then return (← s.closeAll?).pushNext .documentEnd 3
  else if c = '[' then s.openBracket? .flowSequence
  else if c = '{' then s.openBracket? .flowMapping
  else if c = ']' then s.closeBracket? .flowSequenceEnd
  else if c = '}' then s.closeBracket? .flowMappingEnd
  else if c = ',' then
    return { (← s.dropKey?).pushNext .flowEntry 1 with keyAllowed := true }
  else if c = '-' && endsWord d then do
    let s ← (← s.openHere? .blockSequence).dropKey?
    return { s.pushNext .blockEntry 1 with keyAllowed := true }
  else if c = '?' && (inFlow || endsWord d) then do
    let s ← (← s.openHere? .blockMapping).dropKey?
    return { s.pushNext .key 1 with keyAllowed := !inFlow }
  else if c = ':' && (inFlow || endsWord d) then s.value?
  else if c = '*' then
    s.keyToken? fun r => (anchor? (r.pass 1)).map fun (name, r) => (.alias name, r)
  else if c = '&' then
    s.keyToken? fun r => (anchor? (r.pass 1)).map fun (name, r) => (.anchor name, r)
  else if c = '!' then
    s.keyToken? fun r => (tag? inFlow r).map fun (name, r) => (.tag name, r)
  else if c = '|' && !inFlow then s.blockToken? .literal
  else if c = '>' && !inFlow then s.blockToken? .folded
  else if c = '\'' then s.quotedToken? c .singleQuoted
  else if c = '"' then s.quotedToken? c .doubleQuoted
  else if beginsPlain inFlow c d then s.plainToken?
  else none

def finish? : Nat → Layout → Option (Array Token)
  | 0, _ => none
  | fuel + 1, s => do
    let s ← (s.toToken (s.reader.rest.length + 1)).freshKeys?
    let s := s.closeBlocks (s.reader.column < ·)
    match s.reader.next with
    | none => return (← s.closeAll?).tokens
    | some c => finish? fuel (← s.token? c)

end Layout

def tokens? (source : String) : Option (List Token) :=
  let cs := source.toList
  if cs.all isAllowed then (Layout.finish? (cs.length + 1) (.ofText cs)).map Array.toList
  else none

end MiniC.Yaml
