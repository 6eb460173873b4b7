import MiniC.Yaml.Reader

/-!
# Anchors, tags and directives

The names that a document gives to nodes and types. The text of a tag may hold escaped bytes, so a
tag is a byte sequence; a zero byte ends it.
-/

namespace MiniC.Yaml

set_option autoImplicit false

abbrev Bytes := List UInt8

def asciiBytes (cs : List Char) : Bytes :=
  cs.map fun c => c.toNat.toUInt8

/-- A tag as it is written: a handle that stands for the beginning of the tag, and the rest. -/
structure TagName where
  handle : Bytes
  suffix : Bytes
  deriving DecidableEq, Repr

def endsAnchor (c : Option Char) : Bool :=
  endsWord c || c.any ("?:,]\x7d%@`".toList.contains ·)

def anchor? (r : Reader) : Option (String × Reader) :=
  let name := r.taken isWordChar
  let after := r.pass name.length
  if name ≠ [] && endsAnchor after.next then some (String.ofList name, after) else none

/-- How many bytes the character takes in UTF-8 that begins with `byte`. -/
def sequenceLength? (byte : Nat) : Option Nat :=
  if byte < 0x80 then some 1
  else if byte < 0xc0 then none
  else if byte < 0xe0 then some 2
  else if byte < 0xf0 then some 3
  else if byte < 0xf8 then some 4
  else none

def escapedByte? : List Char → Option Nat
  | '%' :: cs => hexValue? 2 cs
  | _ => none

def continuation? : Nat → List Char → Option Bytes
  | 0, _ => some []
  | n + 1, cs => do
    let byte ← escapedByte? cs
    if 0x80 ≤ byte && byte < 0xc0 then
      return byte.toUInt8 :: (← continuation? n (cs.drop 3))
    else none

def escapedChar? (cs : List Char) : Option Bytes := do
  let byte ← escapedByte? cs
  let n ← sequenceLength? byte
  return byte.toUInt8 :: (← continuation? (n - 1) (cs.drop 3))

/-- Whether a tag may hold `c`; a `whole` one, in angle brackets or in a directive, may also hold the
indicators of lists. -/
def isTagChar (whole : Bool) (c : Char) : Bool :=
  isWordChar c || ";/?:@&=+$.%!~*'()".toList.contains c || whole && (c = ',' || c = '[' || c = ']')

/-- The bytes of a tag at the head of a text, and how many characters write them. -/
def tagBytes (whole : Bool) : Nat → List Char → Option (Bytes × Nat)
  | 0, _ => none
  | _, [] => some ([], 0)
  | fuel + 1, c :: cs =>
    if c = '%' then do
      let char ← escapedChar? (c :: cs)
      let (bytes, n) ← tagBytes whole fuel ((c :: cs).drop (3 * char.length))
      return (char ++ bytes, 3 * char.length + n)
    else if isTagChar whole c then do
      let (bytes, n) ← tagBytes whole fuel cs
      return (c.toNat.toUInt8 :: bytes, n + 1)
    else some ([], 0)

/-- The tag text that is next, behind the characters `head` of it. It is not empty. -/
def tagText? (whole : Bool) (head : List Char) (r : Reader) : Option (Bytes × Reader) := do
  let (bytes, n) ← tagBytes whole (r.rest.length + 1) r.rest
  if head = [] && n = 0 then none
  else return ((asciiBytes (head.drop 1) ++ bytes).takeWhile (· ≠ 0), r.pass n)

/-- The handle that is next: an exclamation mark, a word, and perhaps a second mark. -/
def handle? (r : Reader) : Option (List Char × Reader) :=
  if r.next = some '!' then
    let word := (r.pass 1).taken isWordChar
    let after := r.pass (word.length + 1)
    if after.next = some '!' then some ('!' :: word ++ ['!'], after.pass 1)
    else some ('!' :: word, after)
  else none

/-- The tag that is next. A tag in angle brackets is whole; one without a second exclamation mark has
the handle `!`; a single exclamation mark is a whole tag. -/
def tagName? (r : Reader) : Option (TagName × Reader) :=
  if r.rest[1]? = some '<' then do
    let (suffix, r) ← tagText? true [] (r.pass 2)
    if r.next = some '>' then some (⟨[], suffix⟩, r.pass 1) else none
  else do
    let (handle, r) ← handle? r
    if 1 < handle.length && handle.getLast? = some '!' then
      let (suffix, r) ← tagText? false [] r
      return (⟨asciiBytes handle, suffix⟩, r)
    else
      let (suffix, r) ← tagText? false handle r
      let mark := asciiBytes ['!']
      return (if suffix = [] then ⟨[], mark⟩ else ⟨mark, suffix⟩, r)

/-- The tag that is next, with a space behind it; in brackets a comma may follow. -/
def tag? (inFlow : Bool) (r : Reader) : Option (TagName × Reader) := do
  let (name, r) ← tagName? r
  if endsWord r.next || inFlow && r.next = some ',' then some (name, r) else none

/-- The directives: the version of the format, and what a handle stands for. -/
inductive Directive where
  | version (major minor : Nat)
  | handle (name : Bytes) (expansion : Bytes)
  deriving DecidableEq, Repr

/-- A number of at most nine digits. -/
def versionNumber? (r : Reader) : Option (Nat × Reader) :=
  let digits := r.taken Char.isDigit
  if digits = [] || 9 < digits.length then none
  else some (digits.foldl (fun value c => 10 * value + (c.toNat - '0'.toNat)) 0, r.pass digits.length)

def version? (r : Reader) : Option (Directive × Reader) := do
  let (major, r) ← versionNumber? r
  if r.next = some '.' then
    let (minor, r) ← versionNumber? (r.pass 1)
    return (.version major minor, r)
  else none

def handleDirective? (r : Reader) : Option (Directive × Reader) := do
  let (name, r) ← handle? r
  if name = ['!'] || name.length ≠ 1 && name.getLast? = some '!' then
    if r.next.any isBlank then
      let (expansion, r) ← tagText? true [] (r.skip isBlank)
      if endsWord r.next then some (.handle (asciiBytes name) expansion, r) else none
    else none
  else none

def directive? (r : Reader) : Option (Directive × Reader) := do
  let name := r.taken isWordChar
  let r := r.pass name.length
  if !endsWord r.next then none
  else
    let r := r.skip isBlank
    let (directive, r) ←
      if name = "YAML".toList then version? r
      else if name = "TAG".toList then handleDirective? r
      else none
    return (directive, ← r.endLine?)

end MiniC.Yaml
