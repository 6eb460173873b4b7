import MiniC.Yaml.Reader

/-!
# Scalars

The texts of a document. A plain scalar has no quotes; in a quoted one the quotes and, between double
quotes, escapes are taken away. Both may span several lines, of which the breaks are folded: one
break is a space, and of more the first is dropped. A block scalar is made of the indented lines under
its header, kept as they are or folded.
-/

namespace MiniC.Yaml

set_option autoImplicit false

inductive Style where
  | plain | singleQuoted | doubleQuoted | literal | folded
  deriving DecidableEq, Repr

/-- The space between two words: the blanks before the first line break, and the line breaks. -/
structure Gap where
  blanks : List Char
  breaks : List Char

/-- What a space adds to a scalar. A line or paragraph separator is not folded. -/
def Gap.text (g : Gap) : List Char :=
  match g.breaks with
  | [] => g.blanks
  | ['\n'] => [' ']
  | '\n' :: more => more
  | breaks => breaks

namespace Reader

/-- Goes on to the next word. Behind a line break no tab may stand left of the column `margin`. -/
def gapFrom (margin : Nat) : Nat → Gap → Reader → Option (Gap × Reader)
  | 0, _, _ => none
  | fuel + 1, g, r => match r.next with
    | none => some (g, r)
    | some c =>
      if isBreak c then gapFrom margin fuel { g with breaks := g.breaks ++ [breakText c] } r.step
      else if !isBlank c then some (g, r)
      else if g.breaks = [] then gapFrom margin fuel { g with blanks := g.blanks ++ [c] } r.step
      else if c = '\t' && r.column < margin then none
      else gapFrom margin fuel g r.step

def gap? (r : Reader) (margin : Nat) : Option (Gap × Reader) :=
  gapFrom margin (r.rest.length + 1) ⟨[], []⟩ r

end Reader

def isFlowMark (c : Char) : Bool :=
  c = ',' || c = '[' || c = ']' || c = '{' || c = '}'

/-- The word of a plain scalar at the head of a text. A colon before a space ends it, and so do the
indicators in brackets; there, a colon before an indicator is refused. -/
def plainWord? (inFlow : Bool) : List Char → Option (List Char)
  | [] => some []
  | c :: cs =>
    if isSpace c then some []
    else if inFlow && c = ':' && cs.head?.any (fun d => isFlowMark d || d = '?') then none
    else if c = ':' && endsWord cs.head? || inFlow && isFlowMark c then some []
    else (plainWord? inFlow cs).map (c :: ·)

/-- A scalar text, and what follows it. A plain scalar is `broken` if a line break follows it. -/
structure Scalar where
  text : List Char
  broken : Bool
  reader : Reader

/-- The words of a plain scalar. Outside brackets, lines left of the column `margin` do not belong to
it. -/
def plainFrom (inFlow : Bool) (margin : Nat) : Nat → Reader → Option Scalar
  | 0, _ => none
  | fuel + 1, r => do
    let word ← plainWord? inFlow r.rest
    let r := r.pass word.length
    if !r.atSpace then return ⟨word, false, r⟩
    let (g, r) ← r.gap? margin
    let last : Scalar := ⟨word, g.breaks ≠ [], r⟩
    if !inFlow && r.column < margin || r.atBoundary || r.next = some '#' then return last
    let more ← plainFrom inFlow margin fuel r
    return if more.text = [] then last else { more with text := word ++ g.text ++ more.text }

def plain? (inFlow : Bool) (margin : Nat) (r : Reader) : Option Scalar :=
  plainFrom inFlow margin (r.rest.length + 1) r

def codePoint? (n : Nat) (cs : List Char) : Option Char := do
  let value ← hexValue? n cs
  if value.isValidChar then some (Char.ofNat value) else none

/-- The character behind a backslash, and how many characters name it. -/
def unescape? : List Char → Option (Char × Nat)
  | [] => none
  | c :: cs => match c with
    | '0' => some ('\x00', 1)
    | 'a' => some ('\x07', 1)
    | 'b' => some ('\x08', 1)
    | 't' | '\t' => some ('\t', 1)
    | 'n' => some ('\n', 1)
    | 'v' => some ('\x0b', 1)
    | 'f' => some ('\x0c', 1)
    | 'r' => some ('\r', 1)
    | 'e' => some ('\x1b', 1)
    | ' ' | '"' | '/' | '\\' => some (c, 1)
    | 'N' => some ('\u0085', 1)
    | '_' => some ('\u00a0', 1)
    | 'L' => some ('\u2028', 1)
    | 'P' => some ('\u2029', 1)
    | 'x' => (codePoint? 2 cs).map (·, 3)
    | 'u' => (codePoint? 4 cs).map (·, 5)
    | 'U' => (codePoint? 8 cs).map (·, 9)
    | _ => none

/-- The text up to the closing quote. A single quote is written twice; an escaped line break is
dropped with the blanks behind it. -/
def quotedFrom (quote : Char) : Nat → Reader → Option (List Char × Reader)
  | 0, _ => none
  | fuel + 1, r =>
    let goOn (text : List Char) (r : Reader) : Option (List Char × Reader) :=
      (quotedFrom quote fuel r).map fun (more, r) => (text ++ more, r)
    match r.rest with
    | [] => none
    | c :: cs =>
      if r.atBoundary then none
      else if isSpace c then do
        let (g, r) ← r.gap? 0
        goOn g.text r
      else if c = quote then
        if quote = '\'' && cs.head? = some '\'' then goOn ['\''] (r.pass 2)
        else some ([], r.pass 1)
      else if quote = '"' && c = '\\' then
        if cs.head?.any isBreak then do
          let (g, r) ← (r.pass 1).step.gap? 0
          goOn g.breaks r
        else do
          let (c, n) ← unescape? cs
          goOn [c] (r.pass (n + 1))
      else goOn [c] (r.pass 1)

def quoted? (quote : Char) (r : Reader) : Option (List Char × Reader) :=
  quotedFrom quote (r.rest.length + 1) r

/-- What a block scalar keeps of its last line breaks: none, one, or all. -/
inductive Chomping where
  | strip | clip | keep
  deriving DecidableEq, Repr

def Chomping.ofMark? : Option Char → Option Chomping
  | some '-' => some .strip
  | some '+' => some .keep
  | _ => none

structure BlockHeader where
  chomping : Chomping
  indentation : Option Nat

/-- The indentation that a digit asks for; it is not zero. -/
def indentation? (c : Option Char) : Option (Option Nat) :=
  match c.filter Char.isDigit with
  | none => some none
  | some '0' => none
  | some c => some (some (c.toNat - '0'.toNat))

/-- The header behind the indicator of a block scalar, and the line under it. The indentation may
stand before or after the chomping. -/
def blockHeader? (r : Reader) : Option (BlockHeader × Reader) :=
  match Chomping.ofMark? r.next with
  | some chomping => do
    let r := r.pass 1
    let indentation ← indentation? r.next
    let r := if indentation.isSome then r.pass 1 else r
    return (⟨chomping, indentation⟩, ← r.endLine?)
  | none => do
    let indentation ← indentation? r.next
    let r := if indentation.isSome then r.pass 1 else r
    match indentation, Chomping.ofMark? r.next with
    | some _, some chomping => return (⟨chomping, indentation⟩, ← (r.pass 1).endLine?)
    | _, _ => return (⟨.clip, indentation⟩, ← r.endLine?)

/-- The line breaks up to a line with content, the widest indentation met, and that line behind its
indentation of at most `width`. No tab may stand in the indentation. -/
def blockBreaks (width : Option Nat) : Nat → Reader → Option (List Char × Nat × Reader)
  | 0, _ => none
  | fuel + 1, r =>
    let spaces := (r.taken (· = ' ')).length
    let r := r.pass (match width with
      | some width => min spaces (width - r.column)
      | none => spaces)
    let within := match width with
      | some width => decide (r.column < width)
      | none => true
    match r.next with
    | none => some ([], r.column, r)
    | some c =>
      if c = '\t' && within then none
      else if isBreak c then do
        let (breaks, widest, after) ← blockBreaks width fuel r.step
        return (breakText c :: breaks, max r.column widest, after)
      else some ([], r.column, r)

/-- The lines of a block scalar, behind the line break `lead` and the empty lines `empty`. Where two
lines without a blank at their beginning meet, the break is folded unless the scalar is literal. -/
def blockLines (literal : Bool) (chomping : Chomping) (width : Nat) :
    Nat → List Char → List Char → Bool → Reader → Option (List Char × Reader)
  | 0, _, _, _, _ => none
  | fuel + 1, lead, empty, afterBlank, r =>
    if r.column = width && r.rest ≠ [] then do
      let blank := r.next.any isBlank
      let joint :=
        if !literal && lead = ['\n'] && !afterBlank && !blank then if empty = [] then [' '] else []
        else lead
      let line := r.taken (!isBreak ·)
      let r := r.pass line.length
      let (breaks, _, after) ← blockBreaks (some width) (r.rest.length + 1) r.step
      let lead := (r.next.map breakText).toList
      let (more, after) ← blockLines literal chomping width fuel lead breaks blank after
      return (joint ++ empty ++ line ++ more, after)
    else some (match chomping with
      | .strip => []
      | .clip => lead
      | .keep => lead ++ empty, r)

/-- The block scalar behind its indicator, under a collection whose entries begin left of `margin`. -/
def blockScalar? (literal : Bool) (margin : Nat) (r : Reader) : Option (List Char × Reader) := do
  let (header, r) ← blockHeader? r
  let width? := header.indentation.map (margin - 1 + ·)
  let (empty, widest, r) ← blockBreaks width? (r.rest.length + 1) r
  let width := width?.getD (max widest (max margin 1))
  blockLines literal header.chomping width (r.rest.length + 1) [] empty false r

end MiniC.Yaml
