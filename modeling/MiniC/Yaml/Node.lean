import MiniC.Yaml.Token

/-!
# Nodes of a document

A document is a tree of scalars, sequences and mappings. An alias stands for a node with an anchor. The
text has to hold one document, with nothing but end marks behind it.
-/

namespace MiniC.Yaml

set_option autoImplicit false

/-- A node. An alias holds the number of its anchor. The tags of collections are not kept. -/
inductive Node where
  | scalar (style : Style) (tag : Option Bytes) (text : String)
  | sequence (items : List Node)
  | mapping (entries : List (Node × Node))
  | alias (anchor : Nat)

def Node.empty : Node :=
  .scalar .plain none ""

/-- A node with an anchor; while it is being read there is no node yet. -/
structure Anchored where
  name : String
  number : Nat
  node : Option Node

/-- A document: its outermost node, and the nodes with anchors in the order of their beginnings. -/
structure Document where
  root : Node
  anchored : Array Anchored

/-- The node that an alias stands for: the last one whose anchor has its number. -/
def Document.resolve (d : Document) : Node → Option Node
  | .alias number => (d.anchored.toList.reverse.find? (·.number = number)).bind (·.node)
  | node => some node

/-- What remains to be read of a document: its tokens, what the handles of tags stand for, and the
nodes with anchors so far. -/
structure Source where
  tokens : List Token
  handles : List (Bytes × Bytes)
  anchored : Array Anchored

abbrev Read := StateT Source Option

namespace Read

def peek : Read (Option Token) :=
  return (← get).tokens.head?

def skip : Read Unit :=
  modify fun s => { s with tokens := s.tokens.drop 1 }

def isNext (tokens : List Token) : Read Bool :=
  return (← peek).any (tokens.contains ·)

def accept (token : Token) : Read Bool := do
  if ← isNext [token] then
    skip
    return true
  else return false

def expect (token : Token) : Read Unit := do
  if ← accept token then return else failure

/-- The number of an anchor: how many names had been used before. The number of a name that is used
again is thus free for the next new name. -/
def anchorNumber (anchored : Array Anchored) : Nat :=
  (anchored.toList.map Anchored.name).eraseDups.length

def withAnchor (name : Option String) (read : Read Node) : Read Node :=
  match name with
  | none => read
  | some name => do
    let place := (← get).anchored.size
    modify fun s => { s with
      anchored := s.anchored.push ⟨name, anchorNumber s.anchored, none⟩ }
    let node ← read
    modify fun s => { s with
      anchored := s.anchored.modify place fun a => { a with node := some node } }
    return node

def aliasOf (name : String) : Read Node := do
  match (← get).anchored.toList.reverse.find? (·.name = name) with
  | some a => return .alias a.number
  | none => failure

def expand (name : TagName) : Read Bytes := do
  if name.handle = [] then return name.suffix
  else match (← get).handles.find? (·.1 = name.handle) with
    | some (_, expansion) => return expansion ++ name.suffix
    | none => failure

/-- The anchor and the tag before a node, in any order. -/
def properties : Read (Option String × Option Bytes) := do
  match ← peek with
  | some (.anchor anchor) =>
    skip
    if let some (.tag name) ← peek then
      skip
      return (some anchor, some (← expand name))
    else return (some anchor, none)
  | some (.tag name) =>
    skip
    if let some (.anchor anchor) ← peek then
      skip
      return (some anchor, some (← expand name))
    else return (none, some (← expand name))
  | _ => return (none, none)

/-- Reads a node, unless a token is next before which it is left out. -/
def unlessNext (tokens : List Token) (read : Read Node) : Read Node := do
  if ← isNext tokens then return .empty else read

/-- A node of which only an anchor or a tag is there. -/
def leftOut (anchor : Option String) (tag : Option Bytes) : Read Node :=
  if anchor.isSome || tag.isSome then return .scalar .plain tag "" else failure

mutual

/-- Reads a node. Block collections stand in block structure only; under a key the entries of a
sequence may stand without further indentation. -/
def node : Nat → Bool → Bool → Read Node
  | 0, _, _ => failure
  | fuel + 1, inBlock, underKey => do
    match ← peek with
    | some (.alias name) =>
      skip
      aliasOf name
    | _ =>
      let (anchor, tag) ← properties
      withAnchor anchor do
        match ← peek with
        | some .blockEntry =>
          if underKey then return .sequence (← looseItems fuel)
          else leftOut anchor tag
        | some (.scalar style text) =>
          skip
          return .scalar style (tag.filter (· ≠ asciiBytes ['!'])) text
        | some .flowSequence =>
          skip
          return .sequence (← flowItems fuel true)
        | some .flowMapping =>
          skip
          return .mapping (← flowEntries fuel true)
        | some .blockSequence =>
          if inBlock then
            skip
            return .sequence (← blockItems fuel)
          else leftOut anchor tag
        | some .blockMapping =>
          if inBlock then
            skip
            return .mapping (← blockEntries fuel)
          else leftOut anchor tag
        | _ => leftOut anchor tag

def blockItems : Nat → Read (List Node)
  | 0 => failure
  | fuel + 1 => do
    if ← accept .blockEntry then
      let item ← unlessNext [.blockEntry, .blockEnd] (node fuel true false)
      return item :: (← blockItems fuel)
    else
      expect .blockEnd
      return []

/-- Reads the items of a sequence that has no indentation of its own. -/
def looseItems : Nat → Read (List Node)
  | 0 => failure
  | fuel + 1 => do
    if ← accept .blockEntry then
      let item ← unlessNext [.blockEntry, .key, .value, .blockEnd] (node fuel true false)
      return item :: (← looseItems fuel)
    else return []

def blockEntries : Nat → Read (List (Node × Node))
  | 0 => failure
  | fuel + 1 => do
    if ← accept .key then
      let key ← unlessNext [.key, .value, .blockEnd] (node fuel true true)
      let value ←
        if ← accept .value then unlessNext [.key, .value, .blockEnd] (node fuel true true)
        else pure .empty
      return (key, value) :: (← blockEntries fuel)
    else
      expect .blockEnd
      return []

/-- Reads the items of a list in brackets, the first one or those behind it. An item can be a mapping
with a single entry. -/
def flowItems : Nat → Bool → Read (List Node)
  | 0, _ => failure
  | fuel + 1, first => do
    if ← accept .flowSequenceEnd then return []
    else
      if !first then expect .flowEntry
      if ← accept .flowSequenceEnd then return []
      else
        let item ←
          if ← accept .key then pure (.mapping [← singleEntry fuel])
          else node fuel false false
        return item :: (← flowItems fuel false)

/-- Reads the single entry of a mapping in a list, behind the mark of its key. A token that shows that
the key is left out is passed over. -/
def singleEntry : Nat → Read (Node × Node)
  | 0 => failure
  | fuel + 1 => do
    let key ←
      if ← isNext [.value, .flowEntry, .flowSequenceEnd] then
        skip
        pure .empty
      else node fuel false false
    let value ←
      if ← accept .value then unlessNext [.flowEntry, .flowSequenceEnd] (node fuel false false)
      else pure .empty
    return (key, value)

def flowEntries : Nat → Bool → Read (List (Node × Node))
  | 0, _ => failure
  | fuel + 1, first => do
    if ← accept .flowMappingEnd then return []
    else
      if !first then expect .flowEntry
      if ← accept .flowMappingEnd then return []
      else if ← accept .key then
        let key ← unlessNext [.value, .flowEntry, .flowMappingEnd] (node fuel false false)
        let value ←
          if ← accept .value then unlessNext [.flowEntry, .flowMappingEnd] (node fuel false false)
          else pure .empty
        return (key, value) :: (← flowEntries fuel false)
      else
        let key ← node fuel false false
        return (key, .empty) :: (← flowEntries fuel false)

end

/-- The handles that need no directive. -/
def defaultHandles : List (Bytes × Bytes) :=
  [(asciiBytes "!".toList, asciiBytes "!".toList),
    (asciiBytes "!!".toList, asciiBytes "tag:yaml.org,2002:".toList)]

/-- The handles that the directives define, each once. The version may be given once, as 1.1 or
1.2. -/
def handles? (directives : List Directive) : Option (List (Bytes × Bytes)) :=
  let versions := directives.filterMap fun
    | .version major minor => some (major, minor)
    | .handle _ _ => none
  let handles := directives.filterMap fun
    | .handle name expansion => some (name, expansion)
    | .version _ _ => none
  if versions.length ≤ 1 && versions.all (fun v => v.1 = 1 && (v.2 = 1 || v.2 = 2)) &&
      (handles.map Prod.fst).eraseDups.length = handles.length then some handles
  else none

def splitDirectives : List Token → List Directive × List Token
  | .directive d :: tokens =>
    let (ds, rest) := splitDirectives tokens
    (d :: ds, rest)
  | tokens => ([], tokens)

/-- Reads the outermost node. Directives need a start mark; behind the mark there may be nothing. -/
def root (fuel : Nat) : Read Node := do
  let (directives, rest) := splitDirectives (← get).tokens
  let some handles := handles? directives | failure
  modify fun s => { s with tokens := rest, handles := handles ++ defaultHandles }
  if ← accept .documentStart then
    match ← peek with
    | none | some .documentStart | some .documentEnd | some (.directive _) => return .empty
    | _ => node fuel true false
  else if directives = [] then node fuel true false
  else failure

end Read

def Document.ofTokens? (tokens : List Token) : Option Document := do
  let (root, rest) ← (Read.root (4 * tokens.length + 4)).run ⟨tokens, [], #[]⟩
  if rest.tokens.all (· = .documentEnd) then some ⟨root, rest.anchored⟩ else none

def Document.read? (source : String) : Option Document :=
  (tokens? source).bind Document.ofTokens?

end MiniC.Yaml
