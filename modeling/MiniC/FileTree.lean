import MiniC.Text.Bytes

/-!
# File trees

The files below a directory, as a value. A path is a list of bytes, which need not be text. Paths
are resolved as the operating system does it: every component but the last has to lead to a
directory, `.` stays there and `..` leaves it. A path that is too long leads nowhere, and nothing
outside the tree can be found.
-/

namespace MiniC

set_option autoImplicit false

inductive ReadError where
  | notFound
  | notDirectory
  | isDirectory
  | nameTooLong
  | notText
  | other (text : String)
  deriving DecidableEq, Repr

def ReadError.message : ReadError → String
  | .notFound => "No such file or directory (os error 2)"
  | .notDirectory => "Not a directory (os error 20)"
  | .isDirectory => "Is a directory (os error 21)"
  | .nameTooLong => "File name too long (os error 36)"
  | .notText => "stream did not contain valid UTF-8"
  | .other text => text

def decodeText (bytes : ByteArray) : Except ReadError String :=
  match String.fromUTF8? bytes with
  | some s => .ok s
  | none => .error .notText

/-- The bytes of a path, or of a name on it. -/
abbrev Path := List UInt8

namespace Path

def slash : UInt8 :=
  0x2F

def here : Path :=
  Text.bytes "."

def up : Path :=
  Text.bytes ".."

/-- What stands between the slashes of a path. -/
def components (path : Path) : List Path :=
  path.splitOn slash

/-- The names on a path, without those that lead nowhere else. -/
def names (path : Path) : List Path :=
  path.components.filter fun name => name ≠ [] ∧ name ≠ here

/-- The path to `name` from the directory `dir`. An absolute path stays as it is. -/
def join (dir name : Path) : Path :=
  if name.head? = some slash ∨ dir = [] then name
  else if dir.getLast? = some slash then dir ++ name
  else dir ++ slash :: name

def maxName : Nat :=
  255

def maxLength : Nat :=
  4095

end Path

inductive FileNode where
  | file (content : ByteArray)
  | directory

/-- The files and directories below a directory, each with the names that lead to it. A directory
that holds something need not be listed; of two entries for one path the later counts. -/
structure FileTree where
  entries : List (List Path × FileNode)

inductive Place where
  | inside (names : List Path)
  | outside
  deriving DecidableEq, Repr

namespace FileTree

/-- The tree of written files; a path that ends in a slash is a directory. -/
def ofFiles (files : List (Path × ByteArray)) : FileTree :=
  ⟨files.map fun (path, content) =>
    (path.names, if path.getLast? = some Path.slash then .directory else .file content)⟩

def node? (t : FileTree) (names : List Path) : Option FileNode :=
  match t.entries.reverse.find? (fun entry => entry.1 = names) with
  | some entry => some entry.2
  | none =>
    if names = [] ∨ t.entries.any (fun entry => names.isPrefixOf entry.1) then some .directory
    else none

def children (t : FileTree) (names : List Path) : List Path :=
  (t.entries.filterMap fun entry =>
    if names.isPrefixOf entry.1 then (entry.1.drop names.length).head? else none).eraseDups

def isDirectoryAt (t : FileTree) : Place → Bool
  | .outside => true
  | .inside names => match t.node? names with
    | some .directory => true
    | _ => false

/-- Goes on from a place by one component of a path. -/
def enter (t : FileTree) (place : Place) (component : Path) : Except ReadError Place :=
  if !t.isDirectoryAt place then .error .notDirectory
  else if component = [] ∨ component = Path.here then .ok place
  else if component = Path.up then
    .ok (match place with
      | .outside | .inside [] => .outside
      | .inside names => .inside names.dropLast)
  else if Path.maxName < component.length then .error .nameTooLong
  else match place with
    | .outside => .error .notFound
    | .inside names =>
      if (t.node? (names ++ [component])).isSome then .ok (.inside (names ++ [component]))
      else .error .notFound

def resolve (t : FileTree) (path : Path) : Except ReadError Place :=
  if path = [] then .error .notFound
  else if Path.maxLength < path.length then .error .nameTooLong
  else
    let start := if path.head? = some Path.slash then .outside else .inside []
    path.components.foldlM t.enter start

def hasPath (t : FileTree) (path : Path) : Bool :=
  (t.resolve path).isOk

def isDirectory (t : FileTree) (path : Path) : Bool :=
  match t.resolve path with
  | .ok place => t.isDirectoryAt place
  | .error _ => false

def list (t : FileTree) (path : Path) : Except ReadError (List Path) := do
  let place ← t.resolve path
  match place with
  | .outside => return []
  | .inside names =>
    if t.isDirectoryAt place then return t.children names else throw .notDirectory

def content (t : FileTree) (path : Path) : Except ReadError ByteArray := do
  match ← t.resolve path with
  | .outside => throw .isDirectory
  | .inside names =>
    match t.node? names with
    | some (.file content) => return content
    | some .directory => throw .isDirectory
    | none => throw .notFound

/-- The content of the file at a path that is text. -/
def read (t : FileTree) (path : String) : Except ReadError ByteArray :=
  t.content (Text.bytes path)

def readText (t : FileTree) (path : Path) : Except ReadError String := do
  decodeText (← t.content path)

end FileTree

end MiniC
