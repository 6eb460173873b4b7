import MiniC.Stage
import MiniC.Yaml.Node

/-!
# Descriptions of test cases

What a test case expects, and how that is read from its description.
-/

namespace MiniC.Suite

set_option autoImplicit false

/-- The classes of test cases: which stage is compared, or which is expected to fail. -/
inductive CaseClass where
  | tokens | ast | bytecode | frontendError | generationError
  deriving DecidableEq, Repr

namespace CaseClass

def ofName? : String → Option CaseClass
  | "tokens" => some .tokens
  | "ast" => some .ast
  | "bytecode" => some .bytecode
  | "frontend_error" => some .frontendError
  | "generation_error" => some .generationError
  | _ => none

def name : CaseClass → String
  | .tokens => "Tokens"
  | .ast => "Ast"
  | .bytecode => "Bytecode"
  | .frontendError => "FrontendError"
  | .generationError => "GenerationError"

def stage : CaseClass → Stage
  | .tokens => .tokens
  | .ast => .ast
  | .bytecode | .frontendError | .generationError => .bytecode

def expectsError : CaseClass → Bool
  | .frontendError | .generationError => true
  | _ => false

end CaseClass

/-- Whether a case is also a benchmark, and under which tags. -/
structure Bench where
  enabled : Bool
  tags : List String
  deriving DecidableEq, Repr

structure Expected where
  stdoutFile : Option String
  stderrContainsFile : Option String
  deriving DecidableEq, Repr

structure Spec where
  caseClass : CaseClass
  bench : Bench
  expected : Expected
  deriving DecidableEq, Repr

open Yaml (Document Node)

def nullTexts : List String :=
  ["~", "null", "Null", "NULL"]

/-- The tag of a type of the format itself. -/
def coreTag (name : String) : Yaml.Bytes :=
  Yaml.asciiBytes ("tag:yaml.org,2002:" ++ name).toList

/-- The name in a tag of the document's own. -/
def localName? : Yaml.Bytes → Option String
  | mark :: name => if mark = '!'.toNat.toUInt8 then String.fromUTF8? ⟨name.toArray⟩ else none
  | [] => none

def text? (d : Document) (node : Node) : Option String := do
  match ← d.resolve node with
  | .scalar _ _ s => some s
  | _ => none

/-- The entries of a mapping, by the texts of their keys; a value that is left out has none. -/
def entries? (d : Document) (node : Node) : Option (List (String × Node)) := do
  match ← d.resolve node with
  | .mapping entries => entries.mapM fun (key, value) => return (← text? d key, value)
  | .scalar .plain _ "" => some []
  | _ => none

/-- The items of a sequence; a value that is left out has none. -/
def items? (d : Document) (node : Node) : Option (List Node) := do
  match ← d.resolve node with
  | .sequence items => some items
  | .scalar .plain _ "" => some []
  | _ => none

/-- The value of a key that may be missing, but not stand twice. -/
def field? (entries : List (String × Node)) (key : String) : Option (Option Node) :=
  match entries.filter fun entry => entry.1 = key with
  | [] => some none
  | [entry] => some (some entry.2)
  | _ => none

/-- The value of a key that must stand once. -/
def required? (entries : List (String × Node)) (key : String) : Option Node :=
  (field? entries key).bind id

/-- The text of a scalar, or nothing when it is missing, left out or null. A tag other than that of
null makes it a text; with the tag of null it has to be null. -/
def optionalText? (d : Document) : Option Node → Option (Option String)
  | none => some none
  | some node => do
    match ← d.resolve node with
    | .scalar .plain none s => return if s = "" ∨ s ∈ nullTexts then none else some s
    | .scalar .plain (some tag) s =>
      if tag ≠ coreTag "null" then some (some s)
      else if s ∈ nullTexts then some none
      else none
    | node => return some (← text? d node)

/-- The truth value of a plain scalar, or of a literal one with the tag of truth values. -/
def bool? (d : Document) (node : Node) : Option Bool := do
  let .scalar style tag s ← d.resolve node | none
  if style = .plain ∨ style = .literal ∧ tag = some (coreTag "bool") then
    if s ∈ ["true", "True", "TRUE"] then some true
    else if s ∈ ["false", "False", "FALSE"] then some false
    else none
  else none

/-- The class that a scalar names, by its text, or by its tag with nothing or null behind it. -/
def CaseClass.ofNode? (d : Document) (node : Node) : Option CaseClass := do
  let .scalar style tag s ← d.resolve node | none
  match tag.bind localName? with
  | none => CaseClass.ofName? s
  | some name =>
    if style = .plain ∧ (s = "" ∨ s ∈ nullTexts) then CaseClass.ofName? name else none

/-- How a case is used as a benchmark; without a description it is none. -/
def Bench.ofNode? (d : Document) : Option Node → Option Bench
  | none => some ⟨false, []⟩
  | some node => do
    let entries ← entries? d node
    let enabled ← bool? d (← required? entries "enabled")
    let tags ← match ← field? entries "tags" with
      | none => some []
      | some node => (← items? d node).mapM (text? d)
    return ⟨enabled, tags⟩

def Expected.ofNode? (d : Document) (node : Node) : Option Expected := do
  let entries ← entries? d node
  let stdoutFile ← optionalText? d (← field? entries "stdout_file")
  let stderrContainsFile ← optionalText? d (← field? entries "stderr_contains_file")
  return ⟨stdoutFile, stderrContainsFile⟩

def Spec.ofDocument? (d : Document) : Option Spec := do
  let entries ← entries? d d.root
  let caseClass ← CaseClass.ofNode? d (← required? entries "class")
  let bench ← Bench.ofNode? d (← field? entries "bench")
  let expected ← Expected.ofNode? d (← required? entries "expected")
  return ⟨caseClass, bench, expected⟩

def Spec.read? (source : String) : Option Spec :=
  (Document.read? source).bind Spec.ofDocument?

end MiniC.Suite
