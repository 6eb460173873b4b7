import MiniC.FileTree
import MiniC.Suite.Spec

/-!
# Loading test cases

A suite is a directory with one directory for each case. A case has a description, a program and the
files that the description names; how a description is written is left to the reader that loading is
given. The cases of a suite are loaded in the order of their names, which have to be text.
-/

namespace MiniC.Suite

set_option autoImplicit false

inductive SuiteError where
  | unreadable (path : Path)
  | missingProgram (dir : Path)
  | invalidName (dir : Path)
  | malformed (path : Path)
  | untagged (name : String)
  | noCases (dir : Path)
  | missingExpectation (caseClass : CaseClass) (name : String)
  | unreadableFile (name file : String)
  deriving DecidableEq, Repr

def SuiteError.message : SuiteError → String
  | .unreadable path => s!"Reading {Text.lossy path}"
  | .missingProgram dir => s!"Missing program.cm for case {Text.lossy dir}"
  | .invalidName dir => s!"Invalid case directory name {Text.lossy dir}"
  | .malformed path => s!"Parsing {Text.lossy path}"
  | .untagged name => s!"Case {name} has bench enabled but no tags"
  | .noCases dir => s!"No test cases found in {Text.lossy dir}"
  | .missingExpectation caseClass name =>
    s!"Missing expectation file for {caseClass.name} case {name}"
  | .unreadableFile name file => s!"Reading {name} fixture file {file}"

structure Case where
  name : String
  dir : Path
  programPath : Path
  spec : Spec
  deriving DecidableEq, Repr

namespace Case

def source (files : FileTree) (c : Case) : Except SuiteError String :=
  (files.readText c.programPath).mapError fun _ => .unreadable c.programPath

/-- The name of the file with what a case expects: of the error, if its class expects one. -/
def expectedFile (c : Case) : Except SuiteError String :=
  let file := if c.spec.caseClass.expectsError then c.spec.expected.stderrContainsFile
    else c.spec.expected.stdoutFile
  match file with
  | some name => .ok name
  | none => .error (.missingExpectation c.spec.caseClass c.name)

def readText (files : FileTree) (c : Case) (file : String) : Except SuiteError String :=
  (files.readText (c.dir.join (Text.bytes file))).mapError fun _ => .unreadableFile c.name file

end Case

def specPath (dir : Path) : Path :=
  dir.join (Text.bytes "case.yaml")

def programPath (dir : Path) : Path :=
  dir.join (Text.bytes "program.cm")

section Load

variable (reader : String → Option Spec)

/-- The case called `name` in the directory `dir`, by its description. -/
def readCase (files : FileTree) (dir : Path) (name : String) : Except SuiteError Case := do
  let text ← (files.readText (specPath dir)).mapError fun _ => .unreadable (specPath dir)
  match reader text with
  | none => throw (.malformed (specPath dir))
  | some spec =>
    if spec.bench.enabled && spec.bench.tags.isEmpty then throw (.untagged name)
    else return ⟨name, dir, programPath dir, spec⟩

/-- The case in the entry `name` of the directory `dir`. An entry that is no directory, or has no
description, is no case. -/
def loadCase (files : FileTree) (dir name : Path) : Except SuiteError (Option Case) :=
  let path := dir.join name
  if !files.isDirectory path || !files.hasPath (specPath path) then .ok none
  else if !files.hasPath (programPath path) then .error (.missingProgram path)
  else match Text.ofBytes? name with
    | none => .error (.invalidName path)
    | some name => (readCase reader files path name).map some

/-- The cases in the entries `names` of the directory `dir`, in the order of their names. -/
def loadEntries (files : FileTree) (dir : Path) (names : List Path) :
    Except SuiteError (List Case) := do
  let cases := (← names.mapM (loadCase reader files dir)).filterMap id
  if cases.isEmpty then throw (.noCases dir)
  else return cases.mergeSort fun a b => a.name ≤ b.name

def load (files : FileTree) (dir : Path) : Except SuiteError (List Case) := do
  let names ← (files.list dir).mapError fun _ => .unreadable dir
  loadEntries reader files dir names

end Load

end MiniC.Suite
