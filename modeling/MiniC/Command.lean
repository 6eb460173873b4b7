import MiniC.FileTree
import MiniC.Stage

/-!
# The command line

The arguments choose a stage and an input file; without a file the standard input is read. The result
of the stage is written to the standard output, or an error to the standard error.
-/

namespace MiniC.Command

set_option autoImplicit false

structure Options where
  stage : Stage
  input : Option String
  deriving DecidableEq, Repr

inductive UsageError where
  | unknownStage (e : UnknownStage)
  | missingStage (flag : String)
  | manyInputs
  deriving DecidableEq, Repr

def UsageError.message : UsageError → String
  | .unknownStage e => e.message
  | .missingStage flag => s!"Missing emit target after {flag}"
  | .manyInputs => "Only one input file is supported"

def isFlag (arg : String) : Bool :=
  arg = "--emit" || arg = "-e"

/-- Reads the arguments, after those that chose `stage`. -/
def Options.readFrom (stage : Stage) : List String → Except UsageError Options
  | [] => .ok ⟨stage, none⟩
  | [arg] => if isFlag arg then .error (.missingStage arg) else .ok ⟨stage, some arg⟩
  | arg :: value :: rest =>
    if isFlag arg then
      match Stage.ofName value with
      | .ok stage => readFrom stage rest
      | .error e => .error (.unknownStage e)
    else .error .manyInputs

/-- Reads the arguments. The code is written when they choose no stage. -/
def Options.read (args : List String) : Except UsageError Options :=
  readFrom .bytecode args

structure Report where
  code : UInt32
  stdout : String
  stderr : String
  deriving DecidableEq, Repr

def Report.failure (message : String) : Report :=
  ⟨1, "", s!"Error: {message}\n"⟩

def Report.unreadable (message : String) (cause : ReadError) : Report :=
  ⟨1, "", s!"Error: {message}\n\nCaused by:\n    {cause.message}\n"⟩

def Options.inputName (options : Options) : String :=
  options.input.getD "stdin"

def report (options : Options) (input : Except ReadError ByteArray) : Report :=
  match input.bind decodeText with
  | .error cause => .unreadable s!"Reading {options.inputName}" cause
  | .ok source =>
    match render options.stage source with
    | .ok text => ⟨0, text, ""⟩
    | .error e => .failure e.message

/-- The report of a run with some arguments, where `files` are the files at hand. -/
def run (args : List String) (stdin : ByteArray) (files : FileTree) : Report :=
  match Options.read args with
  | .error e => .failure e.message
  | .ok options =>
    report options <| match options.input with
      | some path => files.read path
      | none => .ok stdin

end MiniC.Command
