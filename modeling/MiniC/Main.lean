import MiniC.Command

/-!
# The program

Reads the input that the arguments name and writes the report.
-/

open MiniC MiniC.Command

set_option autoImplicit false

/-- Why an input cannot be read; the system numbers its errors with either sign. -/
def readError : IO.Error → ReadError
  | .noFileOrDirectory .. => .notFound
  | .inappropriateType _ number _ =>
    if number = 21 ∨ number = 0 - 21 then .isDirectory else .notDirectory
  | .invalidArgument _ number text =>
    if number = 36 ∨ number = 0 - 36 then .nameTooLong else .other text
  | e => .other (toString e)

def readInput (options : Options) : IO (Except ReadError ByteArray) := do
  try
    match options.input with
    | some path => return .ok (← IO.FS.readBinFile path)
    | none => return .ok (← (← IO.getStdin).readBinToEnd)
  catch e =>
    return .error (readError e)

def writeReport (r : Report) : IO UInt32 := do
  IO.print r.stdout
  IO.eprint r.stderr
  return r.code

def main (args : List String) : IO UInt32 := do
  match Options.read args with
  | .error e => writeReport (.failure e.message)
  | .ok options => writeReport (report options (← readInput options))
