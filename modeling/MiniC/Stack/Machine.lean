import MiniC.Stack.Scope
import MiniC.Text.Output

/-!
# The stack machine

A machine executes stack code one instruction at a time, on a frame: a scope, a stack of values, a
flag for the last comparison and a result. An instruction sees nothing else, so what it does depends
on neither the rest of the code nor its place there. Every run starts afresh from the initial scope.
-/

namespace MiniC.Stack

set_option autoImplicit false

inductive Fault where
  | expectedEof
  | unexpectedState
  | stackUnderflow
  | undefinedVariable (name : String)
  | notAVariable (name : String)
  | value (e : ValueError)
  | invalidJumpTarget (index : Nat) (steps : Int64)
  deriving DecidableEq, Repr

def Fault.message : Fault → String
  | .expectedEof => "Expected EOF."
  | .unexpectedState => "Unexpected state."
  | .stackUnderflow => "Stack underflow"
  | .undefinedVariable name => s!"Undefined variable '{name}'"
  | .notAVariable name => s!"'{name}' is not a variable"
  | .value e => e.message
  | .invalidJumpTarget index steps =>
    s!"Jump at {index} by {steps.toInt} lands before the first instruction"

/-- What instructions work on. The top of the stack comes first; the flag holds the outcome of the
last comparison until a jump uses it. -/
structure Frame where
  scope : Scope
  stack : List Value
  flag : Option Bool
  result : Option Value

def Frame.start (scope : Scope) : Frame :=
  ⟨scope, [], none, none⟩

/-- What a finished machine shows: the scope, the stack from the bottom, and the result. No
instruction writes output. -/
structure Snapshot where
  output : Option String
  memory : List (String × String)
  stack : List Value
  result : Option Value
  deriving DecidableEq

def Frame.snapshot (f : Frame) : Snapshot :=
  ⟨none, f.scope.dump, f.stack.reverse, f.result⟩

namespace Frame

def push (f : Frame) (v : Value) : Frame :=
  { f with stack := v :: f.stack }

/-- Puts the result of an operation on the stack, or stops at its error. -/
def pushResult (f : Frame) : Except ValueError Value → Except Fault Int64 × Frame
  | .ok v => (.ok 0, f.push v)
  | .error e => (.error (.value e), f)

/-- Keeps the outcome of a comparison, or stops at its error. -/
def setFlag (f : Frame) : Except ValueError Bool → Except Fault Int64 × Frame
  | .ok holds => (.ok 0, { f with flag := some holds })
  | .error e => (.error (.value e), f)

/-- A stack with fewer values than an instruction takes is emptied. -/
def underflow (f : Frame) : Except Fault Int64 × Frame :=
  (.error .stackUnderflow, { f with stack := [] })

/-- Executes an instruction. The answer is the number of instructions to skip behind it, or a fault;
what was done before a fault is kept. The right one of two operands is on top. -/
def execute (f : Frame) : Instr → Except Fault Int64 × Frame
  | .constant value => (.ok 0, f.push value)
  | .load name => match f.scope.get? name with
    | some (.variable value) => (.ok 0, f.push value)
    | some (.function _) => (.error (.notAVariable name), f)
    | none => (.error (.undefinedVariable name), f)
  | .assign name => match f.stack with
    | value :: stack => (.ok 0, { f with scope := f.scope.setVariable name value, stack })
    | [] => f.underflow
  | .negate => match f.stack with
    | value :: stack => { f with stack }.pushResult value.negate
    | [] => f.underflow
  | .arith op => match f.stack with
    | right :: left :: stack => { f with stack }.pushResult (left.arith op right)
    | _ => f.underflow
  | .compare c => match f.stack with
    | right :: left :: stack => { f with stack }.setFlag (left.compare c right)
    | _ => f.underflow
  | .jump steps => (.ok steps, f)
  | .jumpIfFalse steps =>
    if f.flag = some false then (.ok steps, { f with flag := none }) else (.ok 0, f)
  | .ret => match f.stack with
    | value :: stack => (.ok 0, { f with result := some value, stack })
    | [] => f.underflow
  | .eof => (.ok 0, f)

end Frame

inductive Status where
  | running
  | finished (snapshot : Snapshot)
  deriving DecidableEq

/-- A machine: its code and initial scope, and how far it has come. -/
structure Machine where
  code : List Instr
  initial : Scope
  index : Nat
  status : Status
  frame : Frame

/-- Positions in code are below `2 ^ 63`. -/
def positionBound : Nat :=
  0x8000000000000000

/-- The position `steps + 1` instructions behind `index`. -/
def resume? (index : Nat) (steps : Int64) : Option Nat :=
  (index + steps.toInt + 1).toNat?.filter (· < positionBound)

theorem resume?_eq_some_iff {index target : Nat} {steps : Int64} :
    resume? index steps = some target ↔
      (target : Int) = index + steps.toInt + 1 ∧ target < positionBound := by
  have h : (index + steps.toInt + 1).toNat? = some target ↔
      (target : Int) = index + steps.toInt + 1 := Int.mem_toNat?.trans eq_comm
  simp only [resume?, Option.filter_eq_some_iff, h, decide_eq_true_eq]

namespace Machine

def ofCode (code : List Instr) (scope : Scope) : Machine :=
  ⟨code, scope, 0, .running, .start scope⟩

/-- Goes back to the first instruction and the initial scope. -/
def reset (m : Machine) : Machine :=
  ofCode m.code m.initial

/-- Executes one instruction. A machine that fails stays where it is, but keeps what the instruction
did to the frame. -/
def next (m : Machine) : Except Fault Unit × Machine :=
  match m.status with
  | .finished _ => (.error .unexpectedState, m)
  | .running =>
    match m.code[m.index]? with
    | none => (.error .expectedEof, m)
    | some instr =>
      match m.frame.execute instr with
      | (.error fault, frame) => (.error fault, { m with frame })
      | (.ok steps, frame) =>
        match resume? m.index steps with
        | none => (.error (.invalidJumpTarget m.index steps), { m with frame })
        | some index =>
          let status := if instr = .eof then .finished frame.snapshot else .running
          (.ok (), { m with index, status, frame })

/-- Executes instructions until the machine finishes, fails or leaves its code. There is no answer if
that takes more than `fuel` rounds. -/
def finish : Nat → Machine → Option (Except Fault Snapshot × Machine)
  | 0, _ => none
  | fuel + 1, m =>
    if m.index < m.code.length then
      match m.next with
      | (.error fault, m) => some (.error fault, m)
      | (.ok _, m) =>
        match m.status with
        | .finished snapshot => some (.ok snapshot, m)
        | .running => finish fuel m
    else some (.error .expectedEof, m)

def run (fuel : Nat) (m : Machine) : Option (Except Fault Snapshot × Machine) :=
  finish fuel m.reset

def nextMessages (m : Machine) : List Message :=
  match m.status, m.code[m.index]? with
  | .running, some instr => [⟨.trace, Text.numbered m.index instr.display⟩]
  | _, _ => []

def finishedMessage (m : Machine) (snapshot : Snapshot) : Message :=
  ⟨.debug,
    s!"vm reached EOF after {m.index} instructions with {snapshot.memory.length} bindings"⟩

def finishMessages : Nat → Machine → List Message
  | 0, _ => []
  | fuel + 1, m =>
    if m.index < m.code.length then
      m.nextMessages ++
        match m.next with
        | (.error _, _) => []
        | (.ok _, m) =>
          match m.status with
          | .finished snapshot => [m.finishedMessage snapshot]
          | .running => finishMessages fuel m
    else []

def runMessages (fuel : Nat) (m : Machine) : List Message :=
  finishMessages fuel m.reset

end Machine

def Function.machine (f : Function) (scope : Scope) : Machine :=
  .ofCode f.code scope

/-- A machine that runs `f` where it stands, with its arguments bound over the enclosing names. -/
def Function.call (f : Function) (enclosing arguments : Scope) : Machine :=
  f.machine (enclosing.extend arguments)

end MiniC.Stack
