import MiniC.Decimal.Notation
import MiniC.Syntax.Operator
import MiniC.Text.Output

/-!
# Register code

The instructions of a machine with an accumulator, numbered registers and named variables. Loads
fill the accumulator, stores copy it, arithmetic combines it with a register. Jump targets are
absolute positions in the code.
-/

namespace MiniC.Register

set_option autoImplicit false

structure Reg where
  index : Nat
  deriving DecidableEq, Repr

def Reg.display (r : Reg) : String :=
  "r" ++ toString r.index

/-- The operations between the accumulator and a register. -/
inductive Arith where
  | add | sub | mul | div | mod
  deriving DecidableEq, Repr

namespace Arith

/-- The operation that computes a binary operator, if the machine has one. -/
def ofBinary? : BinaryOp → Option Arith
  | .add => some .add
  | .subtract => some .sub
  | .multiply => some .mul
  | .divide => some .div
  | .modulo => some .mod
  | _ => none

def display : Arith → String
  | .add => "add_reg"
  | .sub => "sub_reg"
  | .mul => "mul_reg"
  | .div => "div_reg"
  | .mod => "mod_reg"

end Arith

/-- The operations on the accumulator alone. -/
inductive Change where
  | negate | logicalNegate | increment | decrement
  deriving DecidableEq, Repr

namespace Change

def ofUnary : UnaryOp → Change
  | .arithmeticNegate => .negate
  | .logicalNegate => .logicalNegate
  | .increment => .increment
  | .decrement => .decrement

/-- The operation that computes the value of a variable after a step. -/
def ofStep : StepOp → Change
  | .increment => .increment
  | .decrement => .decrement

def display : Change → String
  | .negate => "neg"
  | .logicalNegate => "log_neg"
  | .increment => "inc"
  | .decrement => "dec"

end Change

inductive Instr where
  | loadReg (r : Reg)
  | storeReg (r : Reg)
  | loadInt (value : Int64)
  | loadFloat (value : Float)
  | loadString (value : String)
  | loadVar (name : String)
  | arith (op : Arith) (r : Reg)
  | change (op : Change)
  | storeVar (name : String)
  | jump (target : Nat)
  | jumpFalse (target : Nat)
  deriving DecidableEq

namespace Instr

/-- The same jump to another target; there is none for an instruction that is no jump. -/
def retarget? (target : Nat) : Instr → Option Instr
  | .jump _ => some (.jump target)
  | .jumpFalse _ => some (.jumpFalse target)
  | _ => none

def display : Instr → String
  | .loadReg r => "load_reg " ++ r.display
  | .storeReg r => "store_reg " ++ r.display
  | .loadInt n => "load_int " ++ toString n.toInt
  | .loadFloat x => "load_float " ++ Decimal.plain x
  | .loadString s => "load_string " ++ Text.quoted s
  | .loadVar name => "load_var " ++ name
  | .arith op r => op.display ++ " " ++ r.display
  | .change op => op.display
  | .storeVar name => "store_int " ++ name
  | .jump target => "jump " ++ toString target
  | .jumpFalse target => "jump_false " ++ toString target

end Instr

/-- The listing of a code: a numbered line for each instruction. -/
def listing (code : List Instr) : String :=
  String.join (code.mapIdx fun index instr => Text.numbered index instr.display ++ "\n")

end MiniC.Register
