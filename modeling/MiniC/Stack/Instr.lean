import MiniC.Stack.Value
import MiniC.Text.Output

/-!
# Stack code

The instructions of the stack machine. A jump by `n` goes on `n + 1` instructions behind itself, so
code does not depend on where it stands.
-/

namespace MiniC.Stack

set_option autoImplicit false

inductive Instr where
  | assign (name : String)
  | constant (value : Value)
  | load (name : String)
  | negate
  | arith (op : Arith)
  | compare (c : Comparison)
  | jump (steps : Int64)
  | jumpIfFalse (steps : Int64)
  | ret
  | eof
  deriving DecidableEq

namespace Instr

def opcode : Instr → String
  | .assign _ => "OP_ASSIGN"
  | .constant _ => "OP_CONSTANT"
  | .load _ => "OP_LOAD"
  | .negate => "OP_NEGATE"
  | .arith .add => "OP_ADD"
  | .arith .subtract => "OP_SUBTRACT"
  | .arith .multiply => "OP_MULTIPLY"
  | .arith .divide => "OP_DIVIDE"
  | .compare .equal => "OP_COMPARE_EQUAL"
  | .compare .notEqual => "OP_COMPARE_NOT_EQUAL"
  | .compare .greater => "OP_COMPARE_GREATER"
  | .compare .greaterEqual => "OP_COMPARE_GREATER_EQUAL"
  | .compare .lower => "OP_COMPARE_LOWER"
  | .compare .lowerEqual => "OP_COMPARE_LOWER_EQUAL"
  | .jump _ => "OP_JUMP"
  | .jumpIfFalse _ => "OP_JUMP_IF_FALSE"
  | .ret => "OP_RET"
  | .eof => "OP_EOF"

/-- The operand of an instruction as text; a text constant is quoted. -/
def operand? : Instr → Option String
  | .assign name | .load name => some name
  | .constant (.str s) => some (Text.quoted s)
  | .constant value => some value.display
  | .jump steps | .jumpIfFalse steps => some (toString steps.toInt)
  | _ => none

def display (i : Instr) : String :=
  match i.operand? with
  | some operand => i.opcode ++ " " ++ operand
  | none => i.opcode

end Instr

end MiniC.Stack
