import MiniC.Token.Basic

/-!
# Operators

The operators of expressions and assignments, and the tokens that write them.
-/

namespace MiniC

set_option autoImplicit false

inductive BinaryOp where
  | add | subtract | multiply | divide | modulo
  | lower | lowerEqual | greater | greaterEqual | equal | notEqual
  | and | or
  deriving DecidableEq, Repr

namespace BinaryOp

/-- The operator that a kind of token writes between operands. -/
def ofKind? : Kind → Option BinaryOp
  | .plus => some .add
  | .minus => some .subtract
  | .star => some .multiply
  | .slash => some .divide
  | .modulo => some .modulo
  | .lower => some .lower
  | .lowerEqual => some .lowerEqual
  | .greater => some .greater
  | .greaterEqual => some .greaterEqual
  | .equalEqual => some .equal
  | .bangEqual => some .notEqual
  | .andAnd => some .and
  | .orOr => some .or
  | _ => none

/-- How tightly an operator binds; all operators of one level associate to the left. -/
def precedence : BinaryOp → Nat
  | .or => 0
  | .and => 1
  | .equal | .notEqual => 2
  | .lower | .lowerEqual | .greater | .greaterEqual => 3
  | .add | .subtract => 4
  | .multiply | .divide | .modulo => 5

def name : BinaryOp → String
  | .add => "Add"
  | .subtract => "Subtract"
  | .multiply => "Multiply"
  | .divide => "Divide"
  | .modulo => "Modulo"
  | .lower => "Lower"
  | .lowerEqual => "LowerEqual"
  | .greater => "Greater"
  | .greaterEqual => "GreaterEqual"
  | .equal => "Equal"
  | .notEqual => "NotEqual"
  | .and => "And"
  | .or => "Or"

end BinaryOp

inductive UnaryOp where
  | arithmeticNegate | logicalNegate | increment | decrement
  deriving DecidableEq, Repr

namespace UnaryOp

def ofKind? : Kind → Option UnaryOp
  | .minus => some .arithmeticNegate
  | .bang => some .logicalNegate
  | .plusPlus => some .increment
  | .minusMinus => some .decrement
  | _ => none

def name : UnaryOp → String
  | .arithmeticNegate => "ArithmeticNegate"
  | .logicalNegate => "LogicalNegate"
  | .increment => "Increment"
  | .decrement => "Decrement"

end UnaryOp

/-- The operators behind a variable. -/
inductive StepOp where
  | increment | decrement
  deriving DecidableEq, Repr

namespace StepOp

def ofKind? : Kind → Option StepOp
  | .plusPlus => some .increment
  | .minusMinus => some .decrement
  | _ => none

def name : StepOp → String
  | .increment => "Increment"
  | .decrement => "Decrement"

end StepOp

inductive AssignOp where
  | assign | addAssign | subtractAssign | multiplyAssign | divideAssign | moduloAssign
  deriving DecidableEq, Repr

namespace AssignOp

def ofKind? : Kind → Option AssignOp
  | .equal => some .assign
  | .plusEqual => some .addAssign
  | .minusEqual => some .subtractAssign
  | .starEqual => some .multiplyAssign
  | .slashEqual => some .divideAssign
  | .moduloEqual => some .moduloAssign
  | _ => none

def name : AssignOp → String
  | .assign => "Assign"
  | .addAssign => "AddAssign"
  | .subtractAssign => "SubtractAssign"
  | .multiplyAssign => "MultiplyAssign"
  | .divideAssign => "DivideAssign"
  | .moduloAssign => "ModuloAssign"

end AssignOp

end MiniC
