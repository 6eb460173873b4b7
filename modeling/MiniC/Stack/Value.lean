import MiniC.Decimal.Notation
import MiniC.Decimal.Read

/-!
# Values of the stack machine

Integers, floating-point numbers and texts, with the arithmetic and the comparisons between them. An
integer that meets a floating-point number is converted; a text that is added to anything is
concatenated with how that is displayed.
-/

namespace MiniC.Stack

set_option autoImplicit false

inductive Value where
  | int (value : Int64)
  | float (value : Float)
  | str (value : String)
  deriving DecidableEq

inductive ValueType where
  | int | float | string
  deriving DecidableEq, Repr

def ValueType.name : ValueType → String
  | .int => "int"
  | .float => "float"
  | .string => "string"

/-- The operations with two operands and a value. -/
inductive Arith where
  | add | subtract | multiply | divide
  deriving DecidableEq, Repr

inductive Comparison where
  | equal | notEqual | greater | greaterEqual | lower | lowerEqual
  deriving DecidableEq, Repr

/-- The operations that can refuse their operands. -/
inductive Operation where
  | arith (op : Arith)
  | negate
  | compare (c : Comparison)
  deriving DecidableEq, Repr

def Operation.name : Operation → String
  | .arith .add => "add"
  | .arith .subtract => "subtract"
  | .arith .multiply => "multiply"
  | .arith .divide => "divide"
  | .negate => "negate"
  | .compare .equal => "compare_equal"
  | .compare .notEqual => "compare_not_equal"
  | .compare .greater => "compare_greater"
  | .compare .greaterEqual => "compare_greater_equal"
  | .compare .lower => "compare_lower"
  | .compare .lowerEqual => "compare_lower_equal"

inductive ValueError where
  | invalidOperands (operation : Operation) (left right : ValueType)
  | invalidOperand (operation : Operation) (operand : ValueType)
  | divisionByZero
  | overflow (operation : Operation)
  deriving DecidableEq, Repr

def ValueError.message : ValueError → String
  | .invalidOperands operation left right =>
    s!"Cannot {operation.name} {left.name} and {right.name}"
  | .invalidOperand operation operand => s!"Cannot {operation.name} {operand.name}"
  | .divisionByZero => "Division by zero"
  | .overflow operation => s!"Integer overflow in {operation.name}"

namespace Arith

/-- The exact result on integers; a quotient is cut toward zero. -/
def exact : Arith → Int → Int → Int
  | .add => (· + ·)
  | .subtract => (· - ·)
  | .multiply => (· * ·)
  | .divide => Int.tdiv

def rounded : Arith → Float → Float → Float
  | .add => (· + ·)
  | .subtract => (· - ·)
  | .multiply => (· * ·)
  | .divide => (· / ·)

end Arith

/-- How two floating-point numbers are ordered; a NaN is not ordered with anything. -/
def floatOrdering (a b : Float) : Option Ordering :=
  if a < b then some .lt
  else if b < a then some .gt
  else if a == b then some .eq
  else none

/-- Whether a comparison holds of two values that are ordered as given. -/
def Comparison.holds : Comparison → Option Ordering → Bool
  | .equal, ordering => ordering = some .eq
  | .notEqual, ordering => ordering ≠ some .eq
  | .greater, ordering => ordering = some .gt
  | .greaterEqual, ordering => ordering = some .gt ∨ ordering = some .eq
  | .lower, ordering => ordering = some .lt
  | .lowerEqual, ordering => ordering = some .lt ∨ ordering = some .eq

namespace Value

def type : Value → ValueType
  | .int _ => .int
  | .float _ => .float
  | .str _ => .string

def display : Value → String
  | .int n => toString n.toInt
  | .float x => Decimal.plain x
  | .str s => s

/-- Equality of values of one type, by which a NaN differs from itself. -/
def same : Value → Value → Bool
  | .int a, .int b => a = b
  | .float a, .float b => a == b
  | .str a, .str b => a = b
  | _, _ => false

/-- The nearest floating-point number to an integer. -/
def promote (n : Int64) : Float :=
  Float.ofInt n.toInt

/-- The exact result on two integers, if it is an integer of 64 bits. -/
def intArith (op : Arith) (a b : Int64) : Except ValueError Value :=
  if op = .divide ∧ b = 0 then .error .divisionByZero
  else match Word.ofInt? (op.exact a.toInt b.toInt) with
    | some n => .ok (.int n)
    | none => .error (.overflow (.arith op))

/-- The result on operands of which at least one is a text: only addition has one. -/
def textArith (op : Arith) (a b : Value) : Except ValueError Value :=
  match op with
  | .add => .ok (.str (a.display ++ b.display))
  | op => .error (.invalidOperands (.arith op) a.type b.type)

def arith (op : Arith) : Value → Value → Except ValueError Value
  | .int a, .int b => intArith op a b
  | .int a, .float b => .ok (.float (op.rounded (promote a) b))
  | .float a, .int b => .ok (.float (op.rounded a (promote b)))
  | .float a, .float b => .ok (.float (op.rounded a b))
  | a, b => textArith op a b

def negate : Value → Except ValueError Value
  | .int n => match Word.ofInt? (-n.toInt) with
    | some n => .ok (.int n)
    | none => .error (.overflow .negate)
  | .float x => .ok (.float (-x))
  | .str s => .error (.invalidOperand .negate (Value.str s).type)

/-- Whether a comparison holds of two values. A text is never equal to a number, and has no order
with it. -/
def compare (c : Comparison) : Value → Value → Except ValueError Bool
  | .int a, .int b => .ok (c.holds (some (Ord.compare a.toInt b.toInt)))
  | .int a, .float b => .ok (c.holds (floatOrdering (promote a) b))
  | .float a, .int b => .ok (c.holds (floatOrdering a (promote b)))
  | .float a, .float b => .ok (c.holds (floatOrdering a b))
  | .str a, .str b => .ok (c.holds (some (Ord.compare a b)))
  | a, b => match c with
    | .equal => .ok false
    | .notEqual => .ok true
    | c => .error (.invalidOperands (.compare c) a.type b.type)

end Value

end MiniC.Stack
