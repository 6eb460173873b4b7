import MiniC.Syntax.Operator
import MiniC.Text.Output

/-!
# Programs

Expressions, statements and programs. Declared types are labels; nothing checks them.
-/

namespace MiniC

set_option autoImplicit false

/-- Expressions. A pair of parentheses is kept as `group`. -/
inductive Expr where
  | int (value : Int64)
  | float (value : Float)
  | string (value : String)
  | name (name : String)
  | binary (op : BinaryOp) (left right : Expr)
  | unary (op : UnaryOp) (operand : Expr)
  | step (op : StepOp) (name : String)
  | group (inner : Expr)
  deriving DecidableEq

mutual

/-- Statements. The body of a branch or a loop is a block, a list of statements. -/
inductive Stmt where
  | expr (value : Expr)
  | declare (isConst : Bool) (type name : String)
  | define (isConst : Bool) (type name : String) (value : Expr)
  | assign (op : AssignOp) (name : String) (value : Expr)
  | branch (condition : Expr) (body : List Stmt) (otherwise : Else)
  | loop (condition : Expr) (body : List Stmt)

/-- What may follow the block of a branch. -/
inductive Else where
  | none
  | block (body : List Stmt)
  | branch (condition : Expr) (body : List Stmt) (otherwise : Else)

end

abbrev Program := List Stmt

def Stmt.kindName : Stmt → String
  | .expr _ => "expression"
  | .declare .. => "variable declaration"
  | .define .. => "variable definition"
  | .assign .. => "variable assignment"
  | .branch .. => "conditional"
  | .loop .. => "while loop"

/-- A position at which a block has no statement. -/
structure OutOfBounds where
  length : Nat
  index : Nat
  deriving DecidableEq, Repr

def OutOfBounds.message (e : OutOfBounds) : String :=
  s!"index out of bounds: the len is {e.length} but the index is {e.index}"

def Stmt.pick (block : List Stmt) (i : Nat) : Except OutOfBounds Stmt :=
  match block[i]? with
  | some s => .ok s
  | none => .error ⟨block.length, i⟩

mutual

/-- The statements that end with `s`, in the order in which they end: those inside it, then `s`. -/
def Stmt.completed : Stmt → List Stmt
  | .branch condition body otherwise =>
    Stmt.completedAll body ++ otherwise.completed ++ [.branch condition body otherwise]
  | .loop condition body => Stmt.completedAll body ++ [.loop condition body]
  | s => [s]

def Stmt.completedAll : List Stmt → List Stmt
  | [] => []
  | s :: block => s.completed ++ Stmt.completedAll block

/-- The statements that end within an else part. A branch behind `else` is part of the statement
to which the `else` belongs. -/
def Else.completed : Else → List Stmt
  | .none => []
  | .block body => Stmt.completedAll body
  | .branch _ body otherwise => Stmt.completedAll body ++ otherwise.completed

end

def Stmt.parsed (s : Stmt) : Message :=
  ⟨.trace, s!"parsed {s.kindName} statement"⟩

end MiniC
