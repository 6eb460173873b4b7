import MiniC.Decimal.Read
import MiniC.Parser.Failure

/-!
# Parsing expressions

An expression is a chain of operands with binary operators between them. It is read from left to
right, and every operator with its right operand is attached to the tree of what came before. A
reader stands somewhere in a token list; each call goes on where the last one stopped, behind what
was read as well as behind a failure.
-/

namespace MiniC

set_option autoImplicit false

/-- `e` continued by an operator and a right operand. The operator takes the right end of `e` as its
left operand, as far up as operators bind less tightly than itself. -/
def Expr.attach : Expr → BinaryOp → Expr → Expr
  | .binary root left right, op, operand =>
    if root.precedence < op.precedence then .binary root left (right.attach op operand)
    else .binary op (.binary root left right) operand
  | e, op, operand => .binary op e operand

namespace Parser

def integer (token : Token) (rest : List Token) : Except Failure Expr :=
  match Decimal.readInt64? token.lexeme.toList with
  | some n => .ok (.int n)
  | none => .error (.at (.number .integer token) rest)

def float (token : Token) (rest : List Token) : Except Failure Expr :=
  match Decimal.readFloat? token.lexeme.toList with
  | some x => .ok (.float x)
  | none => .error (.at (.number .float token) rest)

/-- A variable, with the operator behind it, if there is one. -/
def named (name : String) (ts : List Token) : Expr × Remaining ts :=
  match ts with
  | [] => (.name name, ⟨[], by simp⟩)
  | token :: rest =>
    match StepOp.ofKind? token.kind with
    | some op => (.step op name, ⟨rest, by simp⟩)
    | none => (.name name, ⟨token :: rest, by simp⟩)

mutual

def expression (ts : List Token) : Reply Expr ts := do
  let (first, ⟨ts₁, h₁⟩) ← operand ts
  let (e, ⟨ts₂, h₂⟩) ← chain first ts₁
  return (e, ⟨ts₂, by omega⟩)
termination_by 3 * ts.length + 2
decreasing_by all_goals omega

/-- Reads the operators and operands that continue `left`. -/
def chain (left : Expr) (ts : List Token) : Except Failure (Expr × Remaining ts) :=
  match ts with
  | [] => .ok (left, ⟨[], by simp⟩)
  | token :: ts₁ =>
    match BinaryOp.ofKind? token.kind with
    | none => .ok (left, ⟨token :: ts₁, by simp⟩)
    | some op => do
      let (right, ⟨ts₂, h₂⟩) ← operand ts₁
      let (e, ⟨ts₃, h₃⟩) ← chain (left.attach op right) ts₂
      return (e, ⟨ts₃, by simp only [List.length_cons]; omega⟩)
termination_by 3 * ts.length
decreasing_by
  all_goals simp only [List.length_cons] at *
  all_goals omega

/-- Reads an operand: an atom with at most one operator before it. -/
def operand (ts : List Token) : Reply Expr ts :=
  match ts with
  | [] => atom []
  | token :: ts₁ =>
    match UnaryOp.ofKind? token.kind with
    | none => atom (token :: ts₁)
    | some op => do
      let (e, ⟨ts₂, h₂⟩) ← atom ts₁
      return (.unary op e, ⟨ts₂, by simp only [List.length_cons]; omega⟩)
termination_by 3 * ts.length + 1
decreasing_by
  all_goals simp only [List.length_cons, List.length_nil]
  all_goals omega

/-- Reads a literal, a variable or an expression in parentheses. -/
def atom (ts : List Token) : Reply Expr ts :=
  match ts with
  | [] => .error (.at .expression [])
  | token :: ts₁ =>
    match token.kind with
    | .parenLeft => do
      let (e, ⟨ts₂, h₂⟩) ← expression ts₁
      let (_, ⟨ts₃, h₃⟩) ← expect .parenRight ts₂
      return (.group e, ⟨ts₃, by simp only [List.length_cons]; omega⟩)
    | .integer => do return (← integer token ts₁, ⟨ts₁, length_lt_cons token ts₁⟩)
    | .decimal => do return (← float token ts₁, ⟨ts₁, length_lt_cons token ts₁⟩)
    | .string => .ok (.string token.lexeme, ⟨ts₁, length_lt_cons token ts₁⟩)
    | .identifier =>
      let (e, ⟨ts₂, h₂⟩) := named token.lexeme ts₁
      .ok (e, ⟨ts₂, by simp only [List.length_cons]; omega⟩)
    | _ => .error (.at .expression (token :: ts₁))
termination_by 3 * ts.length
decreasing_by
  simp only [List.length_cons]
  omega

end

structure Reader where
  tokens : List Token
  cursor : Nat

namespace Reader

def rest (r : Reader) : List Token :=
  r.tokens.drop r.cursor

/-- The reader in front of the tokens `left`, with which its rest ends. -/
def leaving (r : Reader) (left : List Token) : Reader :=
  { r with cursor := r.cursor + (r.rest.length - left.length) }

/-- Calls a parser function at the cursor. The reader stops where the function does. -/
def reading {α : Type} (p : (ts : List Token) → Reply α ts) (r : Reader) :
    Except ParseError α × Reader :=
  match p r.rest with
  | .ok (a, left) => (.ok a, r.leaving left.val)
  | .error f => (.error (f.error r.tokens), r.leaving f.rest)

def expression (r : Reader) : Except ParseError Expr × Reader :=
  r.reading Parser.expression

end Reader

end Parser

end MiniC
