import MiniC.Parser.Expr

/-!
# Parsing statements

Statements, blocks and programs. The first token decides which statement is read; only a name needs
a second one, which tells an assignment from an expression.
-/

namespace MiniC

set_option autoImplicit false

namespace Parser

/-- Whether a declaration begins with `const`, and the tokens behind that. -/
def constMark (ts : List Token) : Bool × Remaining ts :=
  match accept? .constWord ts with
  | some ⟨rest, h⟩ => (true, ⟨rest, Nat.le_of_lt h⟩)
  | none => (false, ⟨ts, Nat.le_refl _⟩)

def typeName : (ts : List Token) → Reply String ts
  | [] => .error (.at .type [])
  | token :: rest =>
    if token.kind.isType then .ok (token.lexeme, ⟨rest, length_lt_cons token rest⟩)
    else .error (.at .type (token :: rest))

def declaration (ts : List Token) : Reply Stmt ts := do
  let (isConst, ⟨ts₁, h₁⟩) := constMark ts
  let (type, ⟨ts₂, h₂⟩) ← typeName ts₁
  let (name, ⟨ts₃, h₃⟩) ← expect .identifier ts₂
  match accept? .equal ts₃ with
  | some ⟨ts₄, h₄⟩ =>
    let (value, ⟨ts₅, h₅⟩) ← expression ts₄
    let (_, ⟨ts₆, h₆⟩) ← expect .semicolon ts₅
    return (.define isConst type name.lexeme value, ⟨ts₆, by omega⟩)
  | none =>
    let (_, ⟨ts₄, h₄⟩) ← expect .semicolon ts₃
    return (.declare isConst type name.lexeme, ⟨ts₄, by omega⟩)

def terminated (ts : List Token) : Reply Expr ts := do
  let (value, ⟨ts₁, h₁⟩) ← expression ts
  let (_, ⟨ts₂, h₂⟩) ← expect .semicolon ts₁
  return (value, ⟨ts₂, by omega⟩)

def expressionStatement (ts : List Token) : Reply Stmt ts := do
  let (value, rest) ← terminated ts
  return (.expr value, rest)

/-- Reads a statement that begins with the variable `name`. An operator behind it makes it an
assignment. -/
def nameStatement (name : Token) (ts : List Token) : Reply Stmt (name :: ts) :=
  match ts with
  | [] => expressionStatement [name]
  | token :: ts₁ =>
    match AssignOp.ofKind? token.kind with
    | none => expressionStatement (name :: token :: ts₁)
    | some op => do
      let (value, ⟨ts₂, h₂⟩) ← terminated ts₁
      return (.assign op name.lexeme value, ⟨ts₂, by simp only [List.length_cons]; omega⟩)

def condition (ts : List Token) : Reply Expr ts := do
  let (_, ⟨ts₁, h₁⟩) ← expect .parenLeft ts
  let (value, ⟨ts₂, h₂⟩) ← expression ts₁
  let (_, ⟨ts₃, h₃⟩) ← expect .parenRight ts₂
  return (value, ⟨ts₃, by omega⟩)

/-- A branch without its keyword: condition, block and else part. -/
structure Branch where
  condition : Expr
  body : List Stmt
  otherwise : Else

mutual

def statement (ts : List Token) : Reply Stmt ts :=
  match ts with
  | [] => expressionStatement []
  | token :: ts₁ =>
    match token.kind with
    | .constWord | .intWord | .floatWord => declaration (token :: ts₁)
    | .ifWord => do
      let (b, rest) ← conditional (token :: ts₁)
      return (.branch b.condition b.body b.otherwise, rest)
    | .whileWord => do
      let (test, ⟨ts₂, h₂⟩) ← condition ts₁
      let (body, ⟨ts₃, h₃⟩) ← block ts₂
      return (.loop test body, ⟨ts₃, by simp only [List.length_cons]; omega⟩)
    | .identifier => nameStatement token ts₁
    | _ => expressionStatement (token :: ts₁)
termination_by 3 * ts.length + 1
decreasing_by
  all_goals simp only [List.length_cons] at *
  all_goals omega

/-- Reads a branch from its `if` to the end of its else part. -/
def conditional (ts : List Token) : Reply Branch ts := do
  let (_, ⟨ts₁, h₁⟩) ← expect .ifWord ts
  let (test, ⟨ts₂, h₂⟩) ← condition ts₁
  let (body, ⟨ts₃, h₃⟩) ← block ts₂
  let (otherwise, ⟨ts₄, h₄⟩) ← (elsePart ts₃).mapError (Failure.after body)
  return (⟨test, body, otherwise⟩, ⟨ts₄, by omega⟩)
termination_by 3 * ts.length
decreasing_by all_goals omega

def elsePart (ts : List Token) : Except Failure (Else × Remaining ts) :=
  match accept? .elseWord ts with
  | none => .ok (.none, ⟨ts, Nat.le_refl _⟩)
  | some ⟨ts₁, h₁⟩ =>
    match accept? .ifWord ts₁ with
    | some _ => do
      let (b, ⟨ts₂, h₂⟩) ← conditional ts₁
      return (.branch b.condition b.body b.otherwise, ⟨ts₂, by omega⟩)
    | none => do
      let (body, ⟨ts₂, h₂⟩) ← block ts₁
      return (.block body, ⟨ts₂, by omega⟩)
termination_by 3 * ts.length
decreasing_by all_goals omega

def block (ts : List Token) : Reply (List Stmt) ts := do
  let (_, ⟨ts₁, h₁⟩) ← expect .braceLeft ts
  let (body, ⟨ts₂, h₂⟩) ← statements ts₁
  let (_, ⟨ts₃, h₃⟩) ← (expect .braceRight ts₂).mapError (Failure.after body)
  return (body, ⟨ts₃, by omega⟩)
termination_by 3 * ts.length
decreasing_by all_goals omega

/-- Reads statements up to a closing brace or the end of the input. -/
def statements (ts : List Token) : Except Failure (List Stmt × Remaining ts) :=
  match ts with
  | [] => .ok ([], ⟨[], by simp⟩)
  | token :: ts₁ =>
    if token.kind = .braceRight ∨ token.kind = .endOfInput then
      .ok ([], ⟨token :: ts₁, by simp⟩)
    else do
      let (s, ⟨ts₂, h₂⟩) ← statement (token :: ts₁)
      let (ss, ⟨ts₃, h₃⟩) ← (statements ts₂).mapError (Failure.after [s])
      return (s :: ss, ⟨ts₃, by omega⟩)
termination_by 3 * ts.length + 2
decreasing_by
  all_goals simp only [List.length_cons] at *
  all_goals omega

end

/-- Reads statements up to the end of the input. -/
def program (ts : List Token) : Except Failure Program :=
  match ts with
  | [] => .ok []
  | token :: ts₁ =>
    if token.kind = .endOfInput then .ok []
    else do
      let (s, ⟨ts₂, _h⟩) ← statement (token :: ts₁)
      let ss ← (program ts₂).mapError (Failure.after [s])
      return s :: ss
termination_by ts.length
decreasing_by exact _h

end Parser

/-- The program that a token list writes. Tokens behind the first end token are not looked at. -/
def parse (tokens : List Token) : Except ParseError Program :=
  (Parser.program tokens).mapError (Parser.Failure.error tokens)

def parseMessages (tokens : List Token) : List Message :=
  match Parser.program tokens with
  | .ok p => (Stmt.completedAll p).map Stmt.parsed
  | .error f => f.messages

end MiniC
