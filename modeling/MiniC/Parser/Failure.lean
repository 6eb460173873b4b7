import MiniC.Syntax.Basic

/-!
# Failures of the parser

A parser function that fails says what it missed and where it stopped. The error of a whole parse
follows from that and from the token list.
-/

namespace MiniC

set_option autoImplicit false

/-- The literals whose lexeme is read as a number. -/
inductive NumberKind where
  | integer
  | float
  deriving DecidableEq, Repr

def NumberKind.name : NumberKind → String
  | .integer => "integer"
  | .float => "float"

/-- Why a token list is no program, with the token that stands where something else was expected,
if there is one, and its line. -/
inductive ParseError where
  | expectedToken (expected : Kind) (found : Option Token) (line : Nat)
  | expectedExpression (found : Option Token) (line : Nat)
  | expectedType (found : Option Token) (line : Nat)
  | invalidLiteral (kind : NumberKind) (lexeme : String) (line : Nat)
  deriving DecidableEq, Repr

namespace ParseError

def describe : Option Token → String
  | some token => s!"{token.kind.name} '{token.lexeme}'"
  | none => "end of input"

def message : ParseError → String
  | .expectedToken expected found line =>
    s!"Expected token {expected.name}, found {describe found} at line {line}"
  | .expectedExpression found line =>
    s!"Expected expression, found {describe found} at line {line}"
  | .expectedType found line =>
    s!"Expected variable type after const, found {describe found} at line {line}"
  | .invalidLiteral kind lexeme line =>
    s!"Invalid {kind.name} literal '{lexeme}' at line {line}"

end ParseError

namespace Parser

inductive Cause where
  | token (kind : Kind)
  | expression
  | type
  | number (kind : NumberKind) (token : Token)
  deriving DecidableEq, Repr

/-- A failed parse: what was missed, the tokens from there on, and the statements that had been
read before. -/
structure Failure where
  cause : Cause
  rest : List Token
  completed : List Stmt

/-- A failure before any statement was read. -/
def Failure.at (cause : Cause) (rest : List Token) : Failure :=
  ⟨cause, rest, []⟩

/-- The failure `f`, behind the statements `block`. -/
def Failure.after (block : List Stmt) (f : Failure) : Failure :=
  { f with completed := block ++ f.completed }

/-- The first token, unless it is the end of the input. -/
def current? : List Token → Option Token
  | token :: _ => if token.kind = .endOfInput then none else some token
  | [] => none

/-- The line of the first token of `rest`; behind the last token of `tokens` it is the line of that
token. -/
def currentLine (tokens rest : List Token) : Nat :=
  match rest with
  | token :: _ => token.line
  | [] => (tokens.getLast?.map Token.line).getD 0

def Failure.error (tokens : List Token) (f : Failure) : ParseError :=
  let found := current? f.rest
  let line := currentLine tokens f.rest
  match f.cause with
  | .token kind => .expectedToken kind found line
  | .expression => .expectedExpression found line
  | .type => .expectedType found line
  | .number kind token => .invalidLiteral kind token.lexeme token.line

def Failure.messages (f : Failure) : List Message :=
  (Stmt.completedAll f.completed).map Stmt.parsed

/-- What remains of `ts` when at least one token was read. -/
abbrev Rest (ts : List Token) := { rest : List Token // rest.length < ts.length }

abbrev Remaining (ts : List Token) := { rest : List Token // rest.length ≤ ts.length }

/-- The outcome of a parser function on `ts`: a failure, or a value and the tokens behind it. -/
abbrev Reply (α : Type) (ts : List Token) := Except Failure (α × Rest ts)

theorem length_lt_cons (token : Token) (rest : List Token) :
    rest.length < (token :: rest).length :=
  Nat.lt_succ_self _

def accept? (kind : Kind) : (ts : List Token) → Option (Rest ts)
  | [] => none
  | token :: rest => if token.kind = kind then some ⟨rest, length_lt_cons token rest⟩ else none

def expect (kind : Kind) : (ts : List Token) → Reply Token ts
  | [] => .error (.at (.token kind) [])
  | token :: rest =>
    if token.kind = kind then .ok (token, ⟨rest, length_lt_cons token rest⟩)
    else .error (.at (.token kind) (token :: rest))

end Parser

end MiniC
