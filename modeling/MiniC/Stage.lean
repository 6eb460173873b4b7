import MiniC.Parser.Stmt
import MiniC.Register.Lowering
import MiniC.Syntax.Outline
import MiniC.Token.Scanner

/-!
# Stages

A source text goes through three stages: tokens, a program, register code. The result of each can be
written as text.
-/

namespace MiniC

set_option autoImplicit false

/-- The stages whose result can be written. -/
inductive Stage where
  | tokens | ast | bytecode
  deriving DecidableEq, Repr

structure UnknownStage where
  name : String
  deriving DecidableEq, Repr

def UnknownStage.message (e : UnknownStage) : String :=
  s!"Unknown emit target '{e.name}' (expected tokens, ast or bytecode)"

inductive StageError where
  | scan (e : ScanError)
  | parse (e : ParseError)
  | lower (e : Register.LoweringError)
  deriving DecidableEq, Repr

def StageError.message : StageError → String
  | .scan e => e.message
  | .parse e => e.message
  | .lower e => e.message

namespace Stage

def ofName (name : String) : Except UnknownStage Stage :=
  match name with
  | "tokens" => .ok .tokens
  | "ast" => .ok .ast
  | "bytecode" => .ok .bytecode
  | name => .error ⟨name⟩

end Stage

def scanned (source : String) : Except StageError (List Token) :=
  (tokenize source).mapError .scan

def parsed (tokens : List Token) : Except StageError Program :=
  (parse tokens).mapError .parse

def lowered (p : Program) : Except StageError (List Register.Instr) :=
  (Register.lower p).mapError .lower

/-- A list of tokens, one a line. -/
def tokenListing (tokens : List Token) : String :=
  String.join (tokens.map fun token => token.display ++ "\n")

/-- The result of a stage on a source text, as text. -/
def render (stage : Stage) (source : String) : Except StageError String := do
  let tokens ← scanned source
  match stage with
  | .tokens => return tokenListing tokens
  | .ast => return (← parsed tokens).text
  | .bytecode => return Register.listing (← lowered (← parsed tokens))

def renderMessages (stage : Stage) (source : String) : List Message :=
  tokenizeMessages source ++
    match stage, tokenize source with
    | .tokens, _ | _, .error _ => []
    | stage, .ok tokens =>
      parseMessages tokens ++
        match stage, parse tokens with
        | .bytecode, .ok p => Register.lowerMessages p
        | _, _ => []

end MiniC
