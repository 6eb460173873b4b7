/-!
# Tokens

The kinds of tokens, and tokens with their place in the source text.
-/

namespace MiniC

set_option autoImplicit false

inductive Kind where
  | intWord | floatWord | constWord | breakWord | continueWord | whileWord | doWord | ifWord
  | elseWord | returnWord | forWord
  | braceLeft | braceRight | parenLeft | parenRight | semicolon
  | plus | minus | star | slash | modulo
  | lower | lowerEqual | greater | greaterEqual | equalEqual | bangEqual | equal | bang | andAnd
  | orOr
  | plusEqual | minusEqual | starEqual | slashEqual | moduloEqual | plusPlus | minusMinus
  | string | integer | decimal | identifier | endOfInput
  deriving DecidableEq, Repr

namespace Kind

def name : Kind → String
  | .intWord => "Int"
  | .floatWord => "Float"
  | .constWord => "Const"
  | .breakWord => "Break"
  | .continueWord => "Continue"
  | .whileWord => "While"
  | .doWord => "Do"
  | .ifWord => "If"
  | .elseWord => "Else"
  | .returnWord => "Return"
  | .forWord => "For"
  | .braceLeft => "BraceLeft"
  | .braceRight => "BraceRight"
  | .parenLeft => "ParenLeft"
  | .parenRight => "ParenRight"
  | .semicolon => "Semicolon"
  | .plus => "Plus"
  | .minus => "Minus"
  | .star => "Star"
  | .slash => "Slash"
  | .modulo => "Modulo"
  | .lower => "Lower"
  | .lowerEqual => "LowerEqual"
  | .greater => "Greater"
  | .greaterEqual => "GreaterEqual"
  | .equalEqual => "EqualEqual"
  | .bangEqual => "BangEqual"
  | .equal => "Equal"
  | .bang => "Bang"
  | .andAnd => "And"
  | .orOr => "Or"
  | .plusEqual => "PlusEqual"
  | .minusEqual => "MinusEqual"
  | .starEqual => "StarEqual"
  | .slashEqual => "SlashEqual"
  | .moduloEqual => "ModuloEqual"
  | .plusPlus => "PlusPlus"
  | .minusMinus => "MinusMinus"
  | .string => "StringLiteral"
  | .integer => "IntegerLiteral"
  | .decimal => "FloatLiteral"
  | .identifier => "Identifier"
  | .endOfInput => "EOF"

def keywords : List (List Char × Kind) :=
  [(['i', 'n', 't'], .intWord),
   (['f', 'l', 'o', 'a', 't'], .floatWord),
   (['c', 'o', 'n', 's', 't'], .constWord),
   (['b', 'r', 'e', 'a', 'k'], .breakWord),
   (['c', 'o', 'n', 't', 'i', 'n', 'u', 'e'], .continueWord),
   (['w', 'h', 'i', 'l', 'e'], .whileWord),
   (['d', 'o'], .doWord),
   (['i', 'f'], .ifWord),
   (['e', 'l', 's', 'e'], .elseWord),
   (['r', 'e', 't', 'u', 'r', 'n'], .returnWord),
   (['f', 'o', 'r'], .forWord)]

def keyword? (word : List Char) : Option Kind :=
  keywords.lookup word

/-- The tokens that are one fixed character. -/
def singles : List (Char × Kind) :=
  [(';', .semicolon), ('{', .braceLeft), ('}', .braceRight), ('(', .parenLeft), (')', .parenRight),
   ('+', .plus), ('-', .minus), ('*', .star), ('/', .slash), ('%', .modulo),
   ('<', .lower), ('>', .greater), ('=', .equal), ('!', .bang)]

/-- The tokens that are two fixed characters. -/
def pairs : List ((Char × Char) × Kind) :=
  [(('+', '='), .plusEqual), (('+', '+'), .plusPlus),
   (('-', '='), .minusEqual), (('-', '-'), .minusMinus),
   (('*', '='), .starEqual), (('/', '='), .slashEqual), (('%', '='), .moduloEqual),
   (('<', '='), .lowerEqual), (('>', '='), .greaterEqual),
   (('=', '='), .equalEqual), (('!', '='), .bangEqual),
   (('&', '&'), .andAnd), (('|', '|'), .orOr)]

def single? (c : Char) : Option Kind :=
  singles.lookup c

def pair? (c d : Char) : Option Kind :=
  pairs.lookup (c, d)

def isType : Kind → Bool
  | .intWord | .floatWord => true
  | _ => false

end Kind

/-- A token: its kind, the line on which it ends, the bytes it takes in the source text, and its
lexeme. The lexeme of a string is what stands between its quotes. -/
structure Token where
  kind : Kind
  line : Nat
  start : Nat
  length : Nat
  lexeme : String
  deriving DecidableEq, Repr

/-- An offset that does not fit in 64 bits. -/
structure OffsetOverflow where
  deriving DecidableEq, Repr

def OffsetOverflow.message (_ : OffsetOverflow) : String :=
  "attempt to add with overflow"

namespace Token

/-- The offset behind the last byte of a token. -/
def stop (t : Token) : Except OffsetOverflow Nat :=
  if t.start + t.length < UInt64.size then .ok (t.start + t.length) else .error ⟨⟩

def display (t : Token) : String :=
  s!"{t.line}:{t.start} {t.kind.name} '{t.lexeme}'"

end Token

end MiniC
