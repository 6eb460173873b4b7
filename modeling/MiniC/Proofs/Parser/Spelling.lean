import MiniC.Decimal.Read
import MiniC.Syntax.Basic

/-!
# The grammar of token lists

A token list spells a program when it writes the program in order with nothing added: parentheses
stand around groups and conditions only. A program is canonical when parentheses are not missed:
operators bind and associate as the tree says. This module does not refer to the parser.
-/

namespace MiniC

set_option autoImplicit false

def BinaryOp.kind : BinaryOp → Kind
  | .add => .plus
  | .subtract => .minus
  | .multiply => .star
  | .divide => .slash
  | .modulo => .modulo
  | .lower => .lower
  | .lowerEqual => .lowerEqual
  | .greater => .greater
  | .greaterEqual => .greaterEqual
  | .equal => .equalEqual
  | .notEqual => .bangEqual
  | .and => .andAnd
  | .or => .orOr

def UnaryOp.kind : UnaryOp → Kind
  | .arithmeticNegate => .minus
  | .logicalNegate => .bang
  | .increment => .plusPlus
  | .decrement => .minusMinus

def StepOp.kind : StepOp → Kind
  | .increment => .plusPlus
  | .decrement => .minusMinus

def AssignOp.kind : AssignOp → Kind
  | .assign => .equal
  | .addAssign => .plusEqual
  | .subtractAssign => .minusEqual
  | .multiplyAssign => .starEqual
  | .divideAssign => .slashEqual
  | .moduloAssign => .moduloEqual

/-- The binary operators by how tightly they bind, the loosest first. -/
def BinaryOp.levels : List (List BinaryOp) :=
  [[.or],
    [.and],
    [.equal, .notEqual],
    [.lower, .lowerEqual, .greater, .greaterEqual],
    [.add, .subtract],
    [.multiply, .divide, .modulo]]

def BinaryOp.level (op : BinaryOp) : Nat :=
  BinaryOp.levels.findIdx (op ∈ ·)

theorem BinaryOp.ofKind?_eq_some_iff {kind : Kind} {op : BinaryOp} :
    BinaryOp.ofKind? kind = some op ↔ kind = op.kind := by
  constructor
  · intro h
    cases kind <;> cases h <;> rfl
  · rintro rfl
    cases op <;> rfl

theorem UnaryOp.ofKind?_eq_some_iff {kind : Kind} {op : UnaryOp} :
    UnaryOp.ofKind? kind = some op ↔ kind = op.kind := by
  constructor
  · intro h
    cases kind <;> cases h <;> rfl
  · rintro rfl
    cases op <;> rfl

theorem StepOp.ofKind?_eq_some_iff {kind : Kind} {op : StepOp} :
    StepOp.ofKind? kind = some op ↔ kind = op.kind := by
  constructor
  · intro h
    cases kind <;> cases h <;> rfl
  · rintro rfl
    cases op <;> rfl

theorem AssignOp.ofKind?_eq_some_iff {kind : Kind} {op : AssignOp} :
    AssignOp.ofKind? kind = some op ↔ kind = op.kind := by
  constructor
  · intro h
    cases kind <;> cases h <;> rfl
  · rintro rfl
    cases op <;> rfl

def Kind.BeginsExpr (kind : Kind) : Prop :=
  kind ∈ [.minus, .bang, .plusPlus, .minusMinus, .parenLeft, .integer, .decimal, .string, .identifier]

namespace Expr

/-- The tokens `ts` write the expression `e`. -/
inductive Spelled : Expr → List Token → Prop where
  | int {token : Token} {n : Int64} (kind : token.kind = .integer)
      (value : Decimal.readInt64? token.lexeme.toList = some n) : Spelled (.int n) [token]
  | float {token : Token} {x : Float} (kind : token.kind = .decimal)
      (value : Decimal.readFloat? token.lexeme.toList = some x) : Spelled (.float x) [token]
  | string {token : Token} (kind : token.kind = .string) : Spelled (.string token.lexeme) [token]
  | name {token : Token} (kind : token.kind = .identifier) : Spelled (.name token.lexeme) [token]
  | step {op : StepOp} {token mark : Token} (kind : token.kind = .identifier)
      (step : mark.kind = op.kind) : Spelled (.step op token.lexeme) [token, mark]
  | unary {op : UnaryOp} {e : Expr} {mark : Token} {ts : List Token}
      (kind : mark.kind = op.kind) (operand : Spelled e ts) : Spelled (.unary op e) (mark :: ts)
  | binary {op : BinaryOp} {l r : Expr} {mark : Token} {ls rs : List Token}
      (left : Spelled l ls) (kind : mark.kind = op.kind) (right : Spelled r rs) :
      Spelled (.binary op l r) (ls ++ mark :: rs)
  | group {e : Expr} {opening closing : Token} {ts : List Token}
      (leftParen : opening.kind = .parenLeft) (inner : Spelled e ts)
      (rightParen : closing.kind = .parenRight) :
      Spelled (.group e) (opening :: (ts ++ [closing]))

/-- `e` may stand left of `op` without parentheses. -/
def FitsLeft (op : BinaryOp) : Expr → Prop
  | .binary root _ _ => op.level ≤ root.level
  | _ => True

/-- `e` may stand right of `op` without parentheses. -/
def FitsRight (op : BinaryOp) : Expr → Prop
  | .binary root _ _ => op.level < root.level
  | _ => True

/-- Literals, variables, steps and groups. -/
def IsAtom : Expr → Prop
  | .binary .. | .unary .. => False
  | _ => True

/-- Atoms, and expressions with an operator before them. -/
def IsOperand : Expr → Prop
  | .binary .. => False
  | _ => True

/-- No parentheses are missed in `e`: left operands do not bind more loosely than their operator,
right operands bind more tightly, and an operator stands before an atom only. -/
def Canonical : Expr → Prop
  | .binary op l r => l.FitsLeft op ∧ r.FitsRight op ∧ l.Canonical ∧ r.Canonical
  | .unary _ e => e.IsAtom ∧ e.Canonical
  | .group e => e.Canonical
  | _ => True

theorem Spelled.head {e : Expr} {ts : List Token} (h : e.Spelled ts) :
    ∃ token rest, ts = token :: rest ∧ token.kind.BeginsExpr := by
  induction h with
  | int kind _ => exact ⟨_, _, rfl, by simp [Kind.BeginsExpr, kind]⟩
  | float kind _ => exact ⟨_, _, rfl, by simp [Kind.BeginsExpr, kind]⟩
  | string kind => exact ⟨_, _, rfl, by simp [Kind.BeginsExpr, kind]⟩
  | name kind => exact ⟨_, _, rfl, by simp [Kind.BeginsExpr, kind]⟩
  | step kind _ => exact ⟨_, _, rfl, by simp [Kind.BeginsExpr, kind]⟩
  | @unary op e mark ts kind _ _ =>
    refine ⟨mark, ts, rfl, ?_⟩
    rw [kind]
    cases op <;> simp [Kind.BeginsExpr, UnaryOp.kind]
  | binary _ _ _ ihl _ =>
    obtain ⟨token, rest, rfl, hk⟩ := ihl
    exact ⟨token, _, rfl, hk⟩
  | group kind _ _ _ => exact ⟨_, _, rfl, by simp [Kind.BeginsExpr, kind]⟩

/-- A name at the beginning of an expression is not assigned to. -/
theorem Spelled.second {e : Expr} {ts : List Token} (h : e.Spelled ts) {name next : Token}
    {rest : List Token} (hts : ts = name :: next :: rest) (hn : name.kind = .identifier) :
    AssignOp.ofKind? next.kind = none := by
  induction h generalizing rest with
  | int | float | string | name => simp at hts
  | @step op token mark _ step =>
    simp only [List.cons.injEq] at hts
    rw [← hts.2.1, step]
    cases op <;> rfl
  | @unary op _ mark _ kind _ _ =>
    simp only [List.cons.injEq] at hts
    rw [← hts.1, kind] at hn
    cases op <;> simp [UnaryOp.kind] at hn
  | @binary op l r mark ls rs left kind _ ihl _ =>
    cases ls with
    | nil =>
      obtain ⟨_, _, h, _⟩ := left.head
      simp at h
    | cons first ls =>
      cases ls with
      | nil =>
        simp only [List.cons_append, List.nil_append, List.cons.injEq] at hts
        rw [← hts.2.1, kind]
        cases op <;> rfl
      | cons second ls =>
        simp only [List.cons_append, List.cons.injEq] at hts
        exact ihl (by rw [hts.1, hts.2.1])
  | group kind _ _ _ =>
    simp only [List.cons.injEq] at hts
    rw [← hts.1, kind] at hn
    simp at hn

theorem Spelled.not_end {e : Expr} {ts : List Token} (h : e.Spelled ts) :
    ∀ token ∈ ts, token.kind ≠ .endOfInput := by
  induction h with
  | int kind | float kind | string kind | name kind => simp [kind]
  | @step op _ _ kind step => cases op <;> simp [kind, step, StepOp.kind]
  | @unary op _ _ _ kind _ ih => cases op <;> simpa [kind, UnaryOp.kind] using ih
  | @binary op _ _ _ _ _ _ kind _ ihl ihr =>
    intro token ht
    rcases List.mem_append.mp ht with ht | ht
    · exact ihl token ht
    · rcases List.mem_cons.mp ht with rfl | ht
      · cases op <;> simp [kind, BinaryOp.kind]
      · exact ihr token ht
  | group leftParen _ rightParen ih =>
    intro token ht
    simp only [List.mem_cons, List.mem_append, List.not_mem_nil, or_false] at ht
    rcases ht with rfl | ht | rfl
    · simp [leftParen]
    · exact ih token ht
    · simp [rightParen]

end Expr

/-- Whether the tokens `ts` are the optional `const` of a declaration. -/
inductive SpelledConst : Bool → List Token → Prop where
  | absent : SpelledConst false []
  | present {mark : Token} (kind : mark.kind = .constWord) : SpelledConst true [mark]

mutual

inductive Stmt.Spelled : Stmt → List Token → Prop where
  | expr {e : Expr} {ts : List Token} {stop : Token} (value : e.Spelled ts)
      (semicolon : stop.kind = .semicolon) : Stmt.Spelled (.expr e) (ts ++ [stop])
  | declare {isConst : Bool} {mark : List Token} {type name stop : Token}
      (const : SpelledConst isConst mark) (typeKind : type.kind = .intWord ∨ type.kind = .floatWord)
      (nameKind : name.kind = .identifier) (semicolon : stop.kind = .semicolon) :
      Stmt.Spelled (.declare isConst type.lexeme name.lexeme) (mark ++ [type, name, stop])
  | define {isConst : Bool} {mark : List Token} {type name equal stop : Token} {e : Expr}
      {ts : List Token} (const : SpelledConst isConst mark)
      (typeKind : type.kind = .intWord ∨ type.kind = .floatWord)
      (nameKind : name.kind = .identifier) (equalKind : equal.kind = .equal)
      (value : e.Spelled ts) (semicolon : stop.kind = .semicolon) :
      Stmt.Spelled (.define isConst type.lexeme name.lexeme e)
        (mark ++ type :: name :: equal :: (ts ++ [stop]))
  | assign {op : AssignOp} {name mark stop : Token} {e : Expr} {ts : List Token}
      (nameKind : name.kind = .identifier) (kind : mark.kind = op.kind) (value : e.Spelled ts)
      (semicolon : stop.kind = .semicolon) :
      Stmt.Spelled (.assign op name.lexeme e) (name :: mark :: (ts ++ [stop]))
  | branch {test : Expr} {body : List Stmt} {otherwise : Else} {word opening closing : Token}
      {cs bs os : List Token} (wordKind : word.kind = .ifWord)
      (leftParen : opening.kind = .parenLeft) (condition : test.Spelled cs)
      (rightParen : closing.kind = .parenRight) (block : Stmt.SpelledBlock body bs)
      (rest : Else.Spelled otherwise os) :
      Stmt.Spelled (.branch test body otherwise)
        (word :: opening :: (cs ++ closing :: (bs ++ os)))
  | loop {test : Expr} {body : List Stmt} {word opening closing : Token} {cs bs : List Token}
      (wordKind : word.kind = .whileWord) (leftParen : opening.kind = .parenLeft)
      (condition : test.Spelled cs) (rightParen : closing.kind = .parenRight)
      (block : Stmt.SpelledBlock body bs) :
      Stmt.Spelled (.loop test body) (word :: opening :: (cs ++ closing :: bs))

/-- The tokens `ts` write the statements of a block and the braces around them. -/
inductive Stmt.SpelledBlock : List Stmt → List Token → Prop where
  | braces {body : List Stmt} {opening closing : Token} {ts : List Token}
      (leftBrace : opening.kind = .braceLeft) (inner : Stmt.SpelledAll body ts)
      (rightBrace : closing.kind = .braceRight) :
      Stmt.SpelledBlock body (opening :: (ts ++ [closing]))

inductive Stmt.SpelledAll : List Stmt → List Token → Prop where
  | nil : Stmt.SpelledAll [] []
  | cons {s : Stmt} {ss : List Stmt} {ts us : List Token} (first : Stmt.Spelled s ts)
      (others : Stmt.SpelledAll ss us) : Stmt.SpelledAll (s :: ss) (ts ++ us)

inductive Else.Spelled : Else → List Token → Prop where
  | none : Else.Spelled .none []
  | block {body : List Stmt} {word : Token} {bs : List Token} (wordKind : word.kind = .elseWord)
      (block : Stmt.SpelledBlock body bs) : Else.Spelled (.block body) (word :: bs)
  | branch {test : Expr} {body : List Stmt} {otherwise : Else} {word : Token} {ts : List Token}
      (wordKind : word.kind = .elseWord)
      (branch : Stmt.Spelled (.branch test body otherwise) ts) :
      Else.Spelled (.branch test body otherwise) (word :: ts)

end

mutual

def Stmt.Canonical : Stmt → Prop
  | .expr value => value.Canonical
  | .declare .. => True
  | .define _ _ _ value => value.Canonical
  | .assign _ _ value => value.Canonical
  | .branch condition body otherwise =>
    condition.Canonical ∧ Stmt.CanonicalAll body ∧ otherwise.Canonical
  | .loop condition body => condition.Canonical ∧ Stmt.CanonicalAll body

def Stmt.CanonicalAll : List Stmt → Prop
  | [] => True
  | s :: block => s.Canonical ∧ Stmt.CanonicalAll block

def Else.Canonical : Else → Prop
  | .none => True
  | .block body => Stmt.CanonicalAll body
  | .branch condition body otherwise =>
    condition.Canonical ∧ Stmt.CanonicalAll body ∧ otherwise.Canonical

end

/-- A statement begins with a keyword, the name of a type or an expression. -/
theorem Stmt.Spelled.head {s : Stmt} {ts : List Token} (h : s.Spelled ts) :
    ∃ token rest, ts = token :: rest ∧ (token.kind.BeginsExpr ∨ token.kind ∈
      [.constWord, .intWord, .floatWord, .ifWord, .whileWord]) := by
  cases h with
  | expr value _ =>
    obtain ⟨token, rest, rfl, hk⟩ := value.head
    exact ⟨token, _, rfl, .inl hk⟩
  | declare const typeKind _ _ =>
    cases const with
    | absent => exact ⟨_, _, rfl, .inr (by rcases typeKind with h | h <;> simp [h])⟩
    | present kind => exact ⟨_, _, rfl, .inr (by simp [kind])⟩
  | define const typeKind _ _ _ _ =>
    cases const with
    | absent => exact ⟨_, _, rfl, .inr (by rcases typeKind with h | h <;> simp [h])⟩
    | present kind => exact ⟨_, _, rfl, .inr (by simp [kind])⟩
  | assign nameKind _ _ _ => exact ⟨_, _, rfl, .inl (by simp [Kind.BeginsExpr, nameKind])⟩
  | branch wordKind _ _ _ _ _ => exact ⟨_, _, rfl, .inr (by simp [wordKind])⟩
  | loop wordKind _ _ _ _ => exact ⟨_, _, rfl, .inr (by simp [wordKind])⟩

theorem SpelledConst.not_end {isConst : Bool} {ts : List Token} (h : SpelledConst isConst ts) :
    ∀ token ∈ ts, token.kind ≠ .endOfInput := by
  cases h with
  | absent => simp
  | present kind => simp [kind]

mutual

theorem Stmt.Spelled.not_end : ∀ {s : Stmt} {ts : List Token}, s.Spelled ts →
    ∀ token ∈ ts, token.kind ≠ .endOfInput
  | _, _, .expr value semicolon => by
    have hv := value.not_end
    simp only [List.mem_append, List.mem_singleton]
    rintro token (ht | rfl)
    · exact hv token ht
    · simp [semicolon]
  | _, _, .declare const typeKind nameKind semicolon => by
    have hc := const.not_end
    simp only [List.mem_append, List.mem_cons, List.not_mem_nil, or_false]
    rintro token (ht | rfl | rfl | rfl)
    · exact hc token ht
    · rcases typeKind with h | h <;> simp [h]
    · simp [nameKind]
    · simp [semicolon]
  | _, _, .define const typeKind nameKind equalKind value semicolon => by
    have hc := const.not_end
    have hv := value.not_end
    simp only [List.mem_append, List.mem_cons, List.not_mem_nil, or_false]
    rintro token (ht | rfl | rfl | rfl | ht | rfl)
    · exact hc token ht
    · rcases typeKind with h | h <;> simp [h]
    · simp [nameKind]
    · simp [equalKind]
    · exact hv token ht
    · simp [semicolon]
  | _, _, @Stmt.Spelled.assign op _ _ _ _ _ nameKind kind value semicolon => by
    have hv := value.not_end
    simp only [List.mem_append, List.mem_cons, List.not_mem_nil, or_false]
    rintro token (rfl | rfl | ht | rfl)
    · simp [nameKind]
    · cases op <;> simp [kind, AssignOp.kind]
    · exact hv token ht
    · simp [semicolon]
  | _, _, .branch wordKind leftParen condition rightParen block rest => by
    have hc := condition.not_end
    have hb := block.not_end
    have hr := rest.not_end
    simp only [List.mem_append, List.mem_cons]
    rintro token (rfl | rfl | ht | rfl | ht | ht)
    · simp [wordKind]
    · simp [leftParen]
    · exact hc token ht
    · simp [rightParen]
    · exact hb token ht
    · exact hr token ht
  | _, _, .loop wordKind leftParen condition rightParen block => by
    have hc := condition.not_end
    have hb := block.not_end
    simp only [List.mem_append, List.mem_cons]
    rintro token (rfl | rfl | ht | rfl | ht)
    · simp [wordKind]
    · simp [leftParen]
    · exact hc token ht
    · simp [rightParen]
    · exact hb token ht

theorem Stmt.SpelledBlock.not_end : ∀ {body : List Stmt} {ts : List Token},
    Stmt.SpelledBlock body ts → ∀ token ∈ ts, token.kind ≠ .endOfInput
  | _, _, .braces leftBrace inner rightBrace => by
    have hi := inner.not_end
    simp only [List.mem_append, List.mem_cons, List.not_mem_nil, or_false]
    rintro token (rfl | ht | rfl)
    · simp [leftBrace]
    · exact hi token ht
    · simp [rightBrace]

theorem Stmt.SpelledAll.not_end : ∀ {body : List Stmt} {ts : List Token},
    Stmt.SpelledAll body ts → ∀ token ∈ ts, token.kind ≠ .endOfInput
  | _, _, .nil => by simp
  | _, _, .cons first others => by
    have hf := first.not_end
    have ho := others.not_end
    intro token ht
    rcases List.mem_append.mp ht with ht | ht
    · exact hf token ht
    · exact ho token ht

theorem Else.Spelled.not_end : ∀ {otherwise : Else} {ts : List Token}, otherwise.Spelled ts →
    ∀ token ∈ ts, token.kind ≠ .endOfInput
  | _, _, .none => by simp
  | _, _, .block wordKind block => by
    have hb := block.not_end
    simp only [List.mem_cons]
    rintro token (rfl | ht)
    · simp [wordKind]
    · exact hb token ht
  | _, _, .branch wordKind branch => by
    have hb := branch.not_end
    simp only [List.mem_cons]
    rintro token (rfl | ht)
    · simp [wordKind]
    · exact hb token ht

end

end MiniC
