import MiniC.Parser.Stmt
import MiniC.Proofs.Sequence

/-!
# Outcomes of the parser functions

A parser function returns the tokens behind what it read together with the proof that they are
fewer. Its outcome is the same answer without that proof, and each function has one equation
between outcomes. Facts about the parser are derived from these equations only.
-/

namespace MiniC.Parser

set_option autoImplicit false

section Outcome

variable {α β : Type} {P Q : List Token → Prop}

/-- What a parser function answers: a failure, or a value and the tokens behind it. -/
def outcome (r : Except Failure (α × { rest : List Token // P rest })) :
    Except Failure (α × List Token) :=
  r.map fun x => (x.1, x.2.val)

theorem outcome_ok (a : α) (rest : List Token) (h : P rest) :
    outcome (.ok (a, (⟨rest, h⟩ : { rest : List Token // P rest }))) = .ok (a, rest) := rfl

theorem outcome_property {r : Except Failure (α × { rest : List Token // P rest })} {a : α}
    {rest : List Token} (h : outcome r = .ok (a, rest)) : P rest := by
  cases r with
  | error f => simp [outcome, Except.map] at h
  | ok x =>
    simp only [outcome, Except.map, Except.ok.injEq, Prod.mk.injEq] at h
    exact h.2 ▸ x.2.property

theorem outcome_bind (r : Except Failure (α × { rest : List Token // P rest }))
    (k : α × { rest : List Token // P rest } → Except Failure (β × { rest : List Token // Q rest }))
    (k' : α × List Token → Except Failure (β × List Token))
    (h : ∀ a rest hr, outcome (k (a, ⟨rest, hr⟩)) = k' (a, rest)) :
    outcome (r >>= k) = outcome r >>= k' := by
  cases r with
  | error f => rfl
  | ok x => exact h x.1 x.2.val x.2.property

/-- Weakening what is known about the remaining tokens does not change the outcome. -/
theorem outcome_weaken (r : Except Failure (α × { rest : List Token // P rest }))
    (h : ∀ x : α × { rest : List Token // P rest }, Q x.2.val) :
    outcome (r >>= fun x => pure (x.1, (⟨x.2.val, h x⟩ : { rest : List Token // Q rest }))) =
      outcome r := by
  cases r <;> rfl

theorem outcome_mapError (r : Except Failure (α × { rest : List Token // P rest }))
    (f : Failure → Failure) : outcome (r.mapError f) = (outcome r).mapError f := by
  cases r <;> rfl

end Outcome

def behind? (kind : Kind) : List Token → Option (List Token)
  | [] => none
  | token :: rest => if token.kind = kind then some rest else none

theorem behind?_eq_some_iff {kind : Kind} {ts rest : List Token} :
    behind? kind ts = some rest ↔ ∃ token, token.kind = kind ∧ ts = token :: rest := by
  cases ts with
  | nil => simp [behind?]
  | cons token ts =>
    simp only [behind?, Option.ite_none_right_eq_some, Option.some.injEq, List.cons.injEq]
    constructor
    · rintro ⟨hk, rfl⟩
      exact ⟨token, hk, rfl, rfl⟩
    · rintro ⟨_, hk, rfl, rfl⟩
      exact ⟨hk, rfl⟩

theorem behind?_cons {kind : Kind} {token : Token} (h : token.kind = kind) (rest : List Token) :
    behind? kind (token :: rest) = some rest :=
  behind?_eq_some_iff.mpr ⟨token, h, rfl⟩

theorem outcome_expect_eq_ok_iff {kind : Kind} {ts rest : List Token} {token : Token} :
    outcome (expect kind ts) = .ok (token, rest) ↔ token.kind = kind ∧ ts = token :: rest := by
  cases ts with
  | nil => simp [expect, outcome, Except.map]
  | cons first ts =>
    by_cases h : first.kind = kind
    · simp only [expect, h, if_true, outcome_ok, Except.ok.injEq, Prod.mk.injEq, List.cons.injEq]
      exact ⟨fun he => ⟨he.1 ▸ h, he⟩, fun he => he.2⟩
    · simp only [expect, h, if_false, outcome, Except.map, reduceCtorEq, false_iff]
      rintro ⟨hk, he⟩
      injection he with he
      exact h (he ▸ hk)

theorem outcome_expect_cons {kind : Kind} {token : Token} (h : token.kind = kind)
    (rest : List Token) : outcome (expect kind (token :: rest)) = .ok (token, rest) :=
  outcome_expect_eq_ok_iff.mpr ⟨h, rfl⟩

section Expressions

theorem outcome_expression (ts : List Token) :
    outcome (expression ts) = outcome (operand ts) >>= fun x => outcome (chain x.1 x.2) := by
  rw [expression]
  refine outcome_bind _ _ _ fun first ts₁ h₁ => ?_
  exact outcome_weaken (chain first ts₁) _

theorem outcome_chain_nil (left : Expr) : outcome (chain left []) = .ok (left, []) := by
  rw [chain]
  rfl

theorem outcome_chain_of_none {token : Token} (h : BinaryOp.ofKind? token.kind = none)
    (left : Expr) (ts : List Token) :
    outcome (chain left (token :: ts)) = .ok (left, token :: ts) := by
  rw [chain]
  simp only [h]
  rfl

theorem outcome_chain_of_some {token : Token} {op : BinaryOp}
    (h : BinaryOp.ofKind? token.kind = some op) (left : Expr) (ts : List Token) :
    outcome (chain left (token :: ts)) =
      outcome (operand ts) >>= fun x => outcome (chain (left.attach op x.1) x.2) := by
  rw [chain]
  simp only [h]
  refine outcome_bind _ _ _ fun right ts₂ h₂ => ?_
  exact outcome_weaken (chain (left.attach op right) ts₂) _

theorem outcome_operand_of_none {token : Token} (h : UnaryOp.ofKind? token.kind = none)
    (ts : List Token) : outcome (operand (token :: ts)) = outcome (atom (token :: ts)) := by
  rw [operand]
  simp only [h]

theorem outcome_operand_of_some {token : Token} {op : UnaryOp}
    (h : UnaryOp.ofKind? token.kind = some op) (ts : List Token) :
    outcome (operand (token :: ts)) = outcome (atom ts) >>= fun x => .ok (.unary op x.1, x.2) := by
  rw [operand]
  simp only [h]
  exact outcome_bind _ _ _ fun e ts₂ h₂ => rfl

theorem outcome_atom_cons (token : Token) (ts : List Token) :
    outcome (atom (token :: ts)) = match token.kind with
      | .parenLeft => do
        let x ← outcome (expression ts)
        let y ← outcome (expect .parenRight x.2)
        .ok (.group x.1, y.2)
      | .integer => integer token ts >>= fun e => .ok (e, ts)
      | .decimal => float token ts >>= fun e => .ok (e, ts)
      | .string => .ok (.string token.lexeme, ts)
      | .identifier => .ok ((named token.lexeme ts).1, (named token.lexeme ts).2.val)
      | _ => .error (.at .expression (token :: ts)) := by
  rw [atom]
  cases token.kind with
  | parenLeft =>
    refine outcome_bind _ _ _ fun e ts₂ h₂ => ?_
    exact outcome_bind _ _ _ fun _ ts₃ h₃ => rfl
  | integer => cases integer token ts <;> rfl
  | decimal => cases float token ts <;> rfl
  | _ => rfl

end Expressions

section Statements

theorem outcome_declaration (ts : List Token) :
    outcome (declaration ts) = (do
      let type ← outcome (typeName (constMark ts).2.val)
      let name ← outcome (expect .identifier type.2)
      match behind? .equal name.2 with
      | some ts₄ =>
        let value ← outcome (expression ts₄)
        let stop ← outcome (expect .semicolon value.2)
        .ok (.define (constMark ts).1 type.1 name.1.lexeme value.1, stop.2)
      | none =>
        let stop ← outcome (expect .semicolon name.2)
        .ok (.declare (constMark ts).1 type.1 name.1.lexeme, stop.2)) := by
  rw [declaration]
  refine outcome_bind _ _ _ fun type ts₂ h₂ => ?_
  refine outcome_bind _ _ _ fun name ts₃ h₃ => ?_
  cases ts₃ with
  | nil => exact outcome_bind _ _ _ fun _ ts₄ h₄ => rfl
  | cons token ts₄ =>
    by_cases h : token.kind = .equal
    · simp only [accept?, behind?, h, if_true]
      refine outcome_bind _ _ _ fun value ts₅ h₅ => ?_
      exact outcome_bind _ _ _ fun _ ts₆ h₆ => rfl
    · simp only [accept?, behind?, h, if_false]
      exact outcome_bind _ _ _ fun _ ts₅ h₅ => rfl

theorem outcome_terminated (ts : List Token) :
    outcome (terminated ts) = (do
      let value ← outcome (expression ts)
      let stop ← outcome (expect .semicolon value.2)
      .ok (value.1, stop.2)) := by
  rw [terminated]
  refine outcome_bind _ _ _ fun value ts₁ h₁ => ?_
  exact outcome_bind _ _ _ fun _ ts₂ h₂ => rfl

theorem outcome_expressionStatement (ts : List Token) :
    outcome (expressionStatement ts) =
      outcome (terminated ts) >>= fun x => .ok (.expr x.1, x.2) := by
  rw [expressionStatement]
  exact outcome_bind _ _ _ fun value rest h => rfl

theorem outcome_nameStatement_of_none (name : Token) {ts : List Token}
    (h : ∀ token ∈ ts.head?, AssignOp.ofKind? token.kind = none) :
    outcome (nameStatement name ts) = outcome (expressionStatement (name :: ts)) := by
  cases ts with
  | nil => rfl
  | cons token ts => simp only [nameStatement, h token rfl]

theorem outcome_nameStatement_of_some (name : Token) {token : Token} {op : AssignOp}
    (h : AssignOp.ofKind? token.kind = some op) (ts : List Token) :
    outcome (nameStatement name (token :: ts)) =
      outcome (terminated ts) >>= fun x => .ok (.assign op name.lexeme x.1, x.2) := by
  simp only [nameStatement, h]
  exact outcome_bind _ _ _ fun value rest h => rfl

theorem outcome_condition (ts : List Token) :
    outcome (condition ts) = (do
      let opening ← outcome (expect .parenLeft ts)
      let value ← outcome (expression opening.2)
      let closing ← outcome (expect .parenRight value.2)
      .ok (value.1, closing.2)) := by
  rw [condition]
  refine outcome_bind _ _ _ fun _ ts₁ h₁ => ?_
  refine outcome_bind _ _ _ fun value ts₂ h₂ => ?_
  exact outcome_bind _ _ _ fun _ ts₃ h₃ => rfl

theorem outcome_statement_cons (token : Token) (ts : List Token) :
    outcome (statement (token :: ts)) = match token.kind with
      | .constWord | .intWord | .floatWord => outcome (declaration (token :: ts))
      | .ifWord => outcome (conditional (token :: ts)) >>= fun b =>
        .ok (.branch b.1.condition b.1.body b.1.otherwise, b.2)
      | .whileWord => do
        let test ← outcome (condition ts)
        let body ← outcome (block test.2)
        .ok (.loop test.1 body.1, body.2)
      | .identifier => outcome (nameStatement token ts)
      | _ => outcome (expressionStatement (token :: ts)) := by
  rw [statement]
  cases token.kind with
  | ifWord => exact outcome_bind _ _ _ fun b rest hr => rfl
  | whileWord =>
    refine outcome_bind _ _ _ fun test ts₂ h₂ => ?_
    exact outcome_bind _ _ _ fun body ts₃ h₃ => rfl
  | _ => rfl

theorem outcome_conditional (ts : List Token) :
    outcome (conditional ts) = (do
      let opening ← outcome (expect .ifWord ts)
      let test ← outcome (condition opening.2)
      let body ← outcome (block test.2)
      let otherwise ← (outcome (elsePart body.2)).mapError (Failure.after body.1)
      .ok (⟨test.1, body.1, otherwise.1⟩, otherwise.2)) := by
  rw [conditional]
  refine outcome_bind _ _ _ fun _ ts₁ h₁ => ?_
  refine outcome_bind _ _ _ fun test ts₂ h₂ => ?_
  refine outcome_bind _ _ _ fun body ts₃ h₃ => ?_
  rw [← outcome_mapError]
  exact outcome_bind _ _ _ fun otherwise ts₄ h₄ => rfl

theorem outcome_elsePart (ts : List Token) :
    outcome (elsePart ts) = match behind? .elseWord ts with
      | none => .ok (.none, ts)
      | some ts₁ => match behind? .ifWord ts₁ with
        | some _ => outcome (conditional ts₁) >>= fun b =>
          .ok (.branch b.1.condition b.1.body b.1.otherwise, b.2)
        | none => outcome (block ts₁) >>= fun body => .ok (.block body.1, body.2) := by
  rw [elsePart]
  cases ts with
  | nil => rfl
  | cons token ts₁ =>
    by_cases h : token.kind = .elseWord
    · simp only [accept?, behind?, h, if_true]
      cases ts₁ with
      | nil => exact outcome_bind _ _ _ fun body ts₂ h₂ => rfl
      | cons first ts₂ =>
        by_cases hi : first.kind = .ifWord
        · simp only [hi, if_true]
          exact outcome_bind _ _ _ fun b ts₃ h₃ => rfl
        · simp only [hi, if_false]
          exact outcome_bind _ _ _ fun body ts₃ h₃ => rfl
    · simp only [accept?, behind?, h, if_false]
      rfl

theorem outcome_block (ts : List Token) :
    outcome (block ts) = (do
      let opening ← outcome (expect .braceLeft ts)
      let body ← outcome (statements opening.2)
      let closing ← (outcome (expect .braceRight body.2)).mapError (Failure.after body.1)
      .ok (body.1, closing.2)) := by
  rw [block]
  refine outcome_bind _ _ _ fun _ ts₁ h₁ => ?_
  refine outcome_bind _ _ _ fun body ts₂ h₂ => ?_
  rw [← outcome_mapError]
  exact outcome_bind _ _ _ fun _ ts₃ h₃ => rfl

/-- Whether a list of statements ends before `ts`. -/
def AtBlockEnd : List Token → Prop
  | [] => True
  | token :: _ => token.kind = .braceRight ∨ token.kind = .endOfInput

theorem outcome_statements_of_end {ts : List Token} (h : AtBlockEnd ts) :
    outcome (statements ts) = .ok ([], ts) := by
  cases ts with
  | nil =>
    rw [statements]
    rfl
  | cons token ts =>
    rw [statements, if_pos (show token.kind = .braceRight ∨ token.kind = .endOfInput from h)]
    rfl

theorem outcome_statements_cons {ts : List Token} (h : ¬ AtBlockEnd ts) :
    outcome (statements ts) = (do
      let s ← outcome (statement ts)
      let ss ← (outcome (statements s.2)).mapError (Failure.after [s.1])
      .ok (s.1 :: ss.1, ss.2)) := by
  cases ts with
  | nil => exact absurd trivial h
  | cons token ts =>
    rw [statements, if_neg (show ¬ (token.kind = .braceRight ∨ token.kind = .endOfInput) from h)]
    refine outcome_bind _ _ _ fun s ts₂ h₂ => ?_
    rw [← outcome_mapError]
    exact outcome_bind _ _ _ fun ss ts₃ h₃ => rfl

/-- Whether a program ends before `ts`. -/
def AtEnd : List Token → Prop
  | [] => True
  | token :: _ => token.kind = .endOfInput

theorem program_of_end {ts : List Token} (h : AtEnd ts) : program ts = .ok [] := by
  cases ts with
  | nil => rw [program]
  | cons token ts => rw [program, if_pos (show token.kind = .endOfInput from h)]

theorem program_cons {ts : List Token} (h : ¬ AtEnd ts) :
    program ts = (do
      let s ← outcome (statement ts)
      let ss ← (program s.2).mapError (Failure.after [s.1])
      .ok (s.1 :: ss)) := by
  cases ts with
  | nil => exact absurd trivial h
  | cons token ts =>
    rw [program, if_neg (show ¬ token.kind = .endOfInput from h)]
    cases statement (token :: ts) <;> rfl

end Statements

end MiniC.Parser
