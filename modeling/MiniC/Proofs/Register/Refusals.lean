import MiniC.Proofs.Register.Patching

/-!
# What has no register code

The lowering stops at the first construct that it does not know, in the order in which a program is
read: a statement before its parts, a branch with its else part before the condition, an operator
before its operands. All constructs are listed in that order without regard to the lowering, and the
refusals are read off the list.
-/

namespace MiniC

set_option autoImplicit false

inductive Construct where
  | stmt (s : Stmt)
  | expr (e : Expr)

/-- An expression and those below it, from left to right. -/
def Expr.constructs : Expr → List Construct
  | .binary op left right => .expr (.binary op left right) :: (left.constructs ++ right.constructs)
  | .unary op operand => .expr (.unary op operand) :: operand.constructs
  | .group inner => .expr (.group inner) :: inner.constructs
  | e => [.expr e]

mutual

def Stmt.constructs : Stmt → List Construct
  | .expr value => .stmt (.expr value) :: value.constructs
  | .declare isConst type name => [.stmt (.declare isConst type name)]
  | .define isConst type name value => .stmt (.define isConst type name value) :: value.constructs
  | .assign op name value => .stmt (.assign op name value) :: value.constructs
  | .branch test body otherwise =>
    .stmt (.branch test body otherwise) ::
      (test.constructs ++ (Stmt.constructsAll body ++ otherwise.constructs))
  | .loop test body => .stmt (.loop test body) :: (test.constructs ++ Stmt.constructsAll body)

def Stmt.constructsAll : List Stmt → List Construct
  | [] => []
  | s :: block => s.constructs ++ Stmt.constructsAll block

/-- A branch behind `else` counts as a branch of its own. -/
def Else.constructs : Else → List Construct
  | .none => []
  | .block body => Stmt.constructsAll body
  | .branch test body otherwise =>
    .stmt (.branch test body otherwise) ::
      (test.constructs ++ (Stmt.constructsAll body ++ otherwise.constructs))

end

namespace Register

/-- Why a construct is refused: a declaration without a value, an assignment, a branch with an else
part, and the operators that compare or connect conditions. -/
def refusal? : Construct → Option LoweringError
  | .stmt (.declare ..) => some (.unsupportedStatement "variable declaration")
  | .stmt (.assign ..) => some (.unsupportedStatement "variable assignment")
  | .stmt (.branch _ _ .none) => none
  | .stmt (.branch ..) => some .unsupportedElse
  | .expr (.binary op _ _) =>
    match op with
    | .lower | .lowerEqual | .greater | .greaterEqual | .equal | .notEqual | .and | .or =>
      some (.unsupportedOperator op)
    | .add | .subtract | .multiply | .divide | .modulo => none
  | _ => none

def firstRefusal (cs : List Construct) : Option LoweringError :=
  cs.findSome? refusal?

section First

variable {c : Construct} {e : LoweringError}

theorem firstRefusal_cons_none (h : refusal? c = none) (cs : List Construct) :
    firstRefusal (c :: cs) = firstRefusal cs := by
  simp [firstRefusal, h]

theorem firstRefusal_cons_some (h : refusal? c = some e) (cs : List Construct) :
    firstRefusal (c :: cs) = some e := by
  simp [firstRefusal, h]

theorem firstRefusal_append (cs ds : List Construct) :
    firstRefusal (cs ++ ds) = (firstRefusal cs).or (firstRefusal ds) :=
  List.findSome?_append

end First

def error? {α : Type} : Except LoweringError α → Option LoweringError
  | .ok _ => none
  | .error e => some e

section Answers

variable {α β : Type} {r : Except LoweringError α} {k : α → Except LoweringError β}

theorem error?_eq_some_iff {e : LoweringError} : error? r = some e ↔ r = .error e := by
  cases r <;> simp [error?]

theorem error?_eq_none_iff : error? r = none ↔ ∃ a, r = .ok a := by
  cases r <;> simp [error?]

theorem error?_bind {first second : Option LoweringError} (hr : error? r = first)
    (hk : ∀ a, error? (k a) = second) : error? (r >>= k) = first.or second := by
  subst hr
  cases r with
  | error e => rfl
  | ok a => exact hk a

theorem error?_bind_ok (f : α → β) : error? (r >>= fun a => .ok (f a)) = error? r := by
  cases r <;> rfl

end Answers

namespace Direct

/-- The operators without an instruction are those that are refused. -/
theorem refusal?_binary (op : BinaryOp) (left right : Expr) :
    refusal? (.expr (.binary op left right)) =
      if Arith.ofBinary? op = none then some (.unsupportedOperator op) else none := by
  cases op <;> rfl

theorem error?_expr (n : Nat) (e : Expr) : error? (expr n e) = firstRefusal e.constructs := by
  induction e generalizing n with
  | int | float | string | name | step => rfl
  | group inner ih => exact ih n
  | binary op left right ihl ihr =>
    have hrefusal := refusal?_binary op left right
    rw [expr, Expr.constructs]
    cases hop : Arith.ofBinary? op with
    | none =>
      rw [if_pos hop] at hrefusal
      rw [firstRefusal_cons_some hrefusal]
      rfl
    | some arith =>
      rw [if_neg (by simp [hop])] at hrefusal
      rw [firstRefusal_cons_none hrefusal, firstRefusal_append]
      apply error?_bind (ihl n)
      intro ls
      exact (error?_bind_ok _).trans (ihr (n + 1))
  | unary op operand ih => exact (error?_bind_ok _).trans (ih n)

mutual

theorem error?_stmt (n base : Nat) (s : Stmt) :
    error? (stmt n base s) = firstRefusal s.constructs := by
  cases s with
  | expr value =>
    rw [stmt, Stmt.constructs, firstRefusal_cons_none rfl]
    exact error?_expr n value
  | declare isConst type name =>
    rw [stmt, Stmt.constructs, firstRefusal_cons_some rfl]
    rfl
  | define isConst type name value =>
    rw [stmt, Stmt.constructs, firstRefusal_cons_none rfl]
    exact (error?_bind_ok _).trans (error?_expr n value)
  | assign op name value =>
    rw [stmt, Stmt.constructs, firstRefusal_cons_some rfl]
    rfl
  | branch test body otherwise =>
    cases otherwise with
    | none =>
      rw [stmt, Stmt.constructs, firstRefusal_cons_none rfl, firstRefusal_append, Else.constructs,
        List.append_nil]
      apply error?_bind (error?_expr n test)
      intro es
      exact (error?_bind_ok _).trans (error?_block n _ body)
    | block | branch =>
      rw [Stmt.constructs, firstRefusal_cons_some rfl]
      simp [stmt, error?]
  | loop test body =>
    rw [stmt, Stmt.constructs, firstRefusal_cons_none rfl, firstRefusal_append]
    apply error?_bind (error?_expr n test)
    intro es
    exact (error?_bind_ok _).trans (error?_block n _ body)

theorem error?_block (n base : Nat) (ss : List Stmt) :
    error? (block n base ss) = firstRefusal (Stmt.constructsAll ss) := by
  cases ss with
  | nil =>
    rw [block, Stmt.constructsAll]
    rfl
  | cons s ss =>
    rw [block, Stmt.constructsAll, firstRefusal_append]
    apply error?_bind (error?_stmt n base s)
    intro cs
    exact (error?_bind_ok _).trans (error?_block n _ ss)

end

end Direct

/-- A program has register code exactly if none of its constructs is refused; otherwise the error is
that of the first one that is. -/
theorem lower_refuses_first (p : Program) :
    ((∃ code, lower p = .ok code) ↔ ∀ c ∈ Stmt.constructsAll p, refusal? c = none) ∧
    ∀ e, lower p = .error e ↔ ∃ front c back, Stmt.constructsAll p = front ++ c :: back ∧
      refusal? c = some e ∧ ∀ d ∈ front, refusal? d = none := by
  rw [lower_eq_block]
  have herror := Direct.error?_block 0 0 p
  constructor
  · rw [← error?_eq_none_iff, herror, firstRefusal, List.findSome?_eq_none_iff]
  · intro e
    rw [← error?_eq_some_iff, herror, firstRefusal, List.findSome?_eq_some_iff]

end Register

end MiniC
