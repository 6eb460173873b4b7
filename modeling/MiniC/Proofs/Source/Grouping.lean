import MiniC.Proofs.Parser.Expression
import MiniC.Proofs.Register.Patching

/-!
# Parentheses that change nothing

A program can be written with parentheses around every operation. The tree that this spells is
canonical whatever the program was, differs from it in groups only, and has the same register code.
-/

namespace MiniC

set_option autoImplicit false

namespace Expr

/-- `e` with a group around every operation. -/
def enclosed : Expr → Expr
  | .binary op l r => .group (.binary op l.enclosed r.enclosed)
  | .unary op e => .group (.unary op e.enclosed)
  | .group e => .group e.enclosed
  | e => e

def ungrouped : Expr → Expr
  | .binary op l r => .binary op l.ungrouped r.ungrouped
  | .unary op e => .unary op e.ungrouped
  | .group e => e.ungrouped
  | e => e

theorem enclosed_isAtom (e : Expr) : e.enclosed.IsAtom := by
  cases e <;> trivial

theorem IsAtom.fitsLeft {e : Expr} (h : e.IsAtom) (op : BinaryOp) : e.FitsLeft op := by
  cases e <;> trivial

theorem enclosed_canonical (e : Expr) : e.enclosed.Canonical := by
  induction e with
  | binary op l r ihl ihr =>
    have hl := (enclosed_isAtom l).fitsLeft op
    have hr := (enclosed_isAtom r).isOperand.fitsRight op
    exact ⟨hl, hr, ihl, ihr⟩
  | unary op e ih => exact ⟨enclosed_isAtom e, ih⟩
  | group e ih => exact ih
  | _ => trivial

theorem ungrouped_enclosed (e : Expr) : e.enclosed.ungrouped = e.ungrouped := by
  induction e with
  | binary op l r ihl ihr => simp only [enclosed, ungrouped, ihl, ihr]
  | unary op e ih => simp only [enclosed, ungrouped, ih]
  | group e ih => simp only [enclosed, ungrouped, ih]
  | _ => rfl

end Expr

mutual

def Stmt.mapExpr (f : Expr → Expr) : Stmt → Stmt
  | .expr value => .expr (f value)
  | .declare isConst type name => .declare isConst type name
  | .define isConst type name value => .define isConst type name (f value)
  | .assign op name value => .assign op name (f value)
  | .branch test body otherwise =>
    .branch (f test) (Stmt.mapAll f body) (otherwise.mapExpr f)
  | .loop test body => .loop (f test) (Stmt.mapAll f body)

def Stmt.mapAll (f : Expr → Expr) : List Stmt → List Stmt
  | [] => []
  | s :: ss => s.mapExpr f :: Stmt.mapAll f ss

def Else.mapExpr (f : Expr → Expr) : Else → Else
  | .none => .none
  | .block body => .block (Stmt.mapAll f body)
  | .branch test body otherwise =>
    .branch (f test) (Stmt.mapAll f body) (otherwise.mapExpr f)

end

section Map

variable {f g h : Expr → Expr}

mutual

theorem Stmt.mapExpr_comp (hcomp : ∀ e, f (g e) = h e) : ∀ s : Stmt,
    (s.mapExpr g).mapExpr f = s.mapExpr h
  | .expr value => by simp only [Stmt.mapExpr, hcomp]
  | .declare .. => rfl
  | .define _ _ _ value => by simp only [Stmt.mapExpr, hcomp]
  | .assign _ _ value => by simp only [Stmt.mapExpr, hcomp]
  | .branch test body otherwise => by
    simp only [Stmt.mapExpr, hcomp, Stmt.mapAll_comp hcomp body, Else.mapExpr_comp hcomp otherwise]
  | .loop test body => by simp only [Stmt.mapExpr, hcomp, Stmt.mapAll_comp hcomp body]

theorem Stmt.mapAll_comp (hcomp : ∀ e, f (g e) = h e) : ∀ ss : List Stmt,
    Stmt.mapAll f (Stmt.mapAll g ss) = Stmt.mapAll h ss
  | [] => rfl
  | s :: ss => by
    simp only [Stmt.mapAll, Stmt.mapExpr_comp hcomp s, Stmt.mapAll_comp hcomp ss]

theorem Else.mapExpr_comp (hcomp : ∀ e, f (g e) = h e) : ∀ otherwise : Else,
    (otherwise.mapExpr g).mapExpr f = otherwise.mapExpr h
  | .none => rfl
  | .block body => by simp only [Else.mapExpr, Stmt.mapAll_comp hcomp body]
  | .branch test body otherwise => by
    simp only [Else.mapExpr, hcomp, Stmt.mapAll_comp hcomp body, Else.mapExpr_comp hcomp otherwise]

end

mutual

theorem Stmt.canonical_mapExpr (hf : ∀ e, (f e).Canonical) : ∀ s : Stmt, (s.mapExpr f).Canonical
  | .expr value => hf value
  | .declare .. => trivial
  | .define _ _ _ value => hf value
  | .assign _ _ value => hf value
  | .branch test body otherwise =>
    ⟨hf test, Stmt.canonical_mapAll hf body, Else.canonical_mapExpr hf otherwise⟩
  | .loop test body => ⟨hf test, Stmt.canonical_mapAll hf body⟩

theorem Stmt.canonical_mapAll (hf : ∀ e, (f e).Canonical) : ∀ ss : List Stmt,
    Stmt.CanonicalAll (Stmt.mapAll f ss)
  | [] => trivial
  | s :: ss => ⟨Stmt.canonical_mapExpr hf s, Stmt.canonical_mapAll hf ss⟩

theorem Else.canonical_mapExpr (hf : ∀ e, (f e).Canonical) : ∀ otherwise : Else,
    (otherwise.mapExpr f).Canonical
  | .none => trivial
  | .block body => Stmt.canonical_mapAll hf body
  | .branch test body otherwise =>
    ⟨hf test, Stmt.canonical_mapAll hf body, Else.canonical_mapExpr hf otherwise⟩

end

end Map

namespace Register

/-- Groups leave no trace in the code. -/
theorem Direct.expr_enclosed (e : Expr) (n : Nat) : expr n e.enclosed = expr n e := by
  induction e generalizing n with
  | binary op l r ihl ihr => simp only [Expr.enclosed, expr, ihl, ihr]
  | unary op e ih => simp only [Expr.enclosed, expr, ih]
  | group e ih => simp only [Expr.enclosed, expr, ih]
  | _ => rfl

section Map

variable {f : Expr → Expr}

mutual

theorem Direct.stmt_mapExpr (hf : ∀ e n, expr n (f e) = expr n e) : ∀ (s : Stmt) (n base : Nat),
    stmt n base (s.mapExpr f) = stmt n base s
  | .expr value, n, base => by simp only [Stmt.mapExpr, stmt, hf]
  | .declare .., n, base => rfl
  | .define _ _ _ value, n, base => by simp only [Stmt.mapExpr, stmt, hf]
  | .assign _ _ value, n, base => by simp only [Stmt.mapExpr, stmt, Stmt.kindName]
  | .branch test body .none, n, base => by
    simp only [Stmt.mapExpr, Else.mapExpr, stmt, hf, Direct.block_mapAll hf body]
  | .branch test body (.block _), n, base => by simp only [Stmt.mapExpr, Else.mapExpr, stmt]
  | .branch test body (.branch ..), n, base => by simp only [Stmt.mapExpr, Else.mapExpr, stmt]
  | .loop test body, n, base => by
    simp only [Stmt.mapExpr, stmt, hf, Direct.block_mapAll hf body]

theorem Direct.block_mapAll (hf : ∀ e n, expr n (f e) = expr n e) :
    ∀ (ss : List Stmt) (n base : Nat), block n base (Stmt.mapAll f ss) = block n base ss
  | [], n, base => rfl
  | s :: ss, n, base => by
    simp only [Stmt.mapAll, block, Direct.stmt_mapExpr hf s, Direct.block_mapAll hf ss]

end

end Map

/-- Enclosing every operation in parentheses does not change what a program is lowered to. -/
theorem lower_enclosed (p : Program) : lower (Stmt.mapAll Expr.enclosed p) = lower p := by
  rw [lower_eq_block, lower_eq_block]
  exact Direct.block_mapAll Direct.expr_enclosed p 0 0

end Register

end MiniC
