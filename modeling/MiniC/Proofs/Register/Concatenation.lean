import MiniC.Proofs.Register.Patching

/-!
# Code of programs that follow one another

Jump targets are absolute, so the code of a program depends on the position where it begins. It
depends on nothing else that was built before: code that begins `k` positions later has every jump
target moved by `k`, and is otherwise the same, registers included.
-/

namespace MiniC.Register

set_option autoImplicit false

/-- The instruction with its jump target, if it has one, moved by `k`. -/
def Instr.moved (k : Nat) : Instr → Instr
  | .jump target => .jump (target + k)
  | .jumpFalse target => .jumpFalse (target + k)
  | instr => instr

theorem Instr.moved_of_not_jump {instr : Instr} (h : ¬ instr.IsJump) (k : Nat) :
    instr.moved k = instr := by
  cases instr with
  | jump | jumpFalse => exact absurd trivial h
  | _ => rfl

/-- A conditional jump and what it skips, behind code that does not jump. -/
theorem map_moved_skip {es : List Instr} {k : Nat} (hes : es.map (Instr.moved k) = es)
    (n base size past : Nat) (inner : List Instr) :
    (es ++ .loadReg ⟨n⟩ :: .jumpFalse (base + es.length + 2 + size + past) :: inner).map
        (Instr.moved k) =
      es ++ .loadReg ⟨n⟩ :: .jumpFalse (base + k + es.length + 2 + size + past) ::
        inner.map (Instr.moved k) := by
  have htarget : base + k + es.length + 2 + size + past =
      base + es.length + 2 + size + past + k := by omega
  simp only [List.map_append, List.map_cons, hes, Instr.moved, htarget]

namespace Direct

theorem map_moved_expr {e : Expr} {n : Nat} {code : List Instr} (h : expr n e = .ok code)
    (k : Nat) : code.map (Instr.moved k) = code := by
  have hid : ∀ instr ∈ code, instr.moved k = id instr := by
    intro instr hinstr
    exact Instr.moved_of_not_jump (expr_not_jump h instr hinstr) k
  rw [List.map_congr_left hid, List.map_id]

mutual

theorem stmt_moved (n base k : Nat) (s : Stmt) :
    stmt n (base + k) s = (stmt n base s).map (List.map (Instr.moved k)) := by
  cases s with
  | expr value =>
    rw [stmt, stmt]
    cases he : expr n value with
    | error e => rfl
    | ok es => exact congrArg Except.ok (map_moved_expr he k).symm
  | define isConst type name value =>
    rw [stmt, stmt]
    cases he : expr n value with
    | error e => rfl
    | ok es =>
      refine congrArg Except.ok ?_
      rw [List.map_append, map_moved_expr he k]
      rfl
  | declare isConst type name =>
    rw [stmt, stmt]
    rfl
  | assign op name value =>
    rw [stmt, stmt]
    rfl
  | branch test body otherwise =>
    cases otherwise with
    | none =>
      rw [stmt, stmt]
      cases he : expr n test with
      | error e => rfl
      | ok es =>
        have hstart : base + k + es.length + 2 = base + es.length + 2 + k := by omega
        have hbody := block_moved n (base + es.length + 2) k body
        rw [← hstart] at hbody
        simp only [bind, Except.bind, hbody]
        cases block n (base + es.length + 2) body with
        | error e => rfl
        | ok bs =>
          refine congrArg Except.ok ?_
          rw [map_moved_skip (map_moved_expr he k), List.length_map]
    | block | branch => simp [stmt, Except.map]
  | loop test body =>
    rw [stmt, stmt]
    cases he : expr n test with
    | error e => rfl
    | ok es =>
      have hstart : base + k + es.length + 2 = base + es.length + 2 + k := by omega
      have hbody := block_moved n (base + es.length + 2) k body
      rw [← hstart] at hbody
      simp only [bind, Except.bind, hbody]
      cases block n (base + es.length + 2) body with
      | error e => rfl
      | ok bs =>
        refine congrArg Except.ok ?_
        rw [map_moved_skip (map_moved_expr he k), List.length_map, List.map_append]
        rfl

theorem block_moved (n base k : Nat) (ss : List Stmt) :
    block n (base + k) ss = (block n base ss).map (List.map (Instr.moved k)) := by
  cases ss with
  | nil =>
    rw [block, block]
    rfl
  | cons s ss =>
    rw [block, block, stmt_moved n base k s]
    cases stmt n base s with
    | error e => rfl
    | ok cs =>
      have hstart : base + k + (cs.map (Instr.moved k)).length = base + cs.length + k := by
        rw [List.length_map]
        omega
      have hrest := block_moved n (base + cs.length) k ss
      rw [← hstart] at hrest
      simp only [bind, Except.bind, Except.map, hrest]
      cases block n (base + cs.length) ss with
      | error e => rfl
      | ok ds => exact congrArg Except.ok List.map_append.symm

end

/-- Statements that follow others begin behind their code. -/
theorem block_append (n base : Nat) (ss us : List Stmt) :
    block n base (ss ++ us) = (do
      let cs ← block n base ss
      let ds ← block n (base + cs.length) us
      return cs ++ ds) := by
  induction ss generalizing base with
  | nil =>
    simp only [List.nil_append, block, bind, Except.bind, List.length_nil, Nat.add_zero]
    cases block n base us <;> rfl
  | cons s ss ih =>
    rw [List.cons_append, block, block]
    cases stmt n base s with
    | error e => rfl
    | ok cs =>
      simp only [bind, Except.bind, ih]
      cases block n (base + cs.length) ss with
      | error e => rfl
      | ok ds =>
        simp only [pure, Except.pure, List.length_append, Nat.add_assoc]
        cases block n (base + (cs.length + ds.length)) us with
        | error e => rfl
        | ok fs => exact congrArg Except.ok (List.append_assoc cs ds fs).symm

end Direct

theorem lower_append_eq_bind (p q : Program) :
    lower (p ++ q) = (do
      let a ← lower p
      let b ← lower q
      return a ++ b.map (Instr.moved a.length)) := by
  simp only [lower_eq_block, Direct.block_append, Direct.block_moved]
  cases Direct.block 0 0 p with
  | error e => rfl
  | ok a => cases Direct.block 0 0 q <;> rfl

/-- The first failure of two programs that follow one another is that of the first program, or else
that of the second. If there is none, the code of the second program stands behind that of the
first, with its jump targets moved by the length of the first and nothing else changed. -/
theorem lower_append (p q : Program) :
    (∀ e, lower p = .error e → lower (p ++ q) = .error e) ∧
    (∀ a e, lower p = .ok a → lower q = .error e → lower (p ++ q) = .error e) ∧
    ∀ a b, lower p = .ok a → lower q = .ok b →
      lower (p ++ q) = .ok (a ++ b.map (Instr.moved a.length)) := by
  rw [lower_append_eq_bind]
  refine ⟨?_, ?_, ?_⟩
  · intro e hp
    rw [hp]
    rfl
  · intro a e hp hq
    rw [hp, hq]
    rfl
  · intro a b hp hq
    rw [hp, hq]
    rfl

/-- Behind one statement, every jump of a branch in a loop leads two positions farther. An
assignment has no code, on either side. -/
theorem lower_append_branchInLoop :
    lower [.expr (.int 1)] = .ok [.loadInt 1, .storeReg ⟨0⟩] ∧
    lower ([.expr (.int 1)] ++ branchInLoop) = .ok [.loadInt 1, .storeReg ⟨0⟩,
      .loadVar "x", .storeReg ⟨0⟩, .loadReg ⟨0⟩, .jumpFalse 14, .loadVar "y", .storeReg ⟨0⟩,
      .loadReg ⟨0⟩, .jumpFalse 13, .loadInt 1, .storeReg ⟨0⟩, .jump 2] ∧
    lower (branchInLoop ++ [.assign .assign "x" (.int 1)]) =
      .error (.unsupportedStatement "variable assignment") ∧
    lower ([.assign .assign "x" (.int 1)] ++ branchInLoop) =
      .error (.unsupportedStatement "variable assignment") := by
  have hone : lower [.expr (.int 1)] = .ok [.loadInt 1, .storeReg ⟨0⟩] := rfl
  have hloop : lower branchInLoop = .ok [.loadVar "x", .storeReg ⟨0⟩, .loadReg ⟨0⟩,
      .jumpFalse 12, .loadVar "y", .storeReg ⟨0⟩, .loadReg ⟨0⟩, .jumpFalse 11, .loadInt 1,
      .storeReg ⟨0⟩, .jump 0] := rfl
  have hassign : lower [.assign .assign "x" (.int 1)] =
      .error (.unsupportedStatement "variable assignment") := rfl
  refine ⟨hone, ?_, ?_, ?_⟩
  · exact (lower_append _ _).2.2 _ _ hone hloop
  · exact (lower_append _ _).2.1 _ _ hloop hassign
  · exact (lower_append _ _).1 _ hassign

end MiniC.Register
