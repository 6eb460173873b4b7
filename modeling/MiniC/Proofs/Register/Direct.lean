import MiniC.Proofs.Sequence
import MiniC.Register.Lowering

/-!
# Register code without patching

The direct compiler computes the code of a program from the position where it begins: jump targets
come from the lengths of the parts, and registers from the nesting of expressions. Its expression
code never jumps, and its conditional jumps all lead forward.
-/

namespace MiniC.Register

set_option autoImplicit false

/-- Instructions after which control need not go on to the next one. -/
def Instr.IsJump : Instr → Prop
  | .jump _ | .jumpFalse _ => True
  | _ => False

namespace Direct

/-- The code of an expression that leaves its value in register `n`. -/
def expr (n : Nat) : Expr → Except LoweringError (List Instr)
  | .int value => .ok [.loadInt value, .storeReg ⟨n⟩]
  | .float value => .ok [.loadFloat value, .storeReg ⟨n⟩]
  | .string value => .ok [.loadString value, .storeReg ⟨n⟩]
  | .name name => .ok [.loadVar name, .storeReg ⟨n⟩]
  | .group inner => expr n inner
  | .binary op left right =>
    match Arith.ofBinary? op with
    | none => .error (.unsupportedOperator op)
    | some arith => do
      let ls ← expr n left
      let rs ← expr (n + 1) right
      return ls ++ rs ++ [.loadReg ⟨n⟩, .arith arith ⟨n + 1⟩, .storeReg ⟨n⟩]
  | .unary op operand => do
    let es ← expr n operand
    return es ++ [.loadReg ⟨n⟩, .change (.ofUnary op), .storeReg ⟨n⟩]
  | .step op name =>
    .ok [.loadVar name, .storeReg ⟨n⟩, .loadReg ⟨n⟩, .change (.ofStep op), .storeReg ⟨n⟩]

mutual

/-- The code of a statement that begins at position `base`, with registers from `n` on. A
conditional jump leads one instruction past the code that it skips. -/
def stmt (n base : Nat) : Stmt → Except LoweringError (List Instr)
  | .expr value => expr n value
  | .define _ _ name value => do
    let es ← expr n value
    return es ++ [.loadReg ⟨n⟩, .storeVar name]
  | .declare isConst type name =>
    .error (.unsupportedStatement (Stmt.declare isConst type name).kindName)
  | .assign op name value =>
    .error (.unsupportedStatement (Stmt.assign op name value).kindName)
  | .branch test body .none => do
    let es ← expr n test
    let bs ← block n (base + es.length + 2) body
    return es ++ .loadReg ⟨n⟩ :: .jumpFalse (base + es.length + 2 + bs.length + 1) :: bs
  | .branch _ _ _ => .error .unsupportedElse
  | .loop test body => do
    let es ← expr n test
    let bs ← block n (base + es.length + 2) body
    return es ++ .loadReg ⟨n⟩ :: .jumpFalse (base + es.length + 2 + bs.length + 2) ::
      (bs ++ [.jump base])

def block (n base : Nat) : List Stmt → Except LoweringError (List Instr)
  | [] => .ok []
  | s :: ss => do
    let cs ← stmt n base s
    let ds ← block n (base + cs.length) ss
    return cs ++ ds

end

section Parts

variable {n base : Nat} {code : List Instr}

theorem expr_binary_eq_ok {op : BinaryOp} {left right : Expr}
    (h : expr n (.binary op left right) = .ok code) :
    ∃ arith ls rs, Arith.ofBinary? op = some arith ∧ expr n left = .ok ls ∧
      expr (n + 1) right = .ok rs ∧
      code = ls ++ rs ++ [.loadReg ⟨n⟩, .arith arith ⟨n + 1⟩, .storeReg ⟨n⟩] := by
  rw [expr] at h
  cases hop : Arith.ofBinary? op with
  | none =>
    rw [hop] at h
    cases h
  | some arith =>
    simp only [hop] at h
    obtain ⟨ls, hl, h₁⟩ := bind_eq_ok_iff.mp h
    obtain ⟨rs, hr, h₂⟩ := bind_eq_ok_iff.mp h₁
    cases h₂
    exact ⟨arith, ls, rs, rfl, hl, hr, rfl⟩

theorem expr_unary_eq_ok {op : UnaryOp} {operand : Expr}
    (h : expr n (.unary op operand) = .ok code) :
    ∃ es, expr n operand = .ok es ∧
      code = es ++ [.loadReg ⟨n⟩, .change (.ofUnary op), .storeReg ⟨n⟩] := by
  rw [expr] at h
  obtain ⟨es, he, h₁⟩ := bind_eq_ok_iff.mp h
  cases h₁
  exact ⟨es, he, rfl⟩

theorem stmt_define_eq_ok {isConst : Bool} {type name : String} {value : Expr}
    (h : stmt n base (.define isConst type name value) = .ok code) :
    ∃ es, expr n value = .ok es ∧ code = es ++ [.loadReg ⟨n⟩, .storeVar name] := by
  rw [stmt] at h
  obtain ⟨es, he, h₁⟩ := bind_eq_ok_iff.mp h
  cases h₁
  exact ⟨es, he, rfl⟩

theorem stmt_branch_eq_ok {test : Expr} {body : List Stmt} {otherwise : Else}
    (h : stmt n base (.branch test body otherwise) = .ok code) :
    otherwise = .none ∧ ∃ es bs, expr n test = .ok es ∧
      block n (base + es.length + 2) body = .ok bs ∧
      code = es ++ .loadReg ⟨n⟩ :: .jumpFalse (base + es.length + 2 + bs.length + 1) :: bs := by
  cases otherwise with
  | none =>
    rw [stmt] at h
    obtain ⟨es, he, h₁⟩ := bind_eq_ok_iff.mp h
    obtain ⟨bs, hb, h₂⟩ := bind_eq_ok_iff.mp h₁
    cases h₂
    exact ⟨rfl, es, bs, he, hb, rfl⟩
  | block => simp [stmt] at h
  | branch => simp [stmt] at h

theorem stmt_loop_eq_ok {test : Expr} {body : List Stmt}
    (h : stmt n base (.loop test body) = .ok code) :
    ∃ es bs, expr n test = .ok es ∧ block n (base + es.length + 2) body = .ok bs ∧
      code = es ++ .loadReg ⟨n⟩ :: .jumpFalse (base + es.length + 2 + bs.length + 2) ::
        (bs ++ [.jump base]) := by
  rw [stmt] at h
  obtain ⟨es, he, h₁⟩ := bind_eq_ok_iff.mp h
  obtain ⟨bs, hb, h₂⟩ := bind_eq_ok_iff.mp h₁
  cases h₂
  exact ⟨es, bs, he, hb, rfl⟩

theorem block_cons_eq_ok {s : Stmt} {ss : List Stmt} (h : block n base (s :: ss) = .ok code) :
    ∃ cs ds, stmt n base s = .ok cs ∧ block n (base + cs.length) ss = .ok ds ∧
      code = cs ++ ds := by
  rw [block] at h
  obtain ⟨cs, hc, h₁⟩ := bind_eq_ok_iff.mp h
  obtain ⟨ds, hd, h₂⟩ := bind_eq_ok_iff.mp h₁
  cases h₂
  exact ⟨cs, ds, hc, hd, rfl⟩

end Parts

theorem expr_not_jump {e : Expr} {n : Nat} {code : List Instr} (h : expr n e = .ok code) :
    ∀ instr ∈ code, ¬ instr.IsJump := by
  induction e generalizing n code with
  | int | float | string | name | step =>
    cases h
    simp [Instr.IsJump]
  | group inner ih => exact ih h
  | binary op left right ihl ihr =>
    obtain ⟨arith, ls, rs, _, hl, hr, rfl⟩ := expr_binary_eq_ok h
    intro instr hm
    simp only [List.mem_append, List.mem_cons, List.not_mem_nil, or_false] at hm
    rcases hm with (hm | hm) | rfl | rfl | rfl
    · exact ihl hl instr hm
    · exact ihr hr instr hm
    all_goals exact id
  | unary op operand ih =>
    obtain ⟨es, he, rfl⟩ := expr_unary_eq_ok h
    intro instr hm
    simp only [List.mem_append, List.mem_cons, List.not_mem_nil, or_false] at hm
    rcases hm with hm | rfl | rfl | rfl
    · exact ih he instr hm
    all_goals exact id

theorem expr_no_target {e : Expr} {n : Nat} {code : List Instr} (h : expr n e = .ok code)
    (target : Nat) : .jumpFalse target ∉ code :=
  fun hm => expr_not_jump h _ hm trivial

mutual

/-- Every conditional jump of a statement leads past the position where the statement begins. -/
theorem stmt_targets {s : Stmt} {n base : Nat} {code : List Instr}
    (h : stmt n base s = .ok code) : ∀ target, .jumpFalse target ∈ code → base < target := by
  intro target hm
  cases s with
  | expr value =>
    rw [stmt] at h
    exact absurd hm (expr_no_target h target)
  | define isConst type name value =>
    obtain ⟨es, he, rfl⟩ := stmt_define_eq_ok h
    have hes := expr_no_target he target
    simp [hes] at hm
  | declare isConst type name =>
    rw [stmt] at h
    cases h
  | assign op name value =>
    rw [stmt] at h
    cases h
  | branch test body otherwise =>
    obtain ⟨_, es, bs, he, hb, rfl⟩ := stmt_branch_eq_ok h
    simp only [List.mem_append, List.mem_cons, reduceCtorEq, Instr.jumpFalse.injEq,
      false_or] at hm
    rcases hm with hm | hm | hm
    · exact absurd hm (expr_no_target he target)
    · omega
    · have hlt := block_targets hb target hm
      omega
  | loop test body =>
    obtain ⟨es, bs, he, hb, rfl⟩ := stmt_loop_eq_ok h
    simp only [List.mem_append, List.mem_cons, List.not_mem_nil, reduceCtorEq,
      Instr.jumpFalse.injEq, false_or, or_false] at hm
    rcases hm with hm | hm | hm
    · exact absurd hm (expr_no_target he target)
    · omega
    · have hlt := block_targets hb target hm
      omega

theorem block_targets {ss : List Stmt} {n base : Nat} {code : List Instr}
    (h : block n base ss = .ok code) : ∀ target, .jumpFalse target ∈ code → base < target := by
  intro target hm
  cases ss with
  | nil =>
    rw [block] at h
    cases h
    simp at hm
  | cons s ss =>
    obtain ⟨cs, ds, hc, hd, rfl⟩ := block_cons_eq_ok h
    rcases List.mem_append.mp hm with hm | hm
    · exact stmt_targets hc target hm
    · have hlt := block_targets hd target hm
      omega

end

end Direct

end MiniC.Register
