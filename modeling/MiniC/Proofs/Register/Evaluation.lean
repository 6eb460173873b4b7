import MiniC.Proofs.Register.Machine
import MiniC.Proofs.Register.Patching

/-!
# Register code computes what programs mean

The value of an expression is computed operand by operand, from the left. The register code of an
expression leaves this value in the accumulator and in the lowest register that was free, or fails
as the evaluation does, and the code of a straight-line program changes the variables as the program
does.
-/

namespace MiniC.Register

set_option autoImplicit false

def stepOperator : StepOp → UnaryOp
  | .increment => .increment
  | .decrement => .decrement

theorem operator_ofStep (op : StepOp) : (Change.ofStep op).operator = stepOperator op := by
  cases op <;> rfl

inductive Straight where
  | expr (value : Expr)
  | define (isConst : Bool) (type name : String) (value : Expr)

def Straight.toStmt : Straight → Stmt
  | .expr value => .expr value
  | .define isConst type name value => .define isConst type name value

section Evaluation

variable {V E : Type} (m : Meaning V E)

namespace Meaning

/-- The value of an expression. A step denotes the value behind it, and does not change its
variable. -/
def eval (vars : String → Option V) : Expr → Except E V
  | .int n => m.int n
  | .float x => m.float x
  | .string text => m.string text
  | .name name => m.lookup vars name
  | .group inner => eval vars inner
  | .binary op left right => do
    let l ← eval vars left
    let r ← eval vars right
    m.binary op l r
  | .unary op operand => do
    let v ← eval vars operand
    m.unary op v
  | .step op name => do
    let v ← m.lookup vars name
    m.unary (stepOperator op) v

def exec (vars : String → Option V) : Straight → Except E (String → Option V)
  | .expr value => do
    let _ ← m.eval vars value
    return vars
  | .define _ _ name value => do
    let v ← m.eval vars value
    return Function.update vars name (some v)

def execAll (vars : String → Option V) (ss : List Straight) : Except E (String → Option V) :=
  ss.foldlM m.exec vars

end Meaning

/-- From `s`, `result` fails as `value` does, or leaves it in the accumulator and in register `n`
and changes neither a register below `n` nor a variable. -/
def Leaves (n : Nat) (s : Store V) : Except E V → Except E (Store V) → Prop
  | .error err, result => result = .error err
  | .ok v, result => ∃ regs, result = .ok ⟨v, regs, s.vars⟩ ∧ regs ⟨n⟩ = v ∧
    ∀ r : Reg, r.index < n → regs r = s.regs r

section Leaves

variable {n n' : Nat} {s s' : Store V} {value : Except E V}

theorem Leaves.bind {result : Except E (Store V)} {k : V → Except E V}
    {f : Store V → Except E (Store V)} (h : Leaves n s value result)
    (hk : ∀ v regs, regs ⟨n⟩ = v → (∀ r : Reg, r.index < n → regs r = s.regs r) →
      Leaves n' s' (k v) (f ⟨v, regs, s.vars⟩)) :
    Leaves n' s' (value >>= k) (result >>= f) := by
  cases value with
  | error err =>
    have hresult : result = .error err := h
    rw [hresult]
    rfl
  | ok v =>
    obtain ⟨regs, hresult, hv, hlow⟩ := h
    rw [hresult]
    exact hk v regs hv hlow

theorem leaves_store (hvars : s'.vars = s.vars)
    (hlow : ∀ r : Reg, r.index < n → s'.regs r = s.regs r) (value : Except E V) :
    Leaves n s value
      (value.map fun v => { s' with acc := v, regs := Function.update s'.regs ⟨n⟩ v }) := by
  cases value with
  | error err => rfl
  | ok v =>
    refine ⟨_, by rw [← hvars]; rfl, Function.update_self .., ?_⟩
    intro r hr
    have hne : r ≠ ⟨n⟩ := by
      rintro rfl
      exact Nat.lt_irrefl n hr
    rw [Function.update_of_ne hne, hlow r hr]

theorem leaves_load {instr : Instr} (n : Nat)
    (hload : instr.effect m s = value.map fun v => { s with acc := v }) :
    Leaves n s value (effects m [instr, .storeReg ⟨n⟩] s) := by
  have hstore := leaves_store (n := n) (s := s) rfl (fun _ _ => rfl) value
  rw [effects_cons, hload]
  cases value <;> exact hstore

theorem leaves_combine (arith : Arith) {l r : V} (hl : s'.regs ⟨n⟩ = l)
    (hr : s'.regs ⟨n + 1⟩ = r) (hvars : s'.vars = s.vars)
    (hlow : ∀ r : Reg, r.index < n → s'.regs r = s.regs r) :
    Leaves n s (m.binary arith.operator l r)
      (effects m [.loadReg ⟨n⟩, .arith arith ⟨n + 1⟩, .storeReg ⟨n⟩] s') := by
  subst hl hr
  have hstore := leaves_store hvars hlow (m.binary arith.operator (s'.regs ⟨n⟩) (s'.regs ⟨n + 1⟩))
  simp only [effects_cons, Instr.effect, bind, Except.bind]
  cases hv : m.binary arith.operator (s'.regs ⟨n⟩) (s'.regs ⟨n + 1⟩) <;> rw [hv] at hstore <;>
    exact hstore

theorem leaves_change (change : Change) {v : V} (hv : s'.regs ⟨n⟩ = v) (hvars : s'.vars = s.vars)
    (hlow : ∀ r : Reg, r.index < n → s'.regs r = s.regs r) :
    Leaves n s (m.unary change.operator v)
      (effects m [.loadReg ⟨n⟩, .change change, .storeReg ⟨n⟩] s') := by
  subst hv
  have hstore := leaves_store hvars hlow (m.unary change.operator (s'.regs ⟨n⟩))
  simp only [effects_cons, Instr.effect, bind, Except.bind]
  cases hv : m.unary change.operator (s'.regs ⟨n⟩) <;> rw [hv] at hstore <;> exact hstore

end Leaves

/-- The code of an expression leaves its value in the register for which it was made. -/
theorem leaves_expr {e : Expr} {n : Nat} {code : List Instr} (h : Direct.expr n e = .ok code)
    (s : Store V) : Leaves n s (m.eval s.vars e) (effects m code s) := by
  induction e generalizing n code s with
  | int value =>
    cases h
    exact leaves_load m n rfl
  | float value =>
    cases h
    exact leaves_load m n rfl
  | string value =>
    cases h
    exact leaves_load m n rfl
  | name name =>
    cases h
    exact leaves_load m n rfl
  | group inner ih => exact ih h s
  | binary op left right ihl ihr =>
    obtain ⟨arith, ls, rs, hop, hl, hr, rfl⟩ := Direct.expr_binary_eq_ok h
    rw [Arith.eq_operator_of_ofBinary? hop, Meaning.eval, List.append_assoc, effects_append]
    refine (ihl hl s).bind fun l regs₁ hl₁ hlow₁ => ?_
    rw [effects_append]
    refine (ihr hr ⟨l, regs₁, s.vars⟩).bind fun r regs₂ hr₂ hlow₂ => ?_
    have hl₂ : regs₂ ⟨n⟩ = l := (hlow₂ ⟨n⟩ (Nat.lt_succ_self n)).trans hl₁
    refine leaves_combine m arith hl₂ hr₂ rfl ?_
    intro reg hreg
    exact (hlow₂ reg (Nat.lt_succ_of_lt hreg)).trans (hlow₁ reg hreg)
  | unary op operand ih =>
    obtain ⟨es, he, rfl⟩ := Direct.expr_unary_eq_ok h
    rw [Meaning.eval, effects_append]
    refine (ih he s).bind fun v regs hv hlow => ?_
    have hchange : Leaves n s _ (effects m _ ⟨v, regs, s.vars⟩) :=
      leaves_change m (.ofUnary op) hv rfl hlow
    rw [Change.operator_ofUnary] at hchange
    exact hchange
  | step op name =>
    cases h
    have hload : Leaves n s (m.lookup s.vars name)
        (effects m [.loadVar name, .storeReg ⟨n⟩] s) := leaves_load m n rfl
    have hstep : Leaves n s (m.eval s.vars (.step op name))
        (effects m [.loadVar name, .storeReg ⟨n⟩] s >>=
          effects m [.loadReg ⟨n⟩, .change (.ofStep op), .storeReg ⟨n⟩]) := by
      refine hload.bind fun v regs hv hlow => ?_
      rw [← operator_ofStep op]
      exact leaves_change m (.ofStep op) hv rfl hlow
    rw [← effects_append] at hstep
    exact hstep

theorem Leaves.map_vars {n : Nat} {s : Store V} {value : Except E V}
    {result : Except E (Store V)} (h : Leaves n s value result) :
    result.map Store.vars = value.map fun _ => s.vars := by
  cases value with
  | error err =>
    have hresult : result = .error err := h
    rw [hresult]
    rfl
  | ok v =>
    obtain ⟨regs, hresult, _, _⟩ := h
    rw [hresult]
    rfl

/-- The code of a definition: the variable takes the value from the register that holds it. -/
theorem effects_define {e : Expr} {n : Nat} {es : List Instr} (h : Direct.expr n e = .ok es)
    (name : String) (s : Store V) :
    (effects m (es ++ [.loadReg ⟨n⟩, .storeVar name]) s).map Store.vars =
      (m.eval s.vars e).map fun v => Function.update s.vars name (some v) := by
  have hleaves := leaves_expr m h s
  rw [effects_append]
  cases hv : m.eval s.vars e with
  | error err =>
    rw [hv] at hleaves
    have heff : effects m es s = .error err := hleaves
    rw [heff]
    rfl
  | ok v =>
    rw [hv] at hleaves
    obtain ⟨regs, heff, hreg, _⟩ := hleaves
    rw [heff, ← hreg]
    rfl

theorem effects_straight {t : Straight} {n base : Nat} {code : List Instr}
    (h : Direct.stmt n base t.toStmt = .ok code) (s : Store V) :
    (∀ instr ∈ code, ¬ instr.IsJump) ∧ (effects m code s).map Store.vars = m.exec s.vars t := by
  cases t with
  | expr value =>
    rw [Straight.toStmt, Direct.stmt] at h
    exact ⟨Direct.expr_not_jump h, (leaves_expr m h s).map_vars⟩
  | define isConst type name value =>
    obtain ⟨es, he, rfl⟩ := Direct.stmt_define_eq_ok h
    refine ⟨?_, effects_define m he name s⟩
    intro instr hm
    simp only [List.mem_append, List.mem_cons, List.not_mem_nil, or_false] at hm
    rcases hm with hm | rfl | rfl
    · exact Direct.expr_not_jump he instr hm
    all_goals exact id

theorem effects_straightLine {ts : List Straight} {n base : Nat} {code : List Instr}
    (h : Direct.block n base (ts.map Straight.toStmt) = .ok code) (s : Store V) :
    (∀ instr ∈ code, ¬ instr.IsJump) ∧
      (effects m code s).map Store.vars = m.execAll s.vars ts := by
  induction ts generalizing base code s with
  | nil =>
    rw [List.map_nil, Direct.block] at h
    cases h
    exact ⟨by simp, rfl⟩
  | cons t ts ih =>
    obtain ⟨cs, ds, hc, hd, rfl⟩ := Direct.block_cons_eq_ok h
    obtain ⟨hcs, heff⟩ := effects_straight m hc s
    refine ⟨?_, ?_⟩
    · intro instr hm
      rcases List.mem_append.mp hm with hm | hm
      · exact hcs instr hm
      · exact (ih hd s).1 instr hm
    · rw [Meaning.execAll, List.foldlM_cons, ← heff, effects_append]
      cases effects m cs s with
      | error err => rfl
      | ok s' => exact (ih hd s').2

end Evaluation

/-- Register code keeps the meaning of what it was made from. Executed anywhere, the instructions
that an accepted expression appends fail as its evaluation does, or leave its value in the
accumulator and in the lowest free register, and change neither a register in use nor a variable.
The code of a straight-line program runs to its end with the variables of the program, or fails as
the program does. -/
theorem run_eq_eval {V E : Type} (m : Meaning V E) :
    (∀ (e : Expr) (b b' : Builder) (r : Reg), (Build.expr e).run b = .ok r b' →
      ∃ code, b'.code.toList = b.code.toList ++ code ∧ r = ⟨b.allocator.inUse⟩ ∧
        ∀ (front rest : List Instr) (s : Store V),
          (∀ err, m.eval s.vars e = .error err →
            run m (front ++ code ++ rest) code.length ⟨front.length, s⟩ = .error err) ∧
          ∀ v, m.eval s.vars e = .ok v → ∃ regs,
            run m (front ++ code ++ rest) code.length ⟨front.length, s⟩ =
              .ok ⟨front.length + code.length, ⟨v, regs, s.vars⟩⟩ ∧
            regs r = v ∧ ∀ r' : Reg, r'.index < b.allocator.inUse → regs r' = s.regs r') ∧
    ∀ (ts : List Straight) (code : List Instr), lower (ts.map Straight.toStmt) = .ok code →
      ∀ s : Store V, (run m code code.length ⟨0, s⟩).map (fun c => (c.pc, c.store.vars)) =
        (m.execAll s.vars ts).map fun vars => (code.length, vars) := by
  constructor
  · intro e b b' r hrun
    obtain ⟨code, hdirect, rfl, hcode⟩ := Build.direct_of_run_expr hrun
    refine ⟨code, hcode, rfl, ?_⟩
    intro front rest s
    have hleaves := leaves_expr m hdirect s
    rw [run_eq_effects m (Direct.expr_not_jump hdirect)]
    constructor
    · intro err hev
      rw [hev] at hleaves
      have heff : effects m code s = .error err := hleaves
      rw [heff]
      rfl
    · intro v hev
      rw [hev] at hleaves
      obtain ⟨regs, heff, hreg, hlow⟩ := hleaves
      exact ⟨regs, by rw [heff]; rfl, hreg, hlow⟩
  · intro ts code hlower s
    rw [lower_eq_block] at hlower
    obtain ⟨hjump, heff⟩ := effects_straightLine m hlower s
    have hrun := run_eq_effects m hjump [] [] s
    simp only [List.nil_append, List.append_nil, List.length_nil, Nat.zero_add] at hrun
    rw [hrun, ← heff]
    cases effects m code s <;> rfl

/-- Whole numbers; there are no fractions and texts, and no division by zero. -/
def wholeNumbers : Meaning Int String where
  int n := .ok n.toInt
  float _ := .error "fraction"
  string _ := .error "text"
  binary
    | .add, a, b => .ok (a + b)
    | .subtract, a, b => .ok (a - b)
    | .multiply, a, b => .ok (a * b)
    | .divide, a, b => if b = 0 then .error "division by zero" else .ok (a.tdiv b)
    | .modulo, a, b => if b = 0 then .error "division by zero" else .ok (a.tmod b)
    | _, _, _ => .error "comparison"
  unary
    | .arithmeticNegate, a => .ok (-a)
    | .logicalNegate, a => .ok (if a = 0 then 1 else 0)
    | .increment, a => .ok (a + 1)
    | .decrement, a => .ok (a - 1)
  unbound name := name
  isFalse a := a = 0

/-- A store in which the variable `x` has the value 4, and register 0 holds 9. -/
def fourAndNine : Store Int :=
  ⟨0, fun r => if r = ⟨0⟩ then 9 else 0, fun name => if name = "x" then some 4 else none⟩

/-- The difference of 7 and twice the value behind a step of `x`. -/
def difference : Expr :=
  .binary .subtract (.int 7) (.group (.binary .multiply (.step .increment "x") (.int 2)))

/-- The difference, and then the quotient of it and zero. -/
def quotient : List Straight :=
  [.define false "int" "y" difference, .expr (.binary .divide (.name "y") (.int 0))]

/-- The difference is computed while register 0 is in use, and the quotient fails. -/
theorem run_difference :
    (∃ b code regs, (Build.expr difference).run ⟨⟨1⟩, #[], #[]⟩ = .ok ⟨1⟩ b ∧
      b.code.toList = code ∧
      run wholeNumbers code code.length ⟨0, fourAndNine⟩ =
        .ok ⟨code.length, ⟨-3, regs, fourAndNine.vars⟩⟩ ∧
      regs ⟨1⟩ = -3 ∧ regs ⟨0⟩ = 9) ∧
    ∃ code, lower (quotient.map Straight.toStmt) = .ok code ∧
      (run wholeNumbers code code.length ⟨0, fourAndNine⟩).map
        (fun c => (c.pc, c.store.vars)) = .error "division by zero" := by
  have heval : wholeNumbers.eval fourAndNine.vars difference = .ok (-3) := by
    simp [difference, Meaning.eval, wholeNumbers, Meaning.lookup, fourAndNine, stepOperator, bind,
      Except.bind]
  constructor
  · obtain ⟨code, hcode, _, hrun⟩ :=
      (run_eq_eval wholeNumbers).1 difference ⟨⟨1⟩, #[], #[]⟩ _ _ rfl
    obtain ⟨regs, hok, hreg, hlow⟩ := (hrun [] [] fourAndNine).2 (-3) heval
    simp only [List.nil_append, List.append_nil, List.length_nil, Nat.zero_add] at hok hcode
    exact ⟨_, code, regs, rfl, hcode, hok, hreg, hlow ⟨0⟩ Nat.one_pos⟩
  · have hexec : wholeNumbers.execAll fourAndNine.vars quotient = .error "division by zero" := by
      simp only [quotient, Meaning.execAll, List.foldlM_cons, Meaning.exec, heval]
      simp [Meaning.eval, Meaning.lookup, wholeNumbers, bind, Except.bind, pure, Except.pure]
    have hlower : ∃ code, lower (quotient.map Straight.toStmt) = .ok code := by
      simp only [lower_eq_block, quotient, List.map_cons, List.map_nil, Straight.toStmt,
        Direct.block, Direct.stmt]
      exact ⟨_, rfl⟩
    obtain ⟨code, hcode⟩ := hlower
    refine ⟨code, hcode, ?_⟩
    rw [(run_eq_eval wholeNumbers).2 quotient code hcode fourAndNine, hexec]
    rfl

end MiniC.Register
