import MiniC.Register.Instr
import MiniC.Syntax.Basic

/-!
# From programs to register code

Registers are handed out as a stack: the next one has the number of registers in use, and giving one
back frees the highest. Each expression leaves its value in the lowest register that was free before
it. A conditional jump is written before its target is known, and gets the target when the code it
skips is complete.
-/

namespace MiniC.Register

set_option autoImplicit false

structure Allocator where
  inUse : Nat
  deriving DecidableEq, Repr

/-- A register was given back that is not in use. -/
structure NotAllocated where
  reg : Reg
  deriving DecidableEq, Repr

def NotAllocated.message (e : NotAllocated) : String :=
  s!"released {e.reg.display} which is not allocated"

namespace Allocator

def empty : Allocator :=
  ⟨0⟩

/-- Takes the lowest free register. -/
def alloc (a : Allocator) : Reg × Allocator :=
  (⟨a.inUse⟩, ⟨a.inUse + 1⟩)

def release (a : Allocator) (r : Reg) : Except NotAllocated Allocator :=
  if r.index < a.inUse then .ok ⟨a.inUse - 1⟩ else .error ⟨r⟩

end Allocator

inductive LoweringError where
  | unsupportedStatement (kindName : String)
  | unsupportedElse
  | unsupportedOperator (op : BinaryOp)
  | notAllocated (e : NotAllocated)
  deriving DecidableEq, Repr

def LoweringError.message : LoweringError → String
  | .unsupportedStatement kindName =>
    s!"Statement kind '{kindName}' is not supported by the bytecode generator"
  | .unsupportedElse => "Else branches are not supported by the bytecode generator"
  | .unsupportedOperator op => s!"Operator {op.name} has no register instruction"
  | .notAllocated e => e.message

/-- What happens while code is built, apart from the instructions. -/
inductive Event where
  | allocated (r : Reg)
  | released (r : Reg)
  | patched (jump target : Nat)
  deriving DecidableEq, Repr

def Event.message? : Event → Option Message
  | .patched jump target => some ⟨.debug, s!"patched jump at {jump} -> {target}"⟩
  | _ => none

/-- The code built so far, the registers in use, and the events in order. -/
structure Builder where
  allocator : Allocator
  code : Array Instr
  events : Array Event

def Builder.empty : Builder :=
  ⟨.empty, #[], #[]⟩

/-- Steps that build code. What was built before a failure is kept. -/
abbrev Build := EStateM LoweringError Builder

namespace Build

def record (event : Event) : Build Unit :=
  modify fun b => { b with events := b.events.push event }

def alloc : Build Reg := do
  let (r, allocator) := (← get).allocator.alloc
  modify fun b => { b with allocator }
  record (.allocated r)
  return r

def release (r : Reg) : Build Unit := do
  match (← get).allocator.release r with
  | .ok allocator =>
    modify fun b => { b with allocator }
    record (.released r)
  | .error e => throw (.notAllocated e)

def here : Build Nat :=
  return (← get).code.size

def emit (instr : Instr) : Build Unit :=
  modify fun b => { b with code := b.code.push instr }

/-- Lets the jump at position `jump` lead one instruction past the code built so far. -/
def patchPastEnd (jump : Nat) : Build Unit := do
  let target := (← here) + 1
  modify fun b => { b with
    code := b.code.modify jump fun instr => (instr.retarget? target).getD instr }
  record (.patched jump target)

section Run

variable {α β : Type} (b : Builder)

@[simp] theorem run_pure (a : α) : (pure a : Build α).run b = .ok a b := rfl

@[simp] theorem run_throw (e : LoweringError) : (throw e : Build α).run b = .error e b := rfl

@[simp] theorem run_bind (x : Build α) (f : α → Build β) :
    (x >>= f).run b = match x.run b with
      | .ok a b => (f a).run b
      | .error e b => .error e b := by
  simp only [EStateM.run, bind, EStateM.bind]
  split <;> simp_all

@[simp] theorem run_here : here.run b = .ok b.code.size b := rfl

@[simp] theorem run_emit (instr : Instr) :
    (emit instr).run b = .ok () { b with code := b.code.push instr } := rfl

@[simp] theorem run_alloc :
    alloc.run b = .ok b.allocator.alloc.1
      { b with
        allocator := b.allocator.alloc.2
        events := b.events.push (.allocated b.allocator.alloc.1) } := rfl

theorem run_release (r : Reg) :
    (release r).run b = if r.index < b.allocator.inUse then
      .ok () { b with
        allocator := ⟨b.allocator.inUse - 1⟩
        events := b.events.push (.released r) }
    else .error (.notAllocated ⟨r⟩) b := by
  have hget : (get : Build Builder).run b = .ok b b := rfl
  by_cases h : r.index < b.allocator.inUse
  · simp only [release, run_bind, hget, Allocator.release, h, if_true]
    rfl
  · simp only [release, run_bind, hget, Allocator.release, h, if_false, run_throw]

@[simp] theorem run_patchPastEnd (jump : Nat) :
    (patchPastEnd jump).run b = .ok () { b with
      code := b.code.modify jump fun instr => (instr.retarget? (b.code.size + 1)).getD instr
      events := b.events.push (.patched jump (b.code.size + 1)) } := rfl

end Run

/-- Loads a value into a register of its own. -/
def load (instr : Instr) : Build Reg := do
  let r ← alloc
  emit instr
  emit (.storeReg r)
  return r

/-- The code of an expression, and the register that holds its value. -/
def expr : Expr → Build Reg
  | .int n => load (.loadInt n)
  | .float x => load (.loadFloat x)
  | .string s => load (.loadString s)
  | .name s => load (.loadVar s)
  | .group inner => expr inner
  | .binary op left right =>
    match Arith.ofBinary? op with
    | none => throw (.unsupportedOperator op)
    | some arith => do
      let l ← expr left
      let r ← expr right
      emit (.loadReg l)
      emit (.arith arith r)
      release r
      release l
      let result ← alloc
      emit (.storeReg result)
      return result
  | .unary op operand => do
    let r ← expr operand
    emit (.loadReg r)
    emit (.change (.ofUnary op))
    emit (.storeReg r)
    return r
  | .step op name => do
    emit (.loadVar name)
    let r ← alloc
    emit (.storeReg r)
    emit (.loadReg r)
    emit (.change (.ofStep op))
    emit (.storeReg r)
    return r

/-- The code of a condition; it leaves the value in the accumulator. -/
def condition (e : Expr) : Build Unit := do
  let r ← expr e
  emit (.loadReg r)
  release r

/-- Appends a conditional jump without a target, and says where it stands. -/
def openJump : Build Nat := do
  let jump ← here
  emit (.jumpFalse 0)
  return jump

mutual

def stmt : Stmt → Build Unit
  | .expr value => do
    let r ← expr value
    release r
  | .define _ _ name value => do
    let r ← expr value
    emit (.loadReg r)
    emit (.storeVar name)
    release r
  | .declare isConst type name =>
    throw (.unsupportedStatement (Stmt.declare isConst type name).kindName)
  | .assign op name value =>
    throw (.unsupportedStatement (Stmt.assign op name value).kindName)
  | .branch test body .none => do
    condition test
    let jump ← openJump
    block body
    patchPastEnd jump
  | .branch _ _ _ => throw .unsupportedElse
  | .loop test body => do
    let start ← here
    condition test
    let jump ← openJump
    block body
    emit (.jump start)
    patchPastEnd jump

def block : List Stmt → Build Unit
  | [] => return
  | s :: ss => do
    stmt s
    block ss

end

end Build

def lower (p : Program) : Except LoweringError (List Instr) :=
  match (Build.block p).run .empty with
  | .ok _ b => .ok b.code.toList
  | .error e _ => .error e

def lowerMessages (p : Program) : List Message :=
  match (Build.block p).run .empty with
  | .ok _ b => b.events.toList.filterMap Event.message?
  | .error _ b => b.events.toList.filterMap Event.message?

end MiniC.Register
