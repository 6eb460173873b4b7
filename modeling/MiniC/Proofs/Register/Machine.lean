import Mathlib.Logic.Function.Basic
import MiniC.Proofs.Register.Direct

/-!
# The register machine

The machine has an accumulator, numbered registers and named variables, and executes one instruction
at a time. Its values, and what the operations do with them, are parameters; an operation may fail.
Code without jumps is executed in as many steps as it has instructions (`run_eq_effects`).
-/

namespace MiniC.Register

set_option autoImplicit false

structure Meaning (V E : Type) where
  int : Int64 → Except E V
  float : Float → Except E V
  string : String → Except E V
  binary : BinaryOp → V → V → Except E V
  unary : UnaryOp → V → Except E V
  unbound : String → E
  isFalse : V → Bool

def Meaning.lookup {V E : Type} (m : Meaning V E) (vars : String → Option V) (name : String) :
    Except E V :=
  match vars name with
  | some v => .ok v
  | none => .error (m.unbound name)

def Arith.operator : Arith → BinaryOp
  | .add => .add
  | .sub => .subtract
  | .mul => .multiply
  | .div => .divide
  | .mod => .modulo

theorem Arith.eq_operator_of_ofBinary? {op : BinaryOp} {arith : Arith}
    (h : Arith.ofBinary? op = some arith) : op = arith.operator := by
  cases op <;> cases h <;> rfl

def Change.operator : Change → UnaryOp
  | .negate => .arithmeticNegate
  | .logicalNegate => .logicalNegate
  | .increment => .increment
  | .decrement => .decrement

@[simp] theorem Change.operator_ofUnary (op : UnaryOp) : (Change.ofUnary op).operator = op := by
  cases op <;> rfl

structure Store (V : Type) where
  acc : V
  regs : Reg → V
  vars : String → Option V

structure Config (V : Type) where
  pc : Nat
  store : Store V

section Execution

variable {V E : Type} (m : Meaning V E)

def Instr.effect (s : Store V) : Instr → Except E (Store V)
  | .loadReg r => .ok { s with acc := s.regs r }
  | .storeReg r => .ok { s with regs := Function.update s.regs r s.acc }
  | .loadInt n => do return { s with acc := ← m.int n }
  | .loadFloat x => do return { s with acc := ← m.float x }
  | .loadString text => do return { s with acc := ← m.string text }
  | .loadVar name => do return { s with acc := ← m.lookup s.vars name }
  | .arith op r => do return { s with acc := ← m.binary op.operator s.acc (s.regs r) }
  | .change op => do return { s with acc := ← m.unary op.operator s.acc }
  | .storeVar name => .ok { s with vars := Function.update s.vars name (some s.acc) }
  | .jump _ | .jumpFalse _ => .ok s

def Instr.next (s : Store V) (pc : Nat) : Instr → Nat
  | .jump target => target
  | .jumpFalse target => if m.isFalse s.acc then target else pc + 1
  | _ => pc + 1

/-- Executes one instruction. Outside the code nothing happens any more. -/
def step (code : List Instr) (c : Config V) : Except E (Config V) :=
  match code[c.pc]? with
  | none => .ok c
  | some instr => do
    let store ← instr.effect m c.store
    return ⟨instr.next m c.store c.pc, store⟩

def run (code : List Instr) : Nat → Config V → Except E (Config V)
  | 0, c => .ok c
  | k + 1, c => do
    let c' ← step m code c
    run code k c'

def effects (code : List Instr) (s : Store V) : Except E (Store V) :=
  code.foldlM (fun s instr => instr.effect m s) s

theorem effects_cons (instr : Instr) (code : List Instr) (s : Store V) :
    effects m (instr :: code) s = instr.effect m s >>= effects m code :=
  List.foldlM_cons

theorem effects_append (cs ds : List Instr) (s : Store V) :
    effects m (cs ++ ds) s = effects m cs s >>= effects m ds :=
  List.foldlM_append

theorem step_of_not_jump {code : List Instr} {pc : Nat} {instr : Instr}
    (hget : code[pc]? = some instr) (hj : ¬ instr.IsJump) (s : Store V) :
    step m code ⟨pc, s⟩ = (instr.effect m s).map (Config.mk (pc + 1)) := by
  rw [step, hget]
  cases instr with
  | jump target => exact absurd trivial hj
  | jumpFalse target => exact absurd trivial hj
  | _ => rfl

/-- Wherever it stands, code without jumps is executed instruction by instruction to its end. -/
theorem run_eq_effects {code : List Instr} (hj : ∀ instr ∈ code, ¬ instr.IsJump)
    (front rest : List Instr) (s : Store V) :
    run m (front ++ code ++ rest) code.length ⟨front.length, s⟩ =
      (effects m code s).map (Config.mk (front.length + code.length)) := by
  induction code generalizing front s with
  | nil => rfl
  | cons instr code ih =>
    have hget : (front ++ instr :: code ++ rest)[front.length]? = some instr := by simp
    rw [List.length_cons, run, effects_cons, step_of_not_jump m hget (hj _ List.mem_cons_self)]
    cases instr.effect m s with
    | error err => rfl
    | ok s' =>
      have hcode : front ++ instr :: code ++ rest = front ++ [instr] ++ code ++ rest := by simp
      have hpc : (front ++ [instr]).length = front.length + 1 := by simp
      have hlen : front.length + (code.length + 1) = (front ++ [instr]).length + code.length := by
        omega
      rw [hcode, hlen, ← hpc]
      exact ih (fun i hi => hj i (List.mem_cons_of_mem _ hi)) (front ++ [instr]) s'

end Execution

end MiniC.Register
