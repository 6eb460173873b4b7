import MiniC.Proofs.Stack.Calls

/-!
# Faults of the stack machine

Which fault a failing call gives, and what it leaves behind. An instruction takes its operands from
the stack before it looks at them, so they are gone when it fails; a conditional jump uses up the
flag before its target is refused. Nothing else is lost: the machine can be called again at the same
place.
-/

namespace MiniC.Stack

set_option autoImplicit false

def Instr.arity : Instr → Nat
  | .assign _ | .negate | .ret => 1
  | .arith _ | .compare _ => 2
  | .constant _ | .load _ | .jump _ | .jumpIfFalse _ | .eof => 0

/-- The operation of an instruction has no result on the values on top of the stack. The left one of
two operands was pushed first. -/
inductive Instr.Refuses : Instr → List Value → ValueError → Prop
  | negate {value : Value} {stack : List Value} {e : ValueError} (h : value.negate = .error e) :
    Refuses .negate (value :: stack) e
  | arith {op : Arith} {left right : Value} {stack : List Value} {e : ValueError}
    (h : left.arith op right = .error e) : Refuses (.arith op) (right :: left :: stack) e
  | compare {c : Comparison} {left right : Value} {stack : List Value} {e : ValueError}
    (h : left.compare c right = .error e) : Refuses (.compare c) (right :: left :: stack) e

namespace Instr.Refuses

variable {instr : Instr} {stack : List Value} {e e' : ValueError}

theorem arity_le (h : instr.Refuses stack e) : instr.arity ≤ stack.length := by
  cases h <;> simp [arity]

theorem unique (h : instr.Refuses stack e) (h' : instr.Refuses stack e') : e = e' := by
  cases h with
  | negate h =>
    cases h' with
    | negate h' => exact Except.error.inj (h.symm.trans h')
  | arith h =>
    cases h' with
    | arith h' => exact Except.error.inj (h.symm.trans h')
  | compare h =>
    cases h' with
    | compare h' => exact Except.error.inj (h.symm.trans h')

end Instr.Refuses

namespace Frame

inductive Faults (f : Frame) : Instr → Fault → Prop
  | underflow {instr : Instr} (h : f.stack.length < instr.arity) : Faults f instr .stackUnderflow
  | refused {instr : Instr} {e : ValueError} (h : instr.Refuses f.stack e) :
    Faults f instr (.value e)
  | undefined {name : String} (h : f.scope.get? name = none) :
    Faults f (.load name) (.undefinedVariable name)
  | notAVariable {name : String} {function : Function}
    (h : f.scope.get? name = some (.function function)) :
    Faults f (.load name) (.notAVariable name)

/-- The instruction is a jump by `steps`, and the flag lets it jump. -/
def Jumps (f : Frame) (instr : Instr) (steps : Int64) : Prop :=
  instr = .jump steps ∨ instr = .jumpIfFalse steps ∧ f.flag = some false

/-- A frame from which an instruction has taken its operands, and a conditional jump the flag. -/
def spent (f : Frame) (instr : Instr) : Frame :=
  { f with
    stack := f.stack.drop instr.arity
    flag := match instr with
      | .jumpIfFalse _ => none
      | _ => f.flag }

/-- What an instruction comes to: a fault, a jump, or the way to the next instruction. -/
inductive Comes (f : Frame) (instr : Instr) : Except Fault Int64 × Frame → Prop
  | fault {fault : Fault} (h : f.Faults instr fault) : Comes f instr (.error fault, f.spent instr)
  | jump {steps : Int64} (h : f.Jumps instr steps) : Comes f instr (.ok steps, f.spent instr)
  | advance {frame : Frame} (h : ∀ fault, ¬ f.Faults instr fault) : Comes f instr (.ok 0, frame)

variable {f : Frame} {instr : Instr} {fault fault' : Fault} {steps : Int64}

theorem Faults.unique (h : f.Faults instr fault) (h' : f.Faults instr fault') : fault = fault' := by
  cases h with
  | underflow h =>
    cases h' with
    | underflow => rfl
    | refused h' => exact absurd h (Nat.not_lt.mpr h'.arity_le)
    | undefined | notAVariable => cases h
  | refused h =>
    cases h' with
    | underflow h' => exact absurd h' (Nat.not_lt.mpr h.arity_le)
    | refused h' => rw [h.unique h']
    | undefined | notAVariable => cases h
  | undefined h =>
    cases h' with
    | underflow h' => cases h'
    | refused h' => cases h'
    | undefined => rfl
    | notAVariable h' =>
      rw [h] at h'
      cases h'
  | notAVariable h =>
    cases h' with
    | underflow h' => cases h'
    | refused h' => cases h'
    | undefined h' =>
      rw [h] at h'
      cases h'
    | notAVariable => rfl

theorem Jumps.not_faults (h : f.Jumps instr steps) : ¬ f.Faults instr fault := by
  intro hfault
  rcases h with rfl | ⟨rfl, _⟩ <;> cases hfault with
  | underflow h => cases h
  | refused h => cases h

theorem Jumps.execute_eq (h : f.Jumps instr steps) :
    f.execute instr = (.ok steps, f.spent instr) := by
  rcases h with rfl | ⟨rfl, hflag⟩
  · rfl
  · rw [execute, if_pos hflag]
    rfl

/-- An instruction other than a `load` that finds its operands can only fail in its operation. -/
theorem not_faults (hload : ∀ name, instr ≠ .load name) (harity : instr.arity ≤ f.stack.length)
    (hrefuses : ∀ e, ¬ instr.Refuses f.stack e) : ¬ f.Faults instr fault := by
  intro hfault
  cases hfault with
  | underflow h => exact Nat.not_lt.mpr harity h
  | refused h => exact hrefuses _ h
  | undefined => exact hload _ rfl
  | notAVariable => exact hload _ rfl

theorem comes_execute (f : Frame) (instr : Instr) : f.Comes instr (f.execute instr) := by
  obtain ⟨scope, stack, flag, result⟩ := f
  cases instr with
  | constant | eof => exact .advance fun _ => not_faults nofun (Nat.zero_le _) nofun
  | load name =>
    simp only [execute]
    split
    · rename_i value hget
      refine .advance ?_
      intro fault hfault
      cases hfault with
      | underflow h => cases h
      | refused h => cases h
      | undefined h => simp [hget] at h
      | notAVariable h => simp [hget] at h
    · rename_i function hget
      exact .fault (.notAVariable hget)
    · rename_i hget
      exact .fault (.undefined hget)
  | assign | ret =>
    cases stack with
    | nil => exact .fault (.underflow Nat.zero_lt_one)
    | cons value stack =>
      exact .advance fun _ => not_faults nofun (Nat.le_add_left 1 stack.length) nofun
  | negate =>
    cases stack with
    | nil => exact .fault (.underflow Nat.zero_lt_one)
    | cons value stack =>
      simp only [execute]
      cases h : value.negate with
      | error e => exact .fault (.refused (.negate h))
      | ok v =>
        refine .advance fun _ => not_faults nofun (Nat.le_add_left 1 stack.length) ?_
        intro e hrefuses
        cases hrefuses with
        | negate h' =>
          rw [h] at h'
          cases h'
  | arith op =>
    match stack with
    | [] => exact .fault (.underflow Nat.zero_lt_two)
    | [_] => exact .fault (.underflow Nat.one_lt_two)
    | right :: left :: stack =>
      simp only [execute]
      cases h : left.arith op right with
      | error e => exact .fault (.refused (.arith h))
      | ok v =>
        refine .advance fun _ => not_faults nofun (Nat.le_add_left 2 stack.length) ?_
        intro e hrefuses
        cases hrefuses with
        | arith h' =>
          rw [h] at h'
          cases h'
  | compare c =>
    match stack with
    | [] => exact .fault (.underflow Nat.zero_lt_two)
    | [_] => exact .fault (.underflow Nat.one_lt_two)
    | right :: left :: stack =>
      simp only [execute]
      cases h : left.compare c right with
      | error e => exact .fault (.refused (.compare h))
      | ok v =>
        refine .advance fun _ => not_faults nofun (Nat.le_add_left 2 stack.length) ?_
        intro e hrefuses
        cases hrefuses with
        | compare h' =>
          rw [h] at h'
          cases h'
  | jump steps => exact .jump (.inl rfl)
  | jumpIfFalse steps =>
    by_cases hflag : flag = some false
    · subst hflag
      exact .jump (.inr ⟨rfl, rfl⟩)
    · simp only [execute, if_neg hflag]
      exact .advance fun _ => not_faults nofun (Nat.zero_le _) nofun

end Frame

namespace Machine

variable {m : Machine} {instr : Instr} {fault : Fault}

/-- The faults of a call that finds `instr`: those of the instruction, and a jump that leads to no
position. -/
inductive Fails (m : Machine) (instr : Instr) : Fault → Prop
  | instr {fault : Fault} (h : m.frame.Faults instr fault) : Fails m instr fault
  | target {steps : Int64} (h : m.frame.Jumps instr steps) (hr : resume? m.index steps = none) :
    Fails m instr (.invalidJumpTarget m.index steps)

theorem resume?_zero {index length : Nat} (hindex : index < length)
    (hlength : length < positionBound) : resume? index 0 = some (index + 1) := by
  rw [resume?_eq_some_iff]
  have hzero : (0 : Int64).toInt = 0 := rfl
  omega

section

variable (hlength : m.code.length < positionBound) (hs : m.status = .running)
  (hi : m.code[m.index]? = some instr)
include hlength hs hi

theorem fails_of_next (h : m.next.1 = .error fault) :
    m.Fails instr fault ∧ m.next.2 = { m with frame := m.frame.spent instr } := by
  have hindex := (List.getElem?_eq_some_iff.mp hi).1
  have hcomes := m.frame.comes_execute instr
  generalize he : m.frame.execute instr = r at hcomes
  cases hcomes with
  | fault hfault =>
    rw [(Call.fault hs hi he).next_eq] at h ⊢
    cases h
    exact ⟨.instr hfault, rfl⟩
  | @jump steps hjump =>
    cases hr : resume? m.index steps with
    | none =>
      rw [(Call.refused hs hi he hr).next_eq] at h ⊢
      cases h
      exact ⟨.target hjump hr, rfl⟩
    | some index =>
      rw [(Call.resumed hs hi he hr).next_eq] at h
      cases h
  | advance =>
    rw [(Call.resumed hs hi he (resume?_zero hindex hlength)).next_eq] at h
    cases h

theorem next_eq_error_iff : m.next.1 = .error fault ↔ m.Fails instr fault := by
  constructor
  · intro h
    exact (fails_of_next hlength hs hi h).1
  · intro h
    have hcomes := m.frame.comes_execute instr
    generalize he : m.frame.execute instr = r at hcomes
    cases h with
    | instr hfault =>
      cases hcomes with
      | fault hfault' => rw [(Call.fault hs hi he).next_eq, hfault.unique hfault']
      | jump hjump => exact absurd hfault hjump.not_faults
      | advance hnot => exact absurd hfault (hnot _)
    | target hjump hr => rw [(Call.refused hs hi hjump.execute_eq hr).next_eq]

end

/-- How a call on a running machine that finds `instr` can fail, and what it then leaves. -/
structure FaultsAt (m : Machine) (instr : Instr) : Prop where
  underflow : m.next.1 = .error .stackUnderflow ↔ m.frame.stack.length < instr.arity
  underflow_stack : m.next.1 = .error .stackUnderflow → m.next.2.frame.stack = []
  refused : ∀ e, m.next.1 = .error (.value e) ↔ instr.Refuses m.frame.stack e
  refused_stack : ∀ e, m.next.1 = .error (.value e) →
    ∃ operands, operands.length = instr.arity ∧ m.frame.stack = operands ++ m.next.2.frame.stack
  undefined : ∀ name, m.next.1 = .error (.undefinedVariable name) ↔
    instr = .load name ∧ m.frame.scope.get? name = none
  notAVariable : ∀ name, m.next.1 = .error (.notAVariable name) ↔
    instr = .load name ∧ ∃ function, m.frame.scope.get? name = some (.function function)
  target : ∀ index steps, m.next.1 = .error (.invalidJumpTarget index steps) ↔
    index = m.index ∧ m.frame.Jumps instr steps ∧ resume? m.index steps = none
  target_flag : ∀ index steps, m.next.1 = .error (.invalidJumpTarget index steps) →
    instr = .jumpIfFalse steps → m.next.2.frame.flag = none
  left : ∀ fault, m.next.1 = .error fault → m.next.2 = { m with frame := m.frame.spent instr }

theorem faultsAt (hlength : m.code.length < positionBound) (hs : m.status = .running)
    (hi : m.code[m.index]? = some instr) : m.FaultsAt instr := by
  have hiff : ∀ fault, m.next.1 = .error fault ↔ m.Fails instr fault :=
    fun _ => next_eq_error_iff hlength hs hi
  have hleft : ∀ fault, m.next.1 = .error fault →
      m.next.2 = { m with frame := m.frame.spent instr } :=
    fun _ h => (fails_of_next hlength hs hi h).2
  have hunderflow : m.next.1 = .error .stackUnderflow ↔
      m.frame.stack.length < instr.arity := by
    rw [hiff]
    constructor
    · intro h
      cases h with
      | instr h =>
        cases h with
        | underflow h => exact h
    · intro h
      exact .instr (.underflow h)
  have hrefused : ∀ e, m.next.1 = .error (.value e) ↔ instr.Refuses m.frame.stack e := by
    intro e
    rw [hiff]
    constructor
    · intro h
      cases h with
      | instr h =>
        cases h with
        | refused h => exact h
    · intro h
      exact .instr (.refused h)
  refine ⟨hunderflow, ?_, hrefused, ?_, ?_, ?_, ?_, ?_, hleft⟩
  · intro h
    rw [hleft _ h]
    exact List.drop_eq_nil_of_le (Nat.le_of_lt (hunderflow.mp h))
  · intro e h
    have harity := ((hrefused e).mp h).arity_le
    rw [hleft _ h]
    refine ⟨m.frame.stack.take instr.arity, ?_, (List.take_append_drop ..).symm⟩
    rw [List.length_take, Nat.min_eq_left harity]
  · intro name
    rw [hiff]
    constructor
    · intro h
      cases h with
      | instr h =>
        cases h with
        | undefined h => exact ⟨rfl, h⟩
    · rintro ⟨rfl, h⟩
      exact .instr (.undefined h)
  · intro name
    rw [hiff]
    constructor
    · intro h
      cases h with
      | instr h =>
        cases h with
        | notAVariable h => exact ⟨rfl, _, h⟩
    · rintro ⟨rfl, function, h⟩
      exact .instr (.notAVariable h)
  · intro index steps
    rw [hiff]
    constructor
    · intro h
      cases h with
      | instr h => cases h
      | target hjump hr => exact ⟨rfl, hjump, hr⟩
    · rintro ⟨rfl, hjump, hr⟩
      exact .target hjump hr
  · rintro index steps h rfl
    rw [hleft _ h]
    rfl

/-- A call fails for what it finds: a machine that has finished, a place outside the code, or an
instruction that cannot be executed. In the last case the operands are gone, a conditional jump has
used the flag up, and everything else is as before. -/
theorem next_faults (m : Machine) (hlength : m.code.length < positionBound) :
    (∀ snapshot, m.status = .finished snapshot → m.next = (.error .unexpectedState, m)) ∧
    (m.status = .running → m.code.length ≤ m.index → m.next = (.error .expectedEof, m)) ∧
    ∀ instr, m.status = .running → m.code[m.index]? = some instr → m.FaultsAt instr := by
  refine ⟨?_, ?_, ?_⟩
  · intro snapshot hs
    exact (Call.finished hs).next_eq
  · intro hs hindex
    exact (Call.outside hs (List.getElem?_eq_none hindex)).next_eq
  · intro instr hs hi
    exact faultsAt hlength hs hi

/-- About to subtract a text from a number, with a third value on the stack and the flag set. -/
def textOperand : Machine :=
  ⟨[.arith .subtract, .jumpIfFalse (-5)], .empty, 0, .running,
    ⟨.empty, [.str "a", .int 1, .int 7], some false, none⟩⟩

/-- The subtraction takes its two operands away, and the jump behind it the flag. -/
theorem next_faults_textOperand :
    textOperand.code.length < positionBound ∧
      textOperand.next.1 =
        .error (.value (.invalidOperands (.arith .subtract) .int .string)) ∧
      textOperand.next.2.frame.stack = [.int 7] ∧
      { textOperand with index := 1 }.next.1 = .error (.invalidJumpTarget 1 (-5)) ∧
      { textOperand with index := 1 }.next.2.frame.flag = none := by
  obtain ⟨_, _, hat⟩ := next_faults textOperand (by decide)
  obtain ⟨_, _, hat'⟩ := next_faults { textOperand with index := 1 } (by decide)
  have hsubtract := ((hat _ rfl rfl).refused _).mpr (.arith rfl)
  have hjump := ((hat' _ rfl rfl).target 1 (-5)).mpr ⟨rfl, .inr ⟨rfl, rfl⟩, by decide⟩
  refine ⟨by decide, hsubtract, ?_, hjump, (hat' _ rfl rfl).target_flag _ _ hjump rfl⟩
  rw [(hat _ rfl rfl).left _ hsubtract]
  rfl

end Machine

end MiniC.Stack
