import Mathlib
import MiniC.Proofs.Stack.Faults

/-!
# What lies underneath

An instruction works on the top of the stack. What lies further down has no influence on it and
stays there, as long as there are enough values above. So code that never runs out of values does
the same on top of any other values, and the height of the stack follows from the instructions
alone. Operands of an instruction that fails are gone as well.
-/

namespace MiniC.Stack

set_option autoImplicit false

def Instr.effect : Instr → Int
  | .constant _ | .load _ => 1
  | .assign _ | .ret | .arith _ => -1
  | .compare _ => -2
  | .negate | .jump _ | .jumpIfFalse _ | .eof => 0

def Snapshot.onTopOf (x : Snapshot) (below : List Value) : Snapshot :=
  { x with stack := below.reverse ++ x.stack }

def Status.onTopOf : Status → List Value → Status
  | .running, _ => .running
  | .finished x, below => .finished (x.onTopOf below)

namespace Frame

variable {f : Frame} {instr : Instr}

/-- The frame with the values `below` under its stack. -/
def onTopOf (f : Frame) (below : List Value) : Frame :=
  { f with stack := f.stack ++ below }

def faultsAt? (f : Frame) (instr : Instr) : Option Instr :=
  match (f.execute instr).1 with
  | .ok _ => none
  | .error _ => some instr

theorem snapshot_onTopOf (f : Frame) (below : List Value) :
    (f.onTopOf below).snapshot = f.snapshot.onTopOf below := by
  simp [snapshot, onTopOf, Snapshot.onTopOf]

theorem pushResult_onTopOf (f : Frame) (below : List Value) (r : Except ValueError Value) :
    (f.onTopOf below).pushResult r = ((f.pushResult r).1, (f.pushResult r).2.onTopOf below) := by
  cases r <;> rfl

theorem setFlag_onTopOf (f : Frame) (below : List Value) (r : Except ValueError Bool) :
    (f.onTopOf below).setFlag r = ((f.setFlag r).1, (f.setFlag r).2.onTopOf below) := by
  cases r <;> rfl

theorem execute_of_short (h : f.stack.length < instr.arity) :
    (f.execute instr).1 = .error .stackUnderflow := by
  have hshort : f.Faults instr .stackUnderflow := .underflow h
  have hcomes := f.comes_execute instr
  generalize f.execute instr = r at hcomes
  cases hcomes with
  | fault hfault => rw [hshort.unique hfault]
  | jump hjump => exact absurd hshort hjump.not_faults
  | advance hnot => exact absurd hshort (hnot _)

/-- An instruction that finds its operands does not look further down. -/
theorem execute_onTopOf (h : instr.arity ≤ f.stack.length) (below : List Value) :
    (f.onTopOf below).execute instr = ((f.execute instr).1, (f.execute instr).2.onTopOf below) := by
  obtain ⟨scope, stack, flag, result⟩ := f
  cases instr with
  | constant | jump | eof => rfl
  | load name =>
    simp only [execute, onTopOf]
    split <;> rfl
  | jumpIfFalse steps => rcases flag with _ | _ | _ <;> rfl
  | assign | ret =>
    cases stack with
    | nil => cases h
    | cons value stack => rfl
  | negate =>
    cases stack with
    | nil => cases h
    | cons value stack => exact pushResult_onTopOf ⟨scope, stack, flag, result⟩ below value.negate
  | arith op =>
    rcases stack with _ | ⟨right, _ | ⟨left, stack⟩⟩
    · simp [Instr.arity] at h
    · simp [Instr.arity] at h
    · exact pushResult_onTopOf ⟨scope, stack, flag, result⟩ below (left.arith op right)
  | compare c =>
    rcases stack with _ | ⟨right, _ | ⟨left, stack⟩⟩
    · simp [Instr.arity] at h
    · simp [Instr.arity] at h
    · exact setFlag_onTopOf ⟨scope, stack, flag, result⟩ below (left.compare c right)

theorem height_of_ok {g : Frame} {steps : Int64} (h : f.execute instr = (.ok steps, g)) :
    (g.stack.length : Int) = f.stack.length + instr.effect := by
  obtain ⟨scope, stack, flag, result⟩ := f
  cases instr with
  | constant | jump | eof =>
    cases h
    simp [push, Instr.effect]
  | load name =>
    simp only [execute] at h
    split at h <;> cases h
    simp [push, Instr.effect]
  | jumpIfFalse steps =>
    simp only [execute] at h
    split at h <;> cases h <;> simp [Instr.effect]
  | assign | ret =>
    cases stack with
    | nil => cases h
    | cons value stack =>
      cases h
      simp only [List.length_cons, Instr.effect]
      omega
  | negate =>
    cases stack with
    | nil => cases h
    | cons value stack =>
      simp only [execute] at h
      cases hv : value.negate <;> rw [hv] at h <;> cases h
      simp [push, Instr.effect]
  | arith op =>
    rcases stack with _ | ⟨right, _ | ⟨left, stack⟩⟩
    · cases h
    · cases h
    · simp only [execute] at h
      cases hv : left.arith op right <;> rw [hv] at h <;> cases h
      simp only [push, List.length_cons, Instr.effect]
      omega
  | compare c =>
    rcases stack with _ | ⟨right, _ | ⟨left, stack⟩⟩
    · cases h
    · cases h
    · simp only [execute] at h
      cases hv : left.compare c right <;> rw [hv] at h <;> cases h
      simp only [List.length_cons, Instr.effect]
      omega

theorem stack_of_error {g : Frame} {fault : Fault} (h : f.execute instr = (.error fault, g)) :
    g.stack = f.stack.drop instr.arity := by
  have hcomes := f.comes_execute instr
  rw [h] at hcomes
  cases hcomes with
  | fault => rfl

end Frame

namespace Machine

variable {m : Machine} {instr : Instr}

/-- The machine with the values `below` under its stack, and under the stack that its snapshot shows
if it has finished. -/
def onTopOf (m : Machine) (below : List Value) : Machine :=
  { m with status := m.status.onTopOf below, frame := m.frame.onTopOf below }

def faultsAt? (m : Machine) : Option Instr :=
  match m.status, m.code[m.index]? with
  | .running, some instr => m.frame.faultsAt? instr
  | _, _ => none

def faulted : Nat → Machine → List Instr
  | 0, _ => []
  | n + 1, m => m.faultsAt?.toList ++ faulted n m.next.2

/-- None of `n` calls of `next` finds too few values on the stack. -/
def NeverUnderflows (n : Nat) (m : Machine) : Prop :=
  ∀ k < n, (m.after k).next.1 ≠ .error .stackUnderflow

theorem NeverUnderflows.first {n : Nat} (h : NeverUnderflows (n + 1) m) :
    m.next.1 ≠ .error .stackUnderflow :=
  h 0 (Nat.zero_lt_succ n)

theorem NeverUnderflows.others {n : Nat} (h : NeverUnderflows (n + 1) m) :
    NeverUnderflows n m.next.2 := by
  intro k hk
  exact h (k + 1) (Nat.succ_lt_succ hk)

theorem NeverUnderflows.mono {n k : Nat} (h : NeverUnderflows n m) (hk : k ≤ n) :
    NeverUnderflows k m := by
  intro j hj
  exact h j (Nat.lt_of_lt_of_le hj hk)

section Next

/-- An instruction finds its operands unless the call underflows. -/
theorem arity_le_of_next (hs : m.status = .running) (hi : m.code[m.index]? = some instr)
    (h : m.next.1 ≠ .error .stackUnderflow) : instr.arity ≤ m.frame.stack.length := by
  apply Nat.le_of_not_lt
  intro hshort
  rcases he : m.frame.execute instr with ⟨answer, frame⟩
  have hanswer := Frame.execute_of_short hshort
  rw [he] at hanswer
  subst hanswer
  rw [(Call.fault hs hi he).next_eq] at h
  exact h rfl

theorem statusAfter_onTopOf (instr : Instr) (f : Frame) (below : List Value) :
    statusAfter instr (f.onTopOf below) = (statusAfter instr f).onTopOf below := by
  unfold statusAfter
  split
  · rw [f.snapshot_onTopOf]
    rfl
  · rfl

/-- A call that does not underflow does the same on top of other values. -/
theorem next_onTopOf (h : m.next.1 ≠ .error .stackUnderflow) (below : List Value) :
    (m.onTopOf below).next = (m.next.1, m.next.2.onTopOf below) := by
  have hrunning : m.status = .running → (m.onTopOf below).status = .running := by
    intro hs
    simp only [onTopOf, hs, Status.onTopOf]
  have hexecute : ∀ {instr answer frame}, m.status = .running → m.code[m.index]? = some instr →
      m.frame.execute instr = (answer, frame) →
      (m.onTopOf below).frame.execute instr = (answer, frame.onTopOf below) := by
    intro instr answer frame hs hi he
    have hraised := Frame.execute_onTopOf (arity_le_of_next hs hi h) below
    rwa [he] at hraised
  apply Call.next_eq
  generalize hnext : m.next = r
  cases next_eq_iff.mp hnext with
  | @finished x hs =>
    have hfinished : (m.onTopOf below).status = .finished (x.onTopOf below) := by
      simp only [onTopOf, hs, Status.onTopOf]
    exact .finished hfinished
  | outside hs hi => exact .outside (hrunning hs) hi
  | fault hs hi he =>
    have hcall := Call.fault (hrunning hs) hi (hexecute hs hi he)
    simpa only [onTopOf, hs] using hcall
  | refused hs hi he hr =>
    have hcall := Call.refused (hrunning hs) hi (hexecute hs hi he) hr
    simpa only [onTopOf, hs] using hcall
  | resumed hs hi he hr =>
    have hcall := Call.resumed (hrunning hs) hi (hexecute hs hi he) hr
    rw [statusAfter_onTopOf] at hcall
    exact hcall

theorem height_next (h : m.next.1 ≠ .error .stackUnderflow) :
    (m.next.2.frame.stack.length : Int) = m.frame.stack.length +
      (m.executes?.toList.map Instr.effect).sum - (m.faultsAt?.toList.map Instr.arity).sum := by
  cases hs : m.status with
  | finished x => simp [(Call.finished hs).next_eq, executes?, faultsAt?, hs]
  | running =>
    cases hi : m.code[m.index]? with
    | none => simp [(Call.outside hs hi).next_eq, executes?, faultsAt?, hs, hi]
    | some instr =>
      have harity := arity_le_of_next hs hi h
      rw [frame_next hs hi]
      simp only [executes?, faultsAt?, hs, hi, Frame.executes?, Frame.faultsAt?]
      rcases he : m.frame.execute instr with ⟨fault | steps, frame⟩
      · rw [Frame.stack_of_error he, List.length_drop]
        simp [Except.toOption]
        omega
      · rw [Frame.height_of_ok he]
        simp [Except.toOption]

theorem faultsAt?_of_ok (h : m.next.1 = .ok ()) : m.faultsAt? = none := by
  generalize hnext : m.next = r at h
  cases next_eq_iff.mp hnext with
  | finished | outside | fault | refused => cases h
  | resumed hs hi he => simp only [faultsAt?, hs, hi, Frame.faultsAt?, he]

end Next

section After

variable {n : Nat}

theorem after_onTopOf (h : NeverUnderflows n m) (below : List Value) :
    (m.onTopOf below).after n = (m.after n).onTopOf below := by
  induction n generalizing m with
  | zero => rfl
  | succ n ih =>
    rw [after, after, next_onTopOf h.first]
    exact ih h.others

theorem height_after (h : NeverUnderflows n m) :
    ((m.after n).frame.stack.length : Int) = m.frame.stack.length +
      ((m.executed n).map Instr.effect).sum - ((m.faulted n).map Instr.arity).sum := by
  induction n generalizing m with
  | zero => simp [after, executed, faulted]
  | succ n ih =>
    have hfirst := height_next h.first
    have hothers := ih h.others
    simp only [after, executed, faulted, List.map_append, List.sum_append]
    omega

theorem faulted_of_ok (h : ∀ k < n, (m.after k).next.1 = .ok ()) : m.faulted n = [] := by
  induction n generalizing m with
  | zero => rfl
  | succ n ih =>
    have hfirst : m.next.1 = .ok () := h 0 (Nat.zero_lt_succ n)
    rw [faulted, faultsAt?_of_ok hfirst]
    apply ih
    intro k hk
    exact h (k + 1) (Nat.succ_lt_succ hk)

end After

section Raised

variable {m' : Machine} {n : Nat} (below : List Value)

theorem raised_of_running (h : m.status = .running) :
    { m with frame := m.frame.onTopOf below } = m.onTopOf below := by
  simp only [onTopOf, h, Status.onTopOf]

theorem next_raised_of_ok (h : m.next = (.ok (), m')) :
    ({ m with frame := m.frame.onTopOf below }).next = (.ok (), m'.onTopOf below) := by
  have hnext : m.next.1 ≠ .error .stackUnderflow := by simp [h]
  cases hs : m.status with
  | finished x =>
    rw [(Call.finished hs).next_eq] at h
    cases h
  | running => rw [← hs, raised_of_running below hs, next_onTopOf hnext, h]

theorem next_raised_of_error {fault : Fault} (h : m.next = (.error fault, m'))
    (hfault : fault ≠ .stackUnderflow) :
    ({ m with frame := m.frame.onTopOf below }).next =
      (.error fault, { m' with frame := m'.frame.onTopOf below }) := by
  have hnext : m.next.1 ≠ .error .stackUnderflow := by simpa [h] using hfault
  have hstatus := status_of_error h
  cases hs : m.status with
  | finished x =>
    rw [(Call.finished hs).next_eq] at h
    cases h
    rw [hs]
    exact (Call.finished rfl).next_eq
  | running =>
    rw [← hs, raised_of_running below hs, next_onTopOf hnext, h,
      raised_of_running below (hstatus.trans hs)]

/-- A machine that has finished keeps its snapshot, whatever is put under its stack. -/
theorem after_raised (h : NeverUnderflows n m) :
    let raised := { m with frame := m.frame.onTopOf below }
    (∀ k < n, (raised.after k).next.1 = (m.after k).next.1) ∧
      (raised.after n).index = (m.after n).index ∧
      (raised.after n).frame = (m.after n).frame.onTopOf below ∧
      (m.status = .running → (raised.after n).status = (m.after n).status.onTopOf below) := by
  intro raised
  cases hs : m.status with
  | finished x =>
    have hraised : raised.status = .finished x := hs
    have hafter := after_of_finished hs
    have hafter' := after_of_finished hraised
    refine ⟨?_, ?_, ?_, by simp⟩
    · intro k _
      rw [hafter, hafter', (Call.finished hs).next_eq, (Call.finished hraised).next_eq]
    · rw [hafter, hafter']
    · rw [hafter, hafter']
  | running =>
    have hraised : raised = m.onTopOf below := raised_of_running below hs
    rw [hraised, after_onTopOf h]
    refine ⟨?_, rfl, rfl, fun _ => rfl⟩
    intro k hk
    rw [after_onTopOf (h.mono (Nat.le_of_lt hk)), next_onTopOf (h k hk)]

end Raised

/-- Values under the stack do not take part. A call that succeeds does the same on top of them, down
to the stack that a snapshot shows, and a call that fails for another reason than too few values
fails alike. So do any number of calls that never underflow. The height of the stack after them is
the height before, changed by the effects of the executed instructions, and less the operands of
those that failed. -/
theorem below_untouched (m : Machine) (below : List Value) :
    let raised := { m with frame := m.frame.onTopOf below }
    (∀ m', m.next = (.ok (), m') → raised.next = (.ok (), m'.onTopOf below)) ∧
    (∀ fault m', m.next = (.error fault, m') → fault ≠ .stackUnderflow →
      raised.next = (.error fault, { m' with frame := m'.frame.onTopOf below })) ∧
    ∀ n, NeverUnderflows n m →
      (∀ k < n, (raised.after k).next.1 = (m.after k).next.1) ∧
      (raised.after n).index = (m.after n).index ∧
      (raised.after n).frame = (m.after n).frame.onTopOf below ∧
      (m.status = .running → (raised.after n).status = (m.after n).status.onTopOf below) ∧
      ((m.after n).frame.stack.length : Int) = m.frame.stack.length +
        ((m.executed n).map Instr.effect).sum - ((m.faulted n).map Instr.arity).sum ∧
      ((∀ k < n, (m.after k).next.1 = .ok ()) → m.faulted n = []) := by
  intro raised
  refine ⟨?_, ?_, ?_⟩
  · intro m' hok
    exact next_raised_of_ok below hok
  · intro fault m' herror hfault
    exact next_raised_of_error below herror hfault
  · intro n hn
    obtain ⟨hnext, hindex, hframe, hstatus⟩ := after_raised below hn
    exact ⟨hnext, hindex, hframe, hstatus, height_after hn, faulted_of_ok⟩

/-- About to add to the value on the stack, and to finish. -/
def sumOnTop : Machine :=
  ⟨[.constant (.int 2), .arith .add, .eof], .empty, 0, .running, ⟨.empty, [.int 7], none, none⟩⟩

def negatedText : Machine :=
  ofCode [.constant (.str "a"), .negate, .eof] .empty

/-- The sum is left on top of a text, which the snapshot shows as well. A refused negation is refused
on top of a number too. -/
theorem below_untouched_deepText :
    NeverUnderflows 3 sumOnTop ∧
      (({ sumOnTop with frame := sumOnTop.frame.onTopOf [.str "deep"] }).after 3).status =
        .finished ⟨none, [], [.str "deep", .int 9], none⟩ ∧
      ((sumOnTop.after 3).frame.stack.length : Int) = sumOnTop.frame.stack.length +
        (sumOnTop.code.map Instr.effect).sum ∧
      ({ negatedText.after 1 with frame := (negatedText.after 1).frame.onTopOf [.int 5] }).next.1 =
        .error (.value (.invalidOperand .negate .string)) := by
  have hok : ∀ k < 3, (sumOnTop.after k).next.1 = .ok () := by
    intro k hk
    rcases k with _ | _ | _ | k
    · rfl
    · rfl
    · rfl
    · omega
  have hnever : NeverUnderflows 3 sumOnTop := by
    intro k hk
    simp [hok k hk]
  obtain ⟨_, _, hruns⟩ := below_untouched sumOnTop [.str "deep"]
  obtain ⟨_, _, _, hstatus, hheight, hfaulted⟩ := hruns 3 hnever
  obtain ⟨_, hfails, _⟩ := below_untouched (negatedText.after 1) [.int 5]
  refine ⟨hnever, hstatus rfl, ?_, congrArg Prod.fst (hfails _ _ rfl (by simp))⟩
  rw [hheight, hfaulted hok]
  rfl

/-- The text is gone behind the refused negation, which is none of the executed instructions, and as
one of them would not change the height. -/
theorem height_behind_refusal :
    NeverUnderflows 2 negatedText ∧ negatedText.executed 2 = [.constant (.str "a")] ∧
      Instr.effect .negate = 0 ∧
      ((negatedText.after 2).frame.stack.length : Int) ≠ negatedText.frame.stack.length +
        ((negatedText.executed 2).map Instr.effect).sum := by
  refine ⟨?_, rfl, rfl, by decide⟩
  intro k hk hunderflow
  rcases k with _ | _ | k
  · cases hunderflow
  · cases hunderflow
  · omega

end Machine

end MiniC.Stack
