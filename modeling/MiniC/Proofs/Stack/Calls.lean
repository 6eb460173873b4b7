import MiniC.Stack.Machine

/-!
# Calls of the stack machine

What one call of `next` does, by the state in which it is made, and what is left after any number of
calls. Calls may fail: the machine then stays where it is, and can be called again.
-/

namespace MiniC.Stack

set_option autoImplicit false

def Frame.executes? (f : Frame) (instr : Instr) : Option Instr :=
  (f.execute instr).1.toOption.map fun _ => instr

namespace Machine

def after : Nat → Machine → Machine
  | 0, m => m
  | n + 1, m => after n m.next.2

/-- The instruction that the next call executes. There is none if the machine has finished or left
its code, or if the instruction faults. -/
def executes? (m : Machine) : Option Instr :=
  match m.status, m.code[m.index]? with
  | .running, some instr => m.frame.executes? instr
  | _, _ => none

def executed : Nat → Machine → List Instr
  | 0, _ => []
  | n + 1, m => m.executes?.toList ++ executed n m.next.2

def statusAfter (instr : Instr) (frame : Frame) : Status :=
  if instr = .eof then .finished frame.snapshot else .running

inductive Call (m : Machine) : Except Fault Unit × Machine → Prop
  | finished {snapshot : Snapshot} (hs : m.status = .finished snapshot) :
    Call m (.error .unexpectedState, m)
  | outside (hs : m.status = .running) (hi : m.code[m.index]? = none) :
    Call m (.error .expectedEof, m)
  | fault {instr : Instr} {fault : Fault} {frame : Frame} (hs : m.status = .running)
    (hi : m.code[m.index]? = some instr) (he : m.frame.execute instr = (.error fault, frame)) :
    Call m (.error fault, { m with frame })
  | refused {instr : Instr} {steps : Int64} {frame : Frame} (hs : m.status = .running)
    (hi : m.code[m.index]? = some instr) (he : m.frame.execute instr = (.ok steps, frame))
    (hr : resume? m.index steps = none) :
    Call m (.error (.invalidJumpTarget m.index steps), { m with frame })
  | resumed {instr : Instr} {steps : Int64} {frame : Frame} {index : Nat}
    (hs : m.status = .running) (hi : m.code[m.index]? = some instr)
    (he : m.frame.execute instr = (.ok steps, frame)) (hr : resume? m.index steps = some index) :
    Call m (.ok (), { m with index, status := statusAfter instr frame, frame })

section Next

variable {m : Machine} {r : Except Fault Unit × Machine}

theorem exists_call (m : Machine) : ∃ r, m.Call r := by
  cases hs : m.status with
  | finished snapshot => exact ⟨_, .finished hs⟩
  | running =>
    cases hi : m.code[m.index]? with
    | none => exact ⟨_, .outside hs hi⟩
    | some instr =>
      rcases he : m.frame.execute instr with ⟨fault | steps, frame⟩
      · exact ⟨_, .fault hs hi he⟩
      · cases hr : resume? m.index steps with
        | none => exact ⟨_, .refused hs hi he hr⟩
        | some index => exact ⟨_, .resumed hs hi he hr⟩

theorem Call.next_eq (h : m.Call r) : m.next = r := by
  unfold next
  cases h with
  | finished hs => simp only [hs]
  | outside hs hi => simp only [hs, hi]
  | fault hs hi he => simp only [hs, hi, he]
  | refused hs hi he hr => simp only [hs, hi, he, hr]
  | resumed hs hi he hr => simp only [hs, hi, he, hr, statusAfter]

theorem next_eq_iff : m.next = r ↔ m.Call r := by
  constructor
  · rintro rfl
    obtain ⟨r, hr⟩ := exists_call m
    rw [hr.next_eq]
    exact hr
  · exact Call.next_eq

/-- A call changes nothing, or an instruction is executed on the frame. -/
theorem next_cases (m : Machine) :
    (m.next.2 = m ∧ m.executes? = none) ∨
    ∃ instr, m.status = .running ∧ m.code[m.index]? = some instr ∧
      m.next.2.frame = (m.frame.execute instr).2 ∧
      m.executes? = m.frame.executes? instr := by
  generalize hnext : m.next = r
  cases next_eq_iff.mp hnext with
  | finished hs => exact .inl ⟨rfl, by simp [executes?, hs]⟩
  | outside hs hi => exact .inl ⟨rfl, by simp [executes?, hs, hi]⟩
  | fault hs hi he => exact .inr ⟨_, hs, hi, by rw [he], by simp [executes?, hs, hi]⟩
  | refused hs hi he => exact .inr ⟨_, hs, hi, by rw [he], by simp [executes?, hs, hi]⟩
  | resumed hs hi he => exact .inr ⟨_, hs, hi, by rw [he], by simp [executes?, hs, hi]⟩

theorem frame_next {instr : Instr} (hs : m.status = .running) (hi : m.code[m.index]? = some instr) :
    m.next.2.frame = (m.frame.execute instr).2 := by
  generalize hnext : m.next = r
  cases next_eq_iff.mp hnext with
  | finished hs' =>
    rw [hs] at hs'
    cases hs'
  | outside _ hi' =>
    rw [hi] at hi'
    cases hi'
  | fault _ hi' he | refused _ hi' he | resumed _ hi' he =>
    rw [hi] at hi'
    cases hi'
    rw [he]

theorem status_of_error {m' : Machine} {fault : Fault} (h : m.next = (.error fault, m')) :
    m'.status = m.status := by
  cases next_eq_iff.mp h <;> rfl

theorem next_code (m : Machine) : m.next.2.code = m.code ∧ m.next.2.initial = m.initial := by
  generalize hnext : m.next = r
  cases next_eq_iff.mp hnext <;> exact ⟨rfl, rfl⟩

theorem after_code (m : Machine) (n : Nat) : (m.after n).code = m.code := by
  induction n generalizing m with
  | zero => rfl
  | succ n ih => exact (ih m.next.2).trans (next_code m).1

theorem after_add (m : Machine) (n k : Nat) : m.after (n + k) = (m.after n).after k := by
  induction n generalizing m with
  | zero => rw [Nat.zero_add, after]
  | succ n ih =>
    rw [Nat.succ_add]
    exact ih m.next.2

theorem after_succ (m : Machine) (n : Nat) : m.after (n + 1) = (m.after n).next.2 :=
  after_add m n 1

theorem after_of_finished {x : Snapshot} (hs : m.status = .finished x) (n : Nat) :
    m.after n = m := by
  induction n with
  | zero => rfl
  | succ n ih => rw [after, (Call.finished hs).next_eq, ih]

end Next

/-- If the machine has finished, its snapshot is that of its frame. -/
def ShowsFrame (m : Machine) : Prop :=
  ∀ snapshot, m.status = .finished snapshot → snapshot = m.frame.snapshot

theorem ShowsFrame.next {m : Machine} (h : m.ShowsFrame) : m.next.2.ShowsFrame := by
  have hrunning : m.status = .running → ∀ frame, ShowsFrame { m with frame } := by
    intro hs frame snapshot hfinished
    rw [show m.status = .finished snapshot from hfinished] at hs
    cases hs
  generalize hnext : m.next = r
  cases next_eq_iff.mp hnext with
  | finished => exact h
  | outside => exact h
  | fault hs => exact hrunning hs _
  | refused hs => exact hrunning hs _
  | resumed =>
    intro snapshot hfinished
    simp only [statusAfter] at hfinished
    split at hfinished
    · cases hfinished
      rfl
    · cases hfinished

theorem ShowsFrame.after {m : Machine} (h : m.ShowsFrame) (n : Nat) : (m.after n).ShowsFrame := by
  induction n generalizing m with
  | zero => exact h
  | succ n ih => exact ih h.next

theorem showsFrame_ofCode (code : List Instr) (scope : Scope) : (ofCode code scope).ShowsFrame := by
  intro snapshot hfinished
  cases hfinished

end Machine

end MiniC.Stack
