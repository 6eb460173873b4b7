import MiniC.Proofs.Stack.Repetition

/-!
# Finished machines

A machine finishes at an `eof` and stays there: its snapshot is what it would show now, and `next`
fails without touching it. Whatever was called before, a machine is in a state that a fresh one
reaches by calls of `next` alone, since `reset` and `run` begin at the fresh machine.
-/

namespace MiniC.Stack.Machine

set_option autoImplicit false

variable {m last : Machine} {code : List Instr} {scope : Scope}

theorem Ends.exists_after {outcome : Except Fault Snapshot} (h : Ends m outcome last) :
    ∃ n, last = m.after n := by
  induction h with
  | fault h | finished h =>
    refine ⟨1, ?_⟩
    rw [after, after, h]
  | more h _ _ ih =>
    obtain ⟨n, hn⟩ := ih
    refine ⟨n + 1, ?_⟩
    rw [after, h, hn]

theorem Used.reset_eq (h : Used code scope m) : m.reset = ofCode code scope := by
  rw [Machine.reset, h.kept.1, h.kept.2]

theorem Used.exists_after (h : Used code scope m) : ∃ n, m = (ofCode code scope).after n := by
  induction h with
  | fresh => exact ⟨0, rfl⟩
  | next _ ih =>
    obtain ⟨n, rfl⟩ := ih
    exact ⟨n + 1, (after_succ _ n).symm⟩
  | reset h _ => exact ⟨0, h.reset_eq⟩
  | run h hrun _ =>
    rw [Machine.run, h.reset_eq] at hrun
    exact (ends_of_finish rfl hrun).exists_after

/-- If the machine has finished, it stands right behind an `eof`. -/
def BehindEof (m : Machine) : Prop :=
  ∀ x, m.status = .finished x → ∃ i, m.index = i + 1 ∧ m.code[i]? = some .eof

theorem BehindEof.next (h : m.BehindEof) : m.next.2.BehindEof := by
  intro x hx
  generalize hnext : m.next = r at hx ⊢
  cases next_eq_iff.mp hnext with
  | finished | outside => exact h x hx
  | fault hs | refused hs =>
    rw [show m.status = .finished x from hx] at hs
    cases hs
  | @resumed instr steps frame index hs hi he hr =>
    by_cases heof : instr = .eof
    · subst heof
      cases he
      obtain ⟨htarget, _⟩ := resume?_eq_some_iff.mp hr
      have hzero : (0 : Int64).toInt = 0 := rfl
      have hindex : index = m.index + 1 := by omega
      exact ⟨m.index, hindex, hi⟩
    · simp only [statusAfter, if_neg heof] at hx
      cases hx

theorem BehindEof.after (h : m.BehindEof) (n : Nat) : (m.after n).BehindEof := by
  induction n generalizing m with
  | zero => exact h
  | succ n ih => exact ih h.next

/-- A machine that has finished, after any calls of `next`, `reset` and `run`, shows what is there:
the snapshot has no output, the bindings of its scope, its stack from the bottom, and its result. It
stands right behind an `eof`. However often `next` is called then, it fails and changes nothing;
`reset` makes the machine a fresh one. -/
theorem finished_stays {x : Snapshot} (h : Used code scope m) (hs : m.status = .finished x) :
    (x.output = none ∧ x.memory = m.frame.scope.dump ∧ x.stack = m.frame.stack.reverse ∧
      x.result = m.frame.result) ∧
    (∃ i, m.index = i + 1 ∧ code[i]? = some .eof) ∧
    (∀ n, m.after n = m ∧ (m.after n).next = (.error .unexpectedState, m)) ∧
    m.reset = ofCode code scope := by
  obtain ⟨n, hn⟩ := h.exists_after
  have hshows : m.ShowsFrame := by
    rw [hn]
    exact (showsFrame_ofCode code scope).after n
  have hbehind : m.BehindEof := by
    rw [hn]
    apply BehindEof.after
    intro x hx
    cases hx
  refine ⟨?_, ?_, ?_, h.reset_eq⟩
  · rw [hshows x hs]
    exact ⟨rfl, rfl, rfl, rfl⟩
  · rw [← h.kept.1]
    exact hbehind x hs
  · intro n
    rw [after_of_finished hs]
    exact ⟨rfl, (Call.finished hs).next_eq⟩

/-- Keeps a result, and leaves a value on the stack. -/
def resultAndRest : List Instr :=
  [.constant (.int 7), .ret, .constant (.int 1), .eof]

/-- Finished by a run behind a failed call, the machine stands behind its last instruction. -/
theorem finished_stays_resultAndRest :
    ∃ last, ((ofCode resultAndRest .empty).after 5).run 4 =
        some (.ok ⟨none, [], [.int 1], some (.int 7)⟩, last) ∧
      last.frame.stack.reverse = [.int 1] ∧ last.frame.result = some (.int 7) ∧
      (∃ i, last.index = i + 1 ∧ resultAndRest[i]? = some .eof) ∧
      ∀ n, (last.after n).next = (.error .unexpectedState, last) := by
  obtain ⟨last, hrun, hs⟩ : ∃ last, ((ofCode resultAndRest .empty).after 5).run 4 =
      some (.ok ⟨none, [], [.int 1], some (.int 7)⟩, last) ∧
        last.status = .finished ⟨none, [], [.int 1], some (.int 7)⟩ := ⟨_, rfl, rfl⟩
  have hused : Used resultAndRest .empty last :=
    .run (.next (.next (.next (.next (.next .fresh))))) hrun
  obtain ⟨⟨_, _, hstack, hresult⟩, hbehind, hstays, _⟩ := finished_stays hused hs
  exact ⟨last, hrun, hstack.symm, hresult.symm, hbehind, fun n => (hstays n).2⟩

end MiniC.Stack.Machine
