import MiniC.Proofs.Stack.Calls

/-!
# Runs can be repeated

Whatever was done with a machine before, a run of it is the run of a fresh machine, and goes as
calling `next` on the reset machine does. No operation changes the code or the initial scope, and
`reset` looks at nothing else. Leaving the code needs no rule of its own: `next` fails there with
the fault of the run.
-/

namespace MiniC.Stack.Machine

set_option autoImplicit false

/-- What calls of `next`, `reset` and `run`, in any order, can make of a fresh machine. They may
have failed; a run counts when it has ended. -/
inductive Used (code : List Instr) (scope : Scope) : Machine → Prop where
  | fresh : Used code scope (ofCode code scope)
  | next {m : Machine} (h : Used code scope m) : Used code scope m.next.2
  | reset {m : Machine} (h : Used code scope m) : Used code scope m.reset
  | run {m m' : Machine} {fuel : Nat} {outcome : Except Fault Snapshot} (h : Used code scope m)
      (hrun : m.run fuel = some (outcome, m')) : Used code scope m'

/-- Calling `next` on `m` again and again, up to the first failure or until the machine has
finished, ends with `outcome` and leaves the machine `last`. -/
inductive Ends : Machine → Except Fault Snapshot → Machine → Prop where
  | fault {m last : Machine} {fault : Fault} (h : m.next = (.error fault, last)) :
      Ends m (.error fault) last
  | finished {m last : Machine} {snapshot : Snapshot} (h : m.next = (.ok (), last))
      (hs : last.status = .finished snapshot) : Ends m (.ok snapshot) last
  | more {m m' last : Machine} {outcome : Except Fault Snapshot} (h : m.next = (.ok (), m'))
      (hs : m'.status = .running) (hend : Ends m' outcome last) : Ends m outcome last

/-- `n` calls of `next` on `m` succeed and leave the machine running. -/
inductive GoesOn : Nat → Machine → Prop where
  | zero (m : Machine) : GoesOn 0 m
  | succ {n : Nat} {m m' : Machine} (h : m.next = (.ok (), m')) (hs : m'.status = .running)
      (hmore : GoesOn n m') : GoesOn (n + 1) m

section Kept

theorem finish_code {fuel : Nat} {m last : Machine} {outcome : Except Fault Snapshot}
    (h : finish fuel m = some (outcome, last)) :
    last.code = m.code ∧ last.initial = m.initial := by
  induction fuel generalizing m with
  | zero => cases h
  | succ fuel ih =>
    have hnext := next_code m
    rw [finish] at h
    split at h
    · split at h
      · rename_i m' heq
        rw [heq] at hnext
        cases h
        exact hnext
      · rename_i m' heq
        rw [heq] at hnext
        split at h
        · cases h
          exact hnext
        · obtain ⟨hcode, hinitial⟩ := ih h
          exact ⟨hcode.trans hnext.1, hinitial.trans hnext.2⟩
    · cases h
      exact ⟨rfl, rfl⟩

/-- Every operation keeps the code and the initial scope. -/
theorem Used.kept {code : List Instr} {scope : Scope} {m : Machine} (h : Used code scope m) :
    m.code = code ∧ m.initial = scope := by
  induction h with
  | fresh => exact ⟨rfl, rfl⟩
  | @next m _ ih => exact ⟨(next_code m).1.trans ih.1, (next_code m).2.trans ih.2⟩
  | reset _ ih => exact ih
  | run _ hrun ih =>
    obtain ⟨hcode, hinitial⟩ := finish_code hrun
    exact ⟨hcode.trans ih.1, hinitial.trans ih.2⟩

end Kept

/-- On a running machine a round is a call of `next`: behind the end of the code both stop with the
same fault. -/
theorem finish_succ {m : Machine} (hs : m.status = .running) (fuel : Nat) :
    finish (fuel + 1) m = match m.next with
      | (.error fault, m') => some (.error fault, m')
      | (.ok _, m') =>
        match m'.status with
        | .finished snapshot => some (.ok snapshot, m')
        | .running => finish fuel m' := by
  rw [finish]
  split
  · rfl
  · rename_i hlast
    have hnone : m.code[m.index]? = none := List.getElem?_eq_none (Nat.le_of_not_lt hlast)
    have hnext : m.next = (.error .expectedEof, m) := by
      unfold next
      rw [hs, hnone]
    rw [hnext]

theorem ends_of_finish {fuel : Nat} {m last : Machine} {outcome : Except Fault Snapshot}
    (hs : m.status = .running) (h : finish fuel m = some (outcome, last)) :
    Ends m outcome last := by
  induction fuel generalizing m with
  | zero => cases h
  | succ fuel ih =>
    rw [finish_succ hs] at h
    split at h
    · rename_i hnext
      cases h
      exact .fault hnext
    · rename_i hnext
      split at h
      · rename_i hfinished
        cases h
        exact .finished hnext hfinished
      · rename_i hrunning
        exact .more hnext hrunning (ih hrunning h)

theorem finish_of_ends {m last : Machine} {outcome : Except Fault Snapshot}
    (hs : m.status = .running) (h : Ends m outcome last) :
    ∃ fuel, finish fuel m = some (outcome, last) := by
  induction h with
  | fault hnext =>
    refine ⟨1, ?_⟩
    rw [finish_succ hs, hnext]
  | finished hnext hfinished =>
    refine ⟨1, ?_⟩
    rw [finish_succ hs, hnext]
    simp only [hfinished]
  | more hnext hrunning _ ih =>
    obtain ⟨fuel, hfuel⟩ := ih hrunning
    refine ⟨fuel + 1, ?_⟩
    rw [finish_succ hs, hnext]
    simp only [hrunning, hfuel]

/-- A run that is not over after `n` rounds has made `n` calls of `next`, and goes on. -/
theorem finish_eq_none_iff {m : Machine} (hs : m.status = .running) (n : Nat) :
    finish n m = none ↔ GoesOn n m := by
  induction n generalizing m with
  | zero => exact iff_of_true rfl (.zero m)
  | succ n ih =>
    rw [finish_succ hs]
    constructor
    · intro h
      split at h
      · cases h
      · rename_i hnext
        split at h
        · cases h
        · rename_i hrunning
          exact .succ hnext hrunning ((ih hrunning).mp h)
    · intro h
      cases h with
      | succ hnext hrunning hmore =>
        rw [hnext]
        simp only [hrunning]
        exact (ih hrunning).mpr hmore

theorem GoesOn.add {n k : Nat} {m : Machine} (h : GoesOn n m) (hmore : GoesOn k (m.after n)) :
    GoesOn (n + k) m := by
  induction h with
  | zero => rwa [Nat.zero_add]
  | @succ n m m' hnext hs _ ih =>
    rw [after, hnext] at hmore
    rw [Nat.succ_add]
    exact .succ hnext hs (ih hmore)

/-- Rounds that go on can be taken off the allowance of a run. -/
theorem GoesOn.finish_add {n : Nat} {m : Machine} (h : GoesOn n m) (hs : m.status = .running)
    (fuel : Nat) : finish (fuel + n) m = finish fuel (m.after n) := by
  induction h with
  | zero => rfl
  | @succ n m m' hnext hrunning _ ih =>
    rw [← Nat.add_assoc, finish_succ hs, after, hnext]
    simp only [hrunning]
    exact ih hrunning

/-- A run of a machine that was used before is the run of a fresh machine with the same code and
scope: with every allowance of rounds it ends with the same outcome in the same machine, or does not
end. It ends exactly as calling `next` on the reset machine does, up to the first failure or until
that machine has finished, and it does not end exactly if these calls go on forever. -/
theorem run_eq_run_fresh {code : List Instr} {scope : Scope} {m : Machine}
    (h : Used code scope m) :
    (∀ fuel, m.run fuel = (ofCode code scope).run fuel) ∧
    (∀ outcome last, (∃ fuel, m.run fuel = some (outcome, last)) ↔ Ends m.reset outcome last) ∧
    ((∀ fuel, m.run fuel = none) ↔ ∀ n, GoesOn n m.reset) := by
  obtain ⟨hcode, hinitial⟩ := h.kept
  have hreset : m.reset = (ofCode code scope).reset := by
    rw [reset, hcode, hinitial]
    rfl
  have hrunning : m.reset.status = .running := rfl
  refine ⟨?_, ?_, ?_⟩
  · intro fuel
    rw [run, hreset, run]
  · intro outcome last
    constructor
    · rintro ⟨fuel, hrun⟩
      exact ends_of_finish hrunning hrun
    · exact finish_of_ends hrunning
  · exact forall_congr' fun fuel => finish_eq_none_iff hrunning fuel

def countUp : List Instr :=
  [.load "a", .constant (.int 1), .arith .add, .assign "a", .eof]

def aIsOne : Scope :=
  .ofVariables [("a", .int 1)]

/-- After a run, and a failed call behind it, the variable is counted up from 1 again. -/
theorem run_countUp_again :
    ∃ last, (ofCode countUp aIsOne).run 5 = some (.ok ⟨none, [("a", "2")], [], none⟩, last) ∧
      last.next.1 = .error .unexpectedState ∧
      last.next.2.run 5 = some (.ok ⟨none, [("a", "2")], [], none⟩, last) ∧
      Ends last.next.2.reset (.ok ⟨none, [("a", "2")], [], none⟩) last := by
  obtain ⟨last, hrun, hnext⟩ : ∃ last, (ofCode countUp aIsOne).run 5 =
      some (.ok ⟨none, [("a", "2")], [], none⟩, last) ∧ last.next.1 = .error .unexpectedState :=
    ⟨_, rfl, rfl⟩
  obtain ⟨heq, hends, _⟩ := run_eq_run_fresh (.next (.run .fresh hrun))
  have hagain := (heq 5).trans hrun
  exact ⟨last, hrun, hnext, hagain, (hends _ _).mp ⟨5, hagain⟩⟩

end MiniC.Stack.Machine
