import MiniC.Proofs.Stack.Faults
import MiniC.Proofs.Stack.Repetition

/-!
# Where jumps lead

A jump by `steps` goes on `steps + 1` instructions behind itself, and the sum is the exact one: only
the position at the end counts. Positions stop at `positionBound`, so a jump is refused on two
sides: before the first instruction, and from that bound on. The fault is the same for both.
-/

namespace MiniC.Stack

set_option autoImplicit false

/-- Where a jump from `index` by `steps` leads, over all integers. -/
def landing (index : Nat) (steps : Int64) : Int :=
  index + steps.toInt + 1

theorem resume?_eq_none_iff {index : Nat} {steps : Int64} :
    resume? index steps = none ↔
      landing index steps < 0 ∨ positionBound ≤ landing index steps := by
  unfold landing
  constructor
  · intro h
    by_cases hneg : (index + steps.toInt + 1 : Int) < 0
    · exact .inl hneg
    · apply Or.inr
      apply Int.not_lt.mp
      intro hlt
      have hsome : resume? index steps = some (index + steps.toInt + 1 : Int).toNat := by
        rw [resume?_eq_some_iff]
        omega
      rw [h] at hsome
      cases hsome
  · intro h
    cases hr : resume? index steps with
    | none => rfl
    | some target =>
      rw [resume?_eq_some_iff] at hr
      omega

namespace Machine

section Jump

variable {m : Machine} {instr : Instr} {steps : Int64} (hs : m.status = .running)
  (hi : m.code[m.index]? = some instr) (hj : m.frame.Jumps instr steps)
include hs hi hj

theorem next_of_target {target : Nat} (hr : resume? m.index steps = some target) :
    m.next = (.ok (), { m with index := target, frame := m.frame.spent instr }) := by
  have heof : instr ≠ .eof := by
    rcases hj with rfl | ⟨rfl, _⟩ <;> simp
  rw [(Call.resumed hs hi hj.execute_eq hr).next_eq, statusAfter, if_neg heof, ← hs]

theorem next_of_no_target (hr : resume? m.index steps = none) :
    m.next = (.error (.invalidJumpTarget m.index steps),
      { m with frame := m.frame.spent instr }) :=
  (Call.refused hs hi hj.execute_eq hr).next_eq

/-- Behind a jump past the code the machine stops in the next round. -/
theorem finish_of_target_outside {target : Nat} (hr : resume? m.index steps = some target)
    (hout : m.code.length ≤ target) (fuel : Nat) :
    finish (fuel + 2) m = some (.error .expectedEof, m.next.2) := by
  have hnext := next_of_target hs hi hj hr
  have hgo : GoesOn 1 m := .succ hnext hs (.zero _)
  have hrunning : m.next.2.status = .running := by
    rw [hnext]
    exact hs
  have houtside : m.next.2.next = (.error .expectedEof, m.next.2) := by
    rw [hnext]
    apply Call.next_eq
    exact .outside hs (List.getElem?_eq_none hout)
  rw [hgo.finish_add hs (fuel + 1), after, after, finish_succ hrunning, houtside]

end Jump

/-- A jump leads to the exact sum of its place, its steps and one, if that is a position; a run that
jumps past the end of the code fails there. The jump is refused exactly if the sum is negative or
reaches the bound of positions, and nothing else can go wrong with it. -/
theorem jump_leads {m : Machine} {instr : Instr} {steps : Int64} (hs : m.status = .running)
    (hi : m.code[m.index]? = some instr) (hj : m.frame.Jumps instr steps) :
    (0 ≤ landing m.index steps → landing m.index steps < positionBound →
      m.next.1 = .ok () ∧ m.next.2.index = landing m.index steps ∧
        (m.code.length ≤ landing m.index steps → ∀ start n, GoesOn n (reset start) →
          start.reset.after n = m → ∀ fuel,
          start.run (fuel + 2 + n) = some (.error .expectedEof, m.next.2))) ∧
    ∀ fault, m.next.1 = .error fault ↔ fault = .invalidJumpTarget m.index steps ∧
      (landing m.index steps < 0 ∨ positionBound ≤ landing m.index steps) := by
  refine ⟨?_, ?_⟩
  · intro hpos hbound
    obtain ⟨target, htarget⟩ := Int.eq_ofNat_of_zero_le hpos
    have hr : resume? m.index steps = some target := by
      rw [resume?_eq_some_iff, ← landing]
      omega
    have hnext := next_of_target hs hi hj hr
    refine ⟨by rw [hnext], by rw [hnext, htarget], ?_⟩
    intro hout start n hgo hafter fuel
    rw [run, hgo.finish_add rfl, hafter]
    exact finish_of_target_outside hs hi hj hr (by omega) fuel
  · intro fault
    rw [← resume?_eq_none_iff]
    cases hr : resume? m.index steps with
    | none =>
      rw [next_of_no_target hs hi hj hr]
      simp [eq_comm]
    | some target =>
      rw [next_of_target hs hi hj hr]
      simp

/-- A jump far past the end of its code, and one right before the beginning. -/
theorem jump_leads_outside :
    (ofCode [.jump 4] .empty).next.2.index = 5 ∧
      (ofCode [.jump 4] .empty).run 2 =
        some (.error .expectedEof, (ofCode [.jump 4] .empty).next.2) ∧
      (ofCode [.jump (-2)] .empty).next.1 = .error (.invalidJumpTarget 0 (-2)) := by
  obtain ⟨hforward, _⟩ := @jump_leads (ofCode [.jump 4] .empty) _ _ rfl rfl (.inl rfl)
  obtain ⟨_, hindex, hrun⟩ := hforward (by decide) (by decide)
  obtain ⟨_, hback⟩ := @jump_leads (ofCode [.jump (-2)] .empty) _ _ rfl rfl (.inl rfl)
  refine ⟨Int.ofNat.inj hindex, ?_, (hback _).mpr ⟨rfl, .inl (by decide)⟩⟩
  exact hrun (by decide) (ofCode [.jump 4] .empty) 0 (.zero _) rfl 0

/-- The longest jump leads far behind its code, and is refused all the same. -/
theorem jump_refused_forward :
    0 ≤ landing 0 Int64.maxValue ∧
      (ofCode [.jump Int64.maxValue] .empty).next.1 =
        .error (.invalidJumpTarget 0 Int64.maxValue) :=
  ⟨by decide, rfl⟩

end Machine

end MiniC.Stack
