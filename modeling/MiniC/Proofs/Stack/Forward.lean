import MiniC.Proofs.Stack.Reports

/-!
# Code that goes forward

Where no jump goes back, every executed instruction leaves the machine further on in its code. So a
run executes instructions at increasing places, none of them twice, and ends before it has made more
calls than there are instructions. A jump that is too long for a position is refused, and that ends
the run as well.
-/

namespace MiniC.Stack

set_option autoImplicit false

def Instr.isForward : Instr → Bool
  | .jump steps | .jumpIfFalse steps => 0 ≤ steps.toInt
  | _ => true

theorem Frame.skips_nonneg {instr : Instr} (h : instr.isForward) (f : Frame) :
    0 ≤ f.skips instr := by
  cases instr with
  | jump steps => exact of_decide_eq_true h
  | jumpIfFalse steps =>
    rw [skips]
    split
    · exact of_decide_eq_true h
    · exact Int.le_refl 0
  | _ => exact Int.le_refl 0

namespace Machine

variable {m m' last : Machine} {places : List Nat} {outcome : Except Fault Snapshot}

/-- The rounds of a run, from the machine `m` on. They call `next` at `places`, one after the other,
and end with `outcome` in the machine `last`. A machine that has left its code is not called. -/
inductive Runs : Machine → List Nat → Except Fault Snapshot → Machine → Prop where
  | outside {m : Machine} (hi : m.code.length ≤ m.index) : Runs m [] (.error .expectedEof) m
  | fault {m last : Machine} {fault : Fault} (hi : m.index < m.code.length)
    (h : m.next = (.error fault, last)) : Runs m [m.index] (.error fault) last
  | finished {m last : Machine} {snapshot : Snapshot} (hi : m.index < m.code.length)
    (h : m.next = (.ok (), last)) (hs : last.status = .finished snapshot) :
    Runs m [m.index] (.ok snapshot) last
  | more {m m' last : Machine} {places : List Nat} {outcome : Except Fault Snapshot}
    (hi : m.index < m.code.length) (h : m.next = (.ok (), m')) (hs : m'.status = .running)
    (hmore : Runs m' places outcome last) : Runs m (m.index :: places) outcome last

theorem Runs.finish_eq (h : Runs m places outcome last) {fuel : Nat}
    (hfuel : places.length ≤ fuel) : finish (fuel + 1) m = some (outcome, last) := by
  -- one round more than there are calls, since the last round may make none
  induction h generalizing fuel with
  | outside hi => rw [finish, if_neg (Nat.not_lt.mpr hi)]
  | fault hi h => rw [finish, if_pos hi, h]
  | finished hi h hs =>
    rw [finish, if_pos hi, h]
    simp only [hs]
  | more hi h hs _ ih =>
    cases fuel with
    | zero => cases hfuel
    | succ fuel =>
      rw [finish, if_pos hi, h]
      simp only [hs]
      exact ih (Nat.le_of_succ_le_succ hfuel)

theorem code_of_ok (h : m.next = (.ok (), m')) : m'.code = m.code := by
  have hcode := (next_code m).1
  rw [h] at hcode
  exact hcode

theorem index_lt_of_ok (hforward : ∀ instr ∈ m.code, instr.isForward)
    (h : m.next = (.ok (), m')) : m.index < m'.index := by
  have hskips : 0 ≤ m.skips := by
    unfold skips
    cases hi : m.code[m.index]? with
    | some instr => exact Frame.skips_nonneg (hforward instr (List.mem_of_getElem? hi)) m.frame
    | none => exact Int.le_refl 0
  obtain ⟨_, _, _, hindex⟩ := executes_of_ok h
  omega

theorem exists_runs (m : Machine) (hforward : ∀ instr ∈ m.code, instr.isForward) :
    ∃ places outcome last, Runs m places outcome last := by
  by_cases hi : m.index < m.code.length
  · rcases hnext : m.next with ⟨result, m'⟩
    cases result with
    | error fault => exact ⟨_, _, _, .fault hi hnext⟩
    | ok done =>
      cases hs : m'.status with
      | finished snapshot => exact ⟨_, _, _, .finished hi hnext hs⟩
      | running =>
        have hcode := code_of_ok hnext
        have hlt := index_lt_of_ok hforward hnext
        obtain ⟨places, outcome, last, hmore⟩ := exists_runs m' (hcode ▸ hforward)
        exact ⟨_, _, _, .more hi hnext hs hmore⟩
  · exact ⟨_, _, _, .outside (Nat.le_of_not_lt hi)⟩
termination_by m.code.length - m.index
decreasing_by
  rw [hcode]
  omega

theorem Runs.places_increasing (h : Runs m places outcome last)
    (hforward : ∀ instr ∈ m.code, instr.isForward) :
    places.Pairwise (· < ·) ∧ (∀ i ∈ places, m.index ≤ i ∧ i < m.code.length) ∧
      places.length ≤ m.code.length - m.index := by
  induction h with
  | outside => exact ⟨.nil, by simp, Nat.zero_le _⟩
  | fault hi | finished hi =>
    refine ⟨List.pairwise_singleton _ _, ?_, Nat.sub_pos_of_lt hi⟩
    intro i hmem
    rw [List.mem_singleton.mp hmem]
    exact ⟨Nat.le_refl _, hi⟩
  | @more m m' last places outcome hi h hs _ ih =>
    have hcode := code_of_ok h
    have hlt := index_lt_of_ok hforward h
    obtain ⟨hincreasing, hinside, hlength⟩ := ih (hcode ▸ hforward)
    rw [hcode] at hinside hlength
    have hbehind : ∀ i ∈ places, m.index < i := by
      intro i hmem
      exact Nat.lt_of_lt_of_le hlt (hinside i hmem).1
    refine ⟨List.pairwise_cons.mpr ⟨hbehind, hincreasing⟩, ?_, ?_⟩
    · intro i hmem
      rcases List.mem_cons.mp hmem with rfl | hmem
      · exact ⟨Nat.le_refl _, hi⟩
      · exact ⟨Nat.le_of_lt (hbehind i hmem), (hinside i hmem).2⟩
    · rw [List.length_cons]
      omega

/-- A run of code whose jumps all go forward ends, with a snapshot or a fault, and it does so with
every allowance of more rounds than it makes calls. It calls `next` at increasing places of the
code, so no instruction is executed twice, and there are at most as many calls as instructions. -/
theorem forward_run_ends (hforward : ∀ instr ∈ m.code, instr.isForward) :
    (∃ places outcome last, Runs m.reset places outcome last) ∧
    ∀ places outcome last, Runs m.reset places outcome last →
      (∀ fuel ≥ places.length, m.run (fuel + 1) = some (outcome, last)) ∧
      places.length ≤ m.code.length ∧ places.Pairwise (· < ·) ∧
      ∀ i ∈ places, i < m.code.length := by
  refine ⟨exists_runs m.reset hforward, ?_⟩
  intro places outcome last hruns
  obtain ⟨hincreasing, hinside, hlength⟩ := hruns.places_increasing hforward
  exact ⟨fun _ hfuel => hruns.finish_eq hfuel, hlength, hincreasing, fun i hi => (hinside i hi).2⟩

/-- Jumps over an instruction, finds no flag to branch on, and jumps too far. -/
def leaps : List Instr :=
  [.jump 1, .ret, .jumpIfFalse 5, .jump Int64.maxValue, .eof]

/-- The run ends with its third call: the last jump is refused. -/
theorem forward_run_ends_leaps :
    (∀ instr ∈ leaps, instr.isForward) ∧
    ∃ last, Runs (ofCode leaps .empty) [0, 2, 3]
        (.error (.invalidJumpTarget 3 Int64.maxValue)) last ∧
      ∀ fuel ≥ 3, (ofCode leaps .empty).run (fuel + 1) =
        some (.error (.invalidJumpTarget 3 Int64.maxValue), last) := by
  have hforward : ∀ instr ∈ leaps, instr.isForward := by decide
  have hruns : Runs (ofCode leaps .empty) [0, 2, 3]
      (.error (.invalidJumpTarget 3 Int64.maxValue)) _ :=
    .more (by decide) rfl rfl (.more (by decide) rfl rfl (.fault (by decide) rfl))
  obtain ⟨_, hall⟩ := @forward_run_ends (ofCode leaps .empty) hforward
  exact ⟨hforward, _, hruns, (hall _ _ _ hruns).1⟩

end Machine

end MiniC.Stack
