import Mathlib.Data.List.TakeWhile

/-!
# Runs of characters

A run is a stretch of characters of one class that stands before a character of another class, or
before the end. A text has only one run of a class at its head.
-/

namespace MiniC.Text

set_option autoImplicit false

variable {p : Char → Bool} {run run' rest rest' more : List Char} {c : Char}

theorem takeWhile_run (hrun : ∀ d ∈ run, p d) (hrest : ∀ d ∈ rest.head?, ¬ p d) :
    (run ++ rest).takeWhile p = run := by
  rw [List.takeWhile_append_of_pos hrun]
  cases rest with
  | nil => simp
  | cons d rest => simp [hrest d rfl]

theorem dropWhile_run (hrun : ∀ d ∈ run, p d) (hrest : ∀ d ∈ rest.head?, ¬ p d) :
    (run ++ rest).dropWhile p = rest := by
  rw [List.dropWhile_append_of_pos hrun]
  cases rest with
  | nil => simp
  | cons d rest => simp [hrest d rfl]

theorem length_le_of_run (hrun : ∀ d ∈ run, p d) (hrest : ∀ d ∈ rest.head?, ¬ p d)
    (hrun' : ∀ d ∈ run', p d) (hp : run' <+: run ++ rest) : run'.length ≤ run.length := by
  obtain ⟨back, hback⟩ := hp
  have htake := congrArg (List.takeWhile p) hback
  rw [takeWhile_run hrun hrest, List.takeWhile_append_of_pos hrun'] at htake
  rw [← htake, List.length_append]
  exact Nat.le_add_right ..

/-- A text has one longest run at its head. -/
theorem run_unique (hrun : ∀ d ∈ run, p d) (hrest : ∀ d ∈ rest.head?, ¬ p d)
    (hrun' : ∀ d ∈ run', p d) (hrest' : ∀ d ∈ rest'.head?, ¬ p d)
    (he : run ++ rest = run' ++ rest') : run = run' ∧ rest = rest' := by
  have htake := congrArg (List.takeWhile p) he
  rw [takeWhile_run hrun hrest, takeWhile_run hrun' hrest'] at htake
  subst htake
  exact ⟨rfl, List.append_cancel_left he⟩

theorem prefix_of_run (hrun : ∀ d ∈ run, p d) (hrest : ∀ d ∈ rest.head?, ¬ p d)
    (hrun' : ∀ d ∈ run', p d) (hc : ¬ p c) (hp : run' ++ c :: more <+: run ++ rest) :
    run' = run ∧ c :: more <+: rest := by
  obtain ⟨back, hback⟩ := hp
  rw [List.append_assoc] at hback
  have hstop : ∀ d ∈ (c :: more ++ back).head?, ¬ p d := by
    intro d hd
    cases hd
    exact hc
  obtain ⟨rfl, hrest'⟩ := run_unique hrun' hstop hrun hrest hback
  exact ⟨rfl, back, hrest'⟩

theorem run_of_not_mem (h : c ∉ run) : ∀ d ∈ run, (d ≠ c : Bool) := by
  intro d hd
  rw [decide_eq_true_eq]
  rintro rfl
  exact h hd

theorem head?_dropWhile (p : Char → Bool) (cs : List Char) :
    ∀ d ∈ (cs.dropWhile p).head?, ¬ p d := by
  intro d hd
  have hnot := List.head?_dropWhile_not p cs
  rw [Option.mem_def.mp hd] at hnot
  simp [hnot]

end MiniC.Text
