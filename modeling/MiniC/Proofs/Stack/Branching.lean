import MiniC.Proofs.Stack.Faults

/-!
# Comparisons and branches

A comparison sets the flag and a conditional jump that branches clears it; every other call leaves
it alone, failed ones included. So a branch goes back to the last comparison before it, and no other
branch goes back to the same one.
-/

namespace MiniC.Stack

set_option autoImplicit false

namespace Machine

variable {m : Machine} {holds : Bool}

/-- The next call finds a conditional jump and the flag that lets it branch. Its target may be
refused. -/
def Branches (m : Machine) : Prop :=
  m.status = .running ∧ m.frame.flag = some false ∧
    ∃ steps, m.code[m.index]? = some (.jumpIfFalse steps)

/-- The next call compares two values, and `holds` is the outcome. -/
def Compares (m : Machine) (holds : Bool) : Prop :=
  m.status = .running ∧ ∃ c left right stack, m.code[m.index]? = some (.compare c) ∧
    m.frame.stack = right :: left :: stack ∧ left.compare c right = .ok holds

/-- The next call neither compares nor branches. -/
def KeepsFlag (m : Machine) : Prop :=
  ¬ m.Branches ∧ ∀ holds, ¬ m.Compares holds

theorem Branches.flag_next (h : m.Branches) : m.next.2.frame.flag = none := by
  obtain ⟨hs, hflag, steps, hi⟩ := h
  rw [frame_next hs hi, Frame.execute, if_pos hflag]

theorem Compares.flag_next (h : m.Compares holds) : m.next.2.frame.flag = some holds := by
  obtain ⟨hs, c, left, right, stack, hi, hstack, hholds⟩ := h
  rw [frame_next hs hi, Frame.execute, hstack]
  simp only [hholds, Frame.setFlag]

theorem KeepsFlag.flag_next (h : m.KeepsFlag) : m.next.2.frame.flag = m.frame.flag := by
  rcases next_cases m with ⟨hidle, _⟩ | ⟨instr, hs, hi, hframe, _⟩
  · rw [hidle]
  · rw [hframe]
    cases instr with
    | constant | jump | eof => rfl
    | load name =>
      simp only [Frame.execute]
      split <;> rfl
    | assign | ret =>
      simp only [Frame.execute]
      split <;> rfl
    | negate =>
      simp only [Frame.execute]
      split
      · rename_i value stack _
        cases value.negate <;> rfl
      · rfl
    | arith op =>
      simp only [Frame.execute]
      split
      · rename_i right left stack _
        cases left.arith op right <;> rfl
      · rfl
    | compare c =>
      simp only [Frame.execute]
      split
      · rename_i right left stack hstack
        cases hc : left.compare c right with
        | error e => rfl
        | ok holds => exact absurd ⟨hs, c, left, right, stack, hi, hstack, hc⟩ (h.2 holds)
      · rfl
    | jumpIfFalse steps =>
      have hflag : m.frame.flag ≠ some false := by
        intro hflag
        exact h.1 ⟨hs, hflag, steps, hi⟩
      rw [Frame.execute, if_neg hflag]

theorem keepsFlag_or (m : Machine) : m.KeepsFlag ∨ m.Branches ∨ ∃ holds, m.Compares holds := by
  by_cases hb : m.Branches
  · exact .inr (.inl hb)
  · by_cases hc : ∃ holds, m.Compares holds
    · exact .inr (.inr hc)
    · exact .inl ⟨hb, not_exists.mp hc⟩

/-- Where the flag has come to be false, a comparison has made it so, and nothing has touched it
since. -/
theorem exists_compares {n : Nat} (hstart : m.frame.flag ≠ some false)
    (h : (m.after n).frame.flag = some false) :
    ∃ k < n, (m.after k).Compares false ∧ ∀ i, k < i → i < n → (m.after i).KeepsFlag := by
  induction n with
  | zero => exact absurd h hstart
  | succ n ih =>
    rw [after_succ] at h
    rcases keepsFlag_or (m.after n) with hkeeps | hbranches | ⟨holds, hcompares⟩
    · rw [hkeeps.flag_next] at h
      obtain ⟨k, hk, hcompares, hbetween⟩ := ih h
      refine ⟨k, by omega, hcompares, ?_⟩
      intro i hki hi
      rcases Nat.lt_succ_iff_lt_or_eq.mp hi with hi | rfl
      · exact hbetween i hki hi
      · exact hkeeps
    · rw [hbranches.flag_next] at h
      cases h
    · rw [hcompares.flag_next] at h
      cases h
      refine ⟨n, Nat.lt_succ_self n, hcompares, ?_⟩
      intro i hni hi
      omega

theorem exists_compares_between {i j : Nat} (hij : i < j) (hi : (m.after i).Branches)
    (hj : (m.after j).Branches) : ∃ k, i < k ∧ k < j ∧ (m.after k).Compares false := by
  obtain ⟨d, rfl⟩ := Nat.exists_eq_add_of_lt hij
  have hafter : ∀ k, m.after (i + 1 + k) = (m.after (i + 1)).after k := after_add m (i + 1)
  have hcleared : (m.after (i + 1)).frame.flag = none := by
    rw [after_succ]
    exact hi.flag_next
  have hflag : ((m.after (i + 1)).after d).frame.flag = some false := by
    rw [← hafter, Nat.add_right_comm]
    exact hj.2.1
  obtain ⟨k, hk, hcompares, _⟩ := exists_compares (by simp [hcleared]) hflag
  rw [← hafter] at hcompares
  exact ⟨i + 1 + k, by omega, by omega, hcompares⟩

theorem Compares.next_ok (h : m.Compares holds) (hlength : m.code.length < positionBound) :
    m.next.1 = .ok () := by
  obtain ⟨hs, c, left, right, stack, hi, hstack, hholds⟩ := h
  have hindex := (List.getElem?_eq_some_iff.mp hi).1
  have he : m.frame.execute (.compare c) = (.ok 0, { m.frame with stack, flag := some holds }) := by
    simp only [Frame.execute, hstack, hholds, Frame.setFlag]
  rw [(Call.resumed hs hi he (resume?_zero hindex hlength)).next_eq]

/-- A comparison drives at most one branch. In the calls from a fresh machine on, whether they
succeed or fail, a comparison with the outcome `false` stands between any two branches, and one also
before the first; from there to the branch nothing touches the flag. Only comparisons that have an
outcome and branches change it: a conditional jump that does not branch leaves it as it is. -/
theorem branch_per_comparison (code : List Instr) (scope : Scope) :
    let m n := (ofCode code scope).after n
    (∀ i j, i < j → (m i).Branches → (m j).Branches → ∃ k, i < k ∧ k < j ∧ (m k).Compares false) ∧
    (∀ j, (m j).Branches →
      ∃ k < j, (m k).Compares false ∧ ∀ i, k < i → i < j → (m i).KeepsFlag) ∧
    (∀ n steps, (m n).code[(m n).index]? = some (.jumpIfFalse steps) → ¬ (m n).Branches →
      (m n).next.2.frame.flag = (m n).frame.flag) ∧
    (∀ n, (m n).next.2.frame.flag ≠ (m n).frame.flag →
      (m n).Branches ∨ ∃ holds, (m n).Compares holds) ∧
    ∀ n holds, (m n).Compares holds → code.length < positionBound → (m n).next.1 = .ok () := by
  intro m
  refine ⟨?_, ?_, ?_, ?_, ?_⟩
  · intro i j hij hi hj
    exact exists_compares_between hij hi hj
  · intro j hj
    exact exists_compares nofun hj.2.1
  · intro n steps hi hbranches
    apply KeepsFlag.flag_next
    refine ⟨hbranches, ?_⟩
    rintro holds ⟨_, c, _, _, _, hi', _⟩
    rw [hi] at hi'
    cases hi'
  · intro n hchanged
    rcases keepsFlag_or (m n) with hkeeps | hdone
    · exact absurd hkeeps.flag_next hchanged
    · exact hdone
  · intro n holds hcompares hlength
    apply hcompares.next_ok
    rw [after_code]
    exact hlength

/-- Two comparisons, and behind each a jump. The second jump leads to no position. -/
def comparedTwice : List Instr :=
  [.constant (.int 1), .constant (.int 2), .compare .equal, .jumpIfFalse 0, .constant (.int 1),
    .constant (.int 2), .compare .equal, .jumpIfFalse (-9)]

/-- Both jumps branch, one after each comparison. Called again, the refused one finds no flag. -/
theorem branch_per_comparison_twice :
    let m n := (ofCode comparedTwice .empty).after n
    ((m 3).Branches ∧ (m 7).Branches ∧ (m 7).next.1 = .error (.invalidJumpTarget 7 (-9))) ∧
      (∃ k, 3 < k ∧ k < 7 ∧ (m k).Compares false) ∧
      (¬ (m 8).Branches ∧ (m 8).next.2.frame.flag = (m 8).frame.flag) ∧
      (m 6).next.1 = .ok () := by
  intro m
  obtain ⟨hbetween, _, hkept, _, hok⟩ := branch_per_comparison comparedTwice .empty
  have hfirst : (m 3).Branches := ⟨rfl, rfl, _, rfl⟩
  have hsecond : (m 7).Branches := ⟨rfl, rfl, _, rfl⟩
  have hagain : ¬ (m 8).Branches := by
    rintro ⟨_, hflag, _⟩
    cases hflag
  have hcompares : (m 6).Compares false := ⟨rfl, .equal, .int 1, .int 2, [], rfl, rfl, rfl⟩
  refine ⟨⟨hfirst, hsecond, rfl⟩, hbetween 3 7 (by decide) hfirst hsecond,
    ⟨hagain, hkept 8 (-9) rfl hagain⟩, hok 6 false hcompares (by decide)⟩

end Machine

end MiniC.Stack
