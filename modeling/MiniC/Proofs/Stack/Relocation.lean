import MiniC.Proofs.Stack.Calls

/-!
# Code can stand anywhere

Jumps count instructions from their own place, so a piece of code does the same wherever it stands
in a larger program, as long as it is not left. Only a jump to a place before the piece may differ:
alone it is refused, in the larger program there may be something to go to.
-/

namespace MiniC.Stack

set_option autoImplicit false

theorem resume?_add {index target : Nat} {steps : Int64} (offset : Nat)
    (h : resume? index steps = some target) (hbound : offset + target < positionBound) :
    resume? (offset + index) steps = some (offset + target) := by
  rw [resume?_eq_some_iff] at h ⊢
  omega

namespace Machine

/-- The machine in the same state, with its code between `front` and `back`. -/
def embed (front back : List Instr) (initial : Scope) (m : Machine) : Machine :=
  ⟨front ++ m.code ++ back, initial, front.length + m.index, m.status, m.frame⟩

/-- The next call executes an instruction of the code and goes on in the code or right behind it. -/
def Inside (m : Machine) : Prop :=
  m.index < m.code.length ∧ m.next.1.isOk ∧ m.next.2.index ≤ m.code.length

instance (m : Machine) : Decidable m.Inside :=
  inferInstanceAs (Decidable (_ ∧ _))

section Embed

variable {m m' : Machine} {instr : Instr} {front back : List Instr} {initial : Scope}

theorem getElem?_embed (h : m.code[m.index]? = some instr) :
    (m.embed front back initial).code[(m.embed front back initial).index]? = some instr := by
  obtain ⟨hindex, _⟩ := List.getElem?_eq_some_iff.mp h
  simp only [embed]
  rw [List.append_assoc, List.getElem?_append_right (by omega), Nat.add_sub_cancel_left,
    List.getElem?_append_left hindex, h]

theorem next_embed_of_ok (hlength : (front ++ m.code ++ back).length < positionBound)
    (h : m.next = (.ok (), m')) (hindex : m'.index ≤ m.code.length) :
    (m.embed front back initial).next = (.ok (), m'.embed front back initial) := by
  cases next_eq_iff.mp h with
  | @resumed instr steps frame index hs hi he hr =>
    have hbound : front.length + index < positionBound := by
      simp only [List.length_append] at hlength hindex
      omega
    apply Call.next_eq
    exact .resumed hs (getElem?_embed hi) he (resume?_add front.length hr hbound)

theorem next_embed_of_error {fault : Fault} (hindex : m.index < m.code.length)
    (h : m.next = (.error fault, m'))
    (hjump : ∀ index steps, fault ≠ .invalidJumpTarget index steps) :
    (m.embed front back initial).next = (.error fault, m'.embed front back initial) := by
  cases next_eq_iff.mp h with
  | finished hs =>
    apply Call.next_eq
    exact .finished hs
  | outside _ hi =>
    rw [List.getElem?_eq_none_iff] at hi
    omega
  | fault hs hi he =>
    apply Call.next_eq
    exact .fault hs (getElem?_embed hi) he
  | refused => exact absurd rfl (hjump _ _)

theorem next_embed_of_inside (hlength : (front ++ m.code ++ back).length < positionBound)
    (h : m.Inside) :
    (m.embed front back initial).next = (.ok (), m.next.2.embed front back initial) := by
  obtain ⟨_, hok, hindex⟩ := h
  rcases hnext : m.next with ⟨fault | _, m'⟩
  · rw [hnext] at hok
    cases hok
  · rw [hnext] at hindex
    exact next_embed_of_ok hlength hnext hindex

theorem after_embed (hlength : (front ++ m.code ++ back).length < positionBound) {n : Nat}
    (h : ∀ k < n, (m.after k).Inside) :
    (m.embed front back initial).after n = (m.after n).embed front back initial := by
  induction n generalizing m with
  | zero => rfl
  | succ n ih =>
    have hnext : (m.embed front back initial).next = _ :=
      next_embed_of_inside hlength (h 0 (Nat.zero_lt_succ n))
    have hmore : ∀ k < n, (m.next.2.after k).Inside := by
      intro k hk
      exact h (k + 1) (Nat.succ_lt_succ hk)
    rw [after, hnext]
    apply ih
    · rw [(next_code m).1]
      exact hlength
    · exact hmore

/-- A call on code that stands between other code does what it does on the code alone, if that
succeeds within the code or fails for another reason than the target of a jump. So do any number of
calls that stay within the code, one by one. -/
theorem embed_reproduces (m : Machine) (front back : List Instr) (initial : Scope)
    (hlength : (front ++ m.code ++ back).length < positionBound) :
    (m.index < m.code.length →
      (∀ m', m.next = (.ok (), m') → m'.index ≤ m.code.length →
        (m.embed front back initial).next = (.ok (), m'.embed front back initial)) ∧
      ∀ fault m', m.next = (.error fault, m') →
        (∀ index steps, fault ≠ .invalidJumpTarget index steps) →
        (m.embed front back initial).next = (.error fault, m'.embed front back initial)) ∧
    ∀ n, (∀ k < n, (m.after k).Inside) →
      (∀ k ≤ n, (m.embed front back initial).after k = (m.after k).embed front back initial) ∧
      ∀ k < n, ((m.embed front back initial).after k).next.1 = .ok () := by
  refine ⟨?_, ?_⟩
  · intro hindex
    refine ⟨?_, ?_⟩
    · intro m' h hindex'
      exact next_embed_of_ok hlength h hindex'
    · intro fault m' h hjump
      exact next_embed_of_error hindex h hjump
  · intro n h
    have hafter : ∀ k ≤ n,
        (m.embed front back initial).after k = (m.after k).embed front back initial := by
      intro k hk
      apply after_embed hlength
      intro j hj
      exact h j (Nat.lt_of_lt_of_le hj hk)
    refine ⟨hafter, ?_⟩
    intro k hk
    rw [hafter k (Nat.le_of_lt hk), next_embed_of_inside _ (h k hk)]
    rw [after_code]
    exact hlength

end Embed

/-- Counts `a` down to 0. The jump at the end goes back to the first instruction. -/
def countDown : List Instr :=
  [.load "a", .constant (.int 1), .arith .subtract, .assign "a", .load "a", .constant (.int 0),
    .compare .greater, .jumpIfFalse 1, .jump (-9)]

def aIsTwo : Scope :=
  .ofVariables [("a", .int 2)]

/-- The loop runs twice, one place behind the beginning, and ends before the `eof` behind it. -/
theorem embed_countDown :
    (∀ k < 17, ((ofCode countDown aIsTwo).after k).Inside) ∧
      ((ofCode countDown aIsTwo).after 17).index = 9 ∧
      ((ofCode countDown aIsTwo).embed [.eof] [.eof] .empty).after 17 =
        ((ofCode countDown aIsTwo).after 17).embed [.eof] [.eof] .empty ∧
      (((ofCode countDown aIsTwo).embed [.eof] [.eof] .empty).after 17).index = 10 := by
  have hinside : ∀ k < 17, ((ofCode countDown aIsTwo).after k).Inside := by decide +kernel
  have hindex : ((ofCode countDown aIsTwo).after 17).index = 9 := by decide +kernel
  obtain ⟨_, hsteps⟩ := embed_reproduces (ofCode countDown aIsTwo) [.eof] [.eof] .empty (by decide)
  have hlast := (hsteps 17 hinside).1 17 (Nat.le_refl 17)
  refine ⟨hinside, hindex, hlast, ?_⟩
  rw [hlast]
  simp [embed, hindex]

end Machine

end MiniC.Stack
