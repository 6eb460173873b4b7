import Mathlib.Order.Bounds.Basic
import Mathlib.Order.Interval.Set.Basic
import MiniC.Proofs.Register.Refusals

/-!
# How many registers an expression needs

A left operand gives its registers back before the right one is computed, but for the one that holds
its value. So only right operands count when operators are nested. The code of an expression writes
exactly as many registers as that takes, from the lowest free one on, and the code of a program goes
as far as its neediest expression.
-/

namespace MiniC

set_option autoImplicit false

namespace Expr

/-- The number of registers that are in use at once while an expression is computed. -/
def need : Expr → Nat
  | .int _ | .float _ | .string _ | .name _ | .step _ _ => 1
  | .group inner => inner.need
  | .unary _ operand => operand.need
  | .binary _ left right => max left.need (1 + right.need)

def codeLength : Expr → Nat
  | .int _ | .float _ | .string _ | .name _ => 2
  | .step _ _ => 5
  | .group inner => inner.codeLength
  | .unary _ operand => operand.codeLength + 3
  | .binary _ left right => left.codeLength + right.codeLength + 3

theorem need_pos (e : Expr) : 0 < e.need := by
  induction e with
  | int | float | string | name | step => exact Nat.one_pos
  | group inner ih => exact ih
  | unary op operand ih => exact ih
  | binary op left right ihl _ =>
    simp only [need]
    omega

end Expr

namespace Register

def needsIn (cs : List Construct) : List Nat :=
  cs.filterMap fun
    | .expr e => some e.need
    | .stmt _ => none

theorem needsIn_cons_stmt (s : Stmt) (cs : List Construct) :
    needsIn (.stmt s :: cs) = needsIn cs := rfl

theorem needsIn_cons_expr (e : Expr) (cs : List Construct) :
    needsIn (.expr e :: cs) = e.need :: needsIn cs := rfl

theorem needsIn_append (cs ds : List Construct) : needsIn (cs ++ ds) = needsIn cs ++ needsIn ds :=
  List.filterMap_append

theorem need_mem_needsIn (e : Expr) : e.need ∈ needsIn e.constructs := by
  cases e <;> exact List.mem_cons_self

theorem pos_of_mem_needsIn {cs : List Construct} {k : Nat} (h : k ∈ needsIn cs) : 0 < k := by
  obtain ⟨c, _, hc⟩ := List.mem_filterMap.mp h
  cases c with
  | stmt s => cases hc
  | expr e =>
    cases hc
    exact e.need_pos

/-- No part of an expression needs more than the whole. -/
theorem le_need_of_mem {e : Expr} {k : Nat} (h : k ∈ needsIn e.constructs) : k ≤ e.need := by
  induction e generalizing k with
  | int | float | string | name | step =>
    exact Nat.le_of_eq (List.mem_singleton.mp h)
  | group inner ih =>
    rcases List.mem_cons.mp h with rfl | h
    · exact Nat.le_refl _
    · exact ih h
  | unary op operand ih =>
    rcases List.mem_cons.mp h with rfl | h
    · exact Nat.le_refl _
    · exact ih h
  | binary op left right ihl ihr =>
    rw [Expr.constructs, needsIn_cons_expr, needsIn_append] at h
    simp only [List.mem_cons, List.mem_append] at h
    rcases h with rfl | h | h
    · exact Nat.le_refl _
    · have hle := ihl h
      simp only [Expr.need]
      omega
    · have hle := ihr h
      simp only [Expr.need]
      omega

/-- Register `i` is one of the lowest `k` registers from `n` on, for one of the needs `k`. -/
def Within (n i : Nat) (ks : List Nat) : Prop :=
  ∃ k ∈ ks, n ≤ i ∧ i < n + k

theorem within_append {n i : Nat} {ks ls : List Nat} :
    Within n i (ks ++ ls) ↔ Within n i ks ∨ Within n i ls := by
  simp only [Within, List.mem_append, or_and_right, exists_or]

theorem within_expr {n i : Nat} {e : Expr} :
    Within n i (needsIn e.constructs) ↔ n ≤ i ∧ i < n + e.need := by
  constructor
  · rintro ⟨k, hk, hlo, hhi⟩
    have hle := le_need_of_mem hk
    omega
  · intro h
    exact ⟨e.need, need_mem_needsIn e, h⟩

def Instr.Mentions (r : Reg) : Instr → Prop
  | .loadReg s | .storeReg s | .arith _ s => s = r
  | _ => False

def stored (code : List Instr) : Set Nat :=
  { i | .storeReg ⟨i⟩ ∈ code }

def mentioned (code : List Instr) : Set Nat :=
  { i | ∃ instr ∈ code, instr.Mentions ⟨i⟩ }

section Mentioned

variable {i : Nat} {cs ds : List Instr}

theorem mem_mentioned_append :
    i ∈ mentioned (cs ++ ds) ↔ i ∈ mentioned cs ∨ i ∈ mentioned ds := by
  simp only [mentioned, Set.mem_ofPred_eq, List.mem_append, or_and_right, exists_or]

theorem mem_mentioned_cons {instr : Instr} :
    i ∈ mentioned (instr :: cs) ↔ instr.Mentions ⟨i⟩ ∨ i ∈ mentioned cs := by
  simp [mentioned]

theorem not_mem_mentioned_nil : i ∉ mentioned [] := by
  simp [mentioned]

end Mentioned

namespace Direct

variable {n i : Nat} {code : List Instr}

theorem length_expr {e : Expr} (h : expr n e = .ok code) : code.length = e.codeLength := by
  induction e generalizing n code with
  | int | float | string | name | step =>
    cases h
    rfl
  | group inner ih => exact ih h
  | unary op operand ih =>
    obtain ⟨es, he, rfl⟩ := expr_unary_eq_ok h
    rw [List.length_append, ih he]
    rfl
  | binary op left right ihl ihr =>
    obtain ⟨arith, ls, rs, _, hl, hr, rfl⟩ := expr_binary_eq_ok h
    rw [List.length_append, List.length_append, ihl hl, ihr hr]
    rfl

/-- Every register up to the need of an expression is written. -/
theorem stored_of_need {e : Expr} (h : expr n e = .ok code) (hlo : n ≤ i) (hhi : i < n + e.need) :
    .storeReg ⟨i⟩ ∈ code := by
  induction e generalizing n code with
  | int | float | string | name | step =>
    have hi : i = n := Nat.le_antisymm (Nat.le_of_lt_succ hhi) hlo
    cases h
    simp [hi]
  | group inner ih => exact ih h hlo hhi
  | unary op operand ih =>
    obtain ⟨es, he, rfl⟩ := expr_unary_eq_ok h
    exact List.mem_append_left _ (ih he hlo hhi)
  | binary op left right ihl ihr =>
    obtain ⟨arith, ls, rs, _, hl, hr, rfl⟩ := expr_binary_eq_ok h
    apply List.mem_append_left
    rw [Expr.need] at hhi
    by_cases hi : i < n + left.need
    · exact List.mem_append_left _ (ihl hl hlo hi)
    · have hpos := left.need_pos
      exact List.mem_append_right _ (ihr hr (by omega) (by omega))

/-- No register beyond the need of an expression occurs in its code. -/
theorem need_of_mentioned {e : Expr} (h : expr n e = .ok code) (hi : i ∈ mentioned code) :
    n ≤ i ∧ i < n + e.need := by
  induction e generalizing n code with
  | int | float | string | name | step =>
    cases h
    simp only [mem_mentioned_cons, not_mem_mentioned_nil, Instr.Mentions, Reg.mk.injEq, false_or,
      or_false, or_self] at hi
    simp only [Expr.need]
    omega
  | group inner ih => exact ih h hi
  | unary op operand ih =>
    obtain ⟨es, he, rfl⟩ := expr_unary_eq_ok h
    have hpos := operand.need_pos
    simp only [mem_mentioned_append, mem_mentioned_cons, not_mem_mentioned_nil, Instr.Mentions,
      Reg.mk.injEq, false_or, or_false, or_self] at hi
    simp only [Expr.need]
    rcases hi with hi | rfl
    · exact ih he hi
    · omega
  | binary op left right ihl ihr =>
    obtain ⟨arith, ls, rs, _, hl, hr, rfl⟩ := expr_binary_eq_ok h
    have hposl := left.need_pos
    have hposr := right.need_pos
    simp only [mem_mentioned_append, mem_mentioned_cons, not_mem_mentioned_nil, Instr.Mentions,
      Reg.mk.injEq, or_false] at hi
    simp only [Expr.need]
    rcases hi with (hi | hi) | rfl | rfl | rfl
    · have hbound := ihl hl hi
      omega
    · have hbound := ihr hr hi
      omega
    all_goals omega

theorem stored_expr {e : Expr} (h : expr n e = .ok code) :
    stored code = Set.Ico n (n + e.need) := by
  ext i
  constructor
  · intro hi
    exact need_of_mentioned h ⟨_, hi, rfl⟩
  · rintro ⟨hlo, hhi⟩
    exact stored_of_need h hlo hhi

theorem mem_mentioned_expr {e : Expr} (h : expr n e = .ok code) :
    i ∈ mentioned code ↔ Within n i (needsIn e.constructs) := by
  rw [within_expr]
  constructor
  · exact need_of_mentioned h
  · rintro ⟨hlo, hhi⟩
    exact ⟨_, stored_of_need h hlo hhi, rfl⟩

/-- Loading the value of an expression brings in no other register. -/
theorem mem_mentioned_load {e : Expr} {es rest : List Instr} (h : expr n e = .ok es) :
    i ∈ mentioned (es ++ .loadReg ⟨n⟩ :: rest) ↔
      Within n i (needsIn e.constructs) ∨ i ∈ mentioned rest := by
  rw [mem_mentioned_append, mem_mentioned_cons, mem_mentioned_expr h]
  constructor
  · rintro (hi | hi | hi)
    · exact .inl hi
    · cases hi
      have hpos := e.need_pos
      exact .inl (within_expr.mpr (by omega))
    · exact .inr hi
  · rintro (hi | hi)
    · exact .inl hi
    · exact .inr (.inr hi)

mutual

theorem mem_mentioned_stmt {s : Stmt} {base : Nat} {code : List Instr}
    (h : stmt n base s = .ok code) : i ∈ mentioned code ↔ Within n i (needsIn s.constructs) := by
  cases s with
  | expr value =>
    rw [stmt] at h
    exact mem_mentioned_expr h
  | define isConst type name value =>
    obtain ⟨es, he, rfl⟩ := stmt_define_eq_ok h
    rw [mem_mentioned_load he]
    simp only [mem_mentioned_cons, not_mem_mentioned_nil, Instr.Mentions, or_false]
    rfl
  | declare isConst type name =>
    rw [stmt] at h
    cases h
  | assign op name value =>
    rw [stmt] at h
    cases h
  | branch test body otherwise =>
    obtain ⟨rfl, es, bs, he, hb, rfl⟩ := stmt_branch_eq_ok h
    rw [mem_mentioned_load he, Stmt.constructs, Else.constructs, List.append_nil, needsIn_cons_stmt,
      needsIn_append, within_append, ← mem_mentioned_block hb]
    simp only [mem_mentioned_cons, Instr.Mentions, false_or]
  | loop test body =>
    obtain ⟨es, bs, he, hb, rfl⟩ := stmt_loop_eq_ok h
    rw [mem_mentioned_load he, Stmt.constructs, needsIn_cons_stmt, needsIn_append, within_append,
      ← mem_mentioned_block hb]
    simp only [mem_mentioned_cons, mem_mentioned_append, not_mem_mentioned_nil, Instr.Mentions,
      false_or, or_false]

theorem mem_mentioned_block {ss : List Stmt} {base : Nat} {code : List Instr}
    (h : block n base ss = .ok code) :
    i ∈ mentioned code ↔ Within n i (needsIn (Stmt.constructsAll ss)) := by
  cases ss with
  | nil =>
    rw [block] at h
    cases h
    simp [not_mem_mentioned_nil, Within, Stmt.constructsAll, needsIn]
  | cons s ss =>
    obtain ⟨cs, ds, hc, hd, rfl⟩ := block_cons_eq_ok h
    rw [mem_mentioned_append, mem_mentioned_stmt hc, mem_mentioned_block hd, ← within_append,
      ← needsIn_append]
    rfl

end

theorem needsIn_ne_nil {s : Stmt} {base : Nat} (h : stmt n base s = .ok code) :
    needsIn s.constructs ≠ [] := by
  cases s with
  | expr value => exact List.ne_nil_of_mem (need_mem_needsIn value)
  | define isConst type name value => exact List.ne_nil_of_mem (need_mem_needsIn value)
  | declare isConst type name =>
    rw [stmt] at h
    cases h
  | assign op name value =>
    rw [stmt] at h
    cases h
  | branch test body otherwise =>
    rw [Stmt.constructs, needsIn_cons_stmt, needsIn_append]
    exact List.append_ne_nil_of_left_ne_nil (List.ne_nil_of_mem (need_mem_needsIn test)) _
  | loop test body =>
    rw [Stmt.constructs, needsIn_cons_stmt, needsIn_append]
    exact List.append_ne_nil_of_left_ne_nil (List.ne_nil_of_mem (need_mem_needsIn test)) _

end Direct

theorem greatest_mentioned {p : Program} {code : List Instr} (h : lower p = .ok code)
    (hne : p ≠ []) :
    ∃ m, (needsIn (Stmt.constructsAll p)).max? = some m ∧ IsGreatest (mentioned code) (m - 1) := by
  rw [lower_eq_block] at h
  have hneeds : needsIn (Stmt.constructsAll p) ≠ [] := by
    obtain ⟨s, ss, rfl⟩ := List.exists_cons_of_ne_nil hne
    obtain ⟨cs, ds, hc, _, _⟩ := Direct.block_cons_eq_ok h
    rw [Stmt.constructsAll, needsIn_append]
    exact List.append_ne_nil_of_left_ne_nil (Direct.needsIn_ne_nil hc) _
  obtain ⟨m, hm⟩ := Option.isSome_iff_exists.mp (List.isSome_max?_iff.mpr hneeds)
  obtain ⟨hmem, hmax⟩ := List.max?_eq_some_iff.mp hm
  have hpos := pos_of_mem_needsIn hmem
  refine ⟨m, hm, ?_, ?_⟩
  · rw [Direct.mem_mentioned_block h]
    exact ⟨m, hmem, by omega, by omega⟩
  · intro i hi
    obtain ⟨k, hk, _, hlt⟩ := (Direct.mem_mentioned_block h).mp hi
    have hle := hmax k hk
    omega

/-- The code of an accepted expression writes the registers from the lowest free one on, exactly as
many as the expression needs, and has a length that only the shape of the expression decides. The
highest register in the code of an accepted program is the last one of its neediest expression. -/
theorem registers_match_need :
    (∀ (e : Expr) (b b' : Builder) (r : Reg), (Build.expr e).run b = .ok r b' →
      ∃ code, b'.code.toList = b.code.toList ++ code ∧
        stored code = Set.Ico b.allocator.inUse (b.allocator.inUse + e.need) ∧
        code.length = e.codeLength) ∧
    ∀ (p : Program) (code : List Instr), lower p = .ok code → p ≠ [] →
      ∃ m, (needsIn (Stmt.constructsAll p)).max? = some m ∧
        IsGreatest (mentioned code) (m - 1) := by
  constructor
  · intro e b b' r hrun
    obtain ⟨code, hcode, _, happend⟩ := Build.direct_of_run_expr hrun
    exact ⟨code, happend, Direct.stored_expr hcode, Direct.length_expr hcode⟩
  · intro p code h hne
    exact greatest_mentioned h hne

/-- `1 - (2 - -3)`. -/
def nestedRight : Expr :=
  .binary .subtract (.int 1)
    (.group (.binary .subtract (.int 2) (.unary .arithmeticNegate (.int 3))))

/-- A loop with a test that nests to the right, around a value that nests to the left. -/
def nestedBothWays : Program :=
  [.loop nestedRight
    [.define false "int" "x" (.binary .add (.binary .add (.int 1) (.int 2)) (.step .increment "y"))]]

/-- The test takes three registers and fifteen instructions. Two registers do for the value, so that
the test decides how far the code of the loop goes. -/
theorem registers_match_need_nestedBothWays :
    (∃ b code, (Build.expr nestedRight).run .empty = .ok ⟨0⟩ b ∧ b.code.toList = code ∧
      stored code = Set.Ico 0 3 ∧ code.length = 15) ∧
    ∃ code, lower nestedBothWays = .ok code ∧ IsGreatest (mentioned code) 2 := by
  obtain ⟨hexpr, hprogram⟩ := registers_match_need
  constructor
  · obtain ⟨b, hrun⟩ : ∃ b, (Build.expr nestedRight).run .empty = .ok ⟨0⟩ b := ⟨_, rfl⟩
    obtain ⟨code, happend, hstored, hlength⟩ := hexpr nestedRight .empty b ⟨0⟩ hrun
    exact ⟨b, code, hrun, happend, hstored, hlength⟩
  · obtain ⟨code, hcode⟩ : ∃ code, lower nestedBothWays = .ok code :=
      ⟨_, (lower_eq_block nestedBothWays).trans rfl⟩
    obtain ⟨m, hm, hgreatest⟩ := hprogram nestedBothWays code hcode (by simp [nestedBothWays])
    have hneeds : (needsIn (Stmt.constructsAll nestedBothWays)).max? = some 3 := by
      simp [nestedBothWays, nestedRight, Stmt.constructsAll, Stmt.constructs, Expr.constructs,
        needsIn, Expr.need]
    rw [hneeds] at hm
    cases hm
    exact ⟨code, hcode, hgreatest⟩

end Register

end MiniC
