import MiniC.Proofs.Register.Patching

/-!
# Registers form a stack

Giving a register back only lowers the number of registers in use, whichever register is named. That
is right because lowering names the highest live register each time. The registers that are live at
a moment are read off the log of events up to it: those that were taken and not given back since.
-/

namespace MiniC.Register

set_option autoImplicit false

def Event.track (live : List Reg) : Event → List Reg
  | .allocated r => r :: live
  | .released r => live.erase r
  | .patched _ _ => live

/-- The registers that are live after a log of events. -/
def live (events : List Event) : List Reg :=
  events.foldl Event.track []

def Event.replay (a : Allocator) : Event → Allocator
  | .allocated _ => a.alloc.2
  | .released r => (a.release r).toOption.getD a
  | .patched _ _ => a

def replayed (events : List Event) : Allocator :=
  events.foldl Event.replay .empty

/-- After a log of events, an event gives back the highest live register, or takes one that is not
live. -/
def Orderly (before : List Event) : Event → Prop
  | .allocated r => r ∉ live before
  | .released r => r.index + 1 = (replayed before).inUse ∧ r ∈ live before ∧
    ∀ s ∈ live before, s.index ≤ r.index
  | .patched _ _ => True

theorem live_concat (events : List Event) (event : Event) :
    live (events ++ [event]) = event.track (live events) := by
  simp [live]

theorem replayed_concat (events : List Event) (event : Event) :
    replayed (events ++ [event]) = event.replay (replayed events) := by
  simp [replayed]

/-- The registers below number `n`, the highest first. -/
def below (n : Nat) : List Reg :=
  (List.range n).reverse.map Reg.mk

theorem below_succ (n : Nat) : below (n + 1) = ⟨n⟩ :: below n := by
  simp [below, List.range_succ]

theorem mem_below {n : Nat} {r : Reg} : r ∈ below n ↔ r.index < n := by
  constructor
  · intro h
    obtain ⟨i, hi, rfl⟩ := List.mem_map.mp h
    exact List.mem_range.mp (List.mem_reverse.mp hi)
  · intro h
    exact List.mem_map.mpr ⟨r.index, List.mem_reverse.mpr (List.mem_range.mpr h), rfl⟩

/-- The log of a builder accounts for its allocator: the live registers are those below the number
in use, and every event was in order when it happened. -/
structure Tidy (b : Builder) : Prop where
  live_eq : live b.events.toList = below b.allocator.inUse
  replayed_eq : replayed b.events.toList = b.allocator
  orderly : ∀ i event, b.events.toList[i]? = some event → Orderly (b.events.toList.take i) event

namespace Tidy

variable {b : Builder}

theorem empty : Tidy .empty :=
  ⟨rfl, rfl, nofun⟩

theorem code (h : Tidy b) (code : Array Instr) : Tidy { b with code } :=
  ⟨h.live_eq, h.replayed_eq, h.orderly⟩

theorem orderly_push (h : Tidy b) {event : Event} (he : Orderly b.events.toList event) :
    ∀ i event', (b.events.push event).toList[i]? = some event' →
      Orderly ((b.events.push event).toList.take i) event' := by
  intro i event' hi
  rw [Array.toList_push] at hi ⊢
  by_cases hlt : i < b.events.toList.length
  · rw [List.getElem?_append_left hlt] at hi
    rw [List.take_append_of_le_length (Nat.le_of_lt hlt)]
    exact h.orderly i event' hi
  · have hi' : i = b.events.toList.length := by
      have hbound := (List.getElem?_eq_some_iff.mp hi).1
      rw [List.length_append, List.length_singleton] at hbound
      omega
    rw [hi', List.getElem?_concat_length] at hi
    cases hi
    rw [hi', List.take_left]
    exact he

theorem alloc (h : Tidy b) : Tidy { b with
    allocator := b.allocator.alloc.2
    events := b.events.push (.allocated b.allocator.alloc.1) } := by
  have he : Orderly b.events.toList (.allocated b.allocator.alloc.1) := by
    intro hmem
    rw [h.live_eq, mem_below] at hmem
    exact Nat.lt_irrefl _ hmem
  refine ⟨?_, ?_, h.orderly_push he⟩
  · rw [Array.toList_push, live_concat, h.live_eq]
    exact (below_succ b.allocator.inUse).symm
  · rw [Array.toList_push, replayed_concat, h.replayed_eq]
    rfl

theorem release (h : Tidy b) {n : Nat} (hu : b.allocator.inUse = n + 1) : Tidy { b with
    allocator := ⟨b.allocator.inUse - 1⟩
    events := b.events.push (.released ⟨n⟩) } := by
  have hlive : live b.events.toList = ⟨n⟩ :: below n := by rw [h.live_eq, hu, below_succ]
  have hlt : n < b.allocator.inUse := by omega
  have he : Orderly b.events.toList (.released ⟨n⟩) := by
    refine ⟨by rw [h.replayed_eq, hu], ?_, ?_⟩
    · rw [hlive]
      exact List.mem_cons_self
    · intro s hs
      rw [h.live_eq, mem_below] at hs
      show s.index ≤ n
      omega
  refine ⟨?_, ?_, h.orderly_push he⟩
  · rw [Array.toList_push, live_concat, hlive, hu]
    exact List.erase_cons_head ..
  · rw [Array.toList_push, replayed_concat, h.replayed_eq, Event.replay, Allocator.release,
      if_pos hlt]
    rfl

theorem patched (h : Tidy b) (jump target : Nat) (code : Array Instr) : Tidy { b with
    code
    events := b.events.push (.patched jump target) } := by
  have he : Orderly b.events.toList (.patched jump target) := trivial
  refine ⟨?_, ?_, h.orderly_push he⟩
  · rw [Array.toList_push, live_concat]
    exact h.live_eq
  · rw [Array.toList_push, replayed_concat]
    exact h.replayed_eq

end Tidy

/-- Started with `n` registers in use, `x` keeps the log tidy. It gives a result as in `post` and
leaves `m` registers in use, or it fails for another reason than a register that was not taken. -/
def Keeps {α : Type} (x : Build α) (n : Nat) (post : α → Prop) (m : Nat) : Prop :=
  ∀ b, Tidy b → b.allocator.inUse = n → match x.run b with
    | .ok a b' => Tidy b' ∧ post a ∧ b'.allocator.inUse = m
    | .error e b' => Tidy b' ∧ ∀ failed, e ≠ .notAllocated failed

section Keeps

variable {α β : Type} {x : Build α} {k : α → Build β} {n m l : Nat} {p : α → Prop} {q : β → Prop}

theorem Keeps.bind (h : Keeps x n p m) (hk : ∀ a, p a → Keeps (k a) m q l) :
    Keeps (x >>= k) n q l := by
  intro b hb hu
  have hx := h b hb hu
  rw [Build.run_bind]
  cases hrun : x.run b with
  | ok a b₁ =>
    rw [hrun] at hx
    obtain ⟨hb₁, ha, hu₁⟩ := hx
    exact hk a ha b₁ hb₁ hu₁
  | error e b₁ =>
    rw [hrun] at hx
    exact hx

theorem keeps_pure {a : α} (ha : p a) : Keeps (pure a) n p n :=
  fun _ hb hu => ⟨hb, ha, hu⟩

theorem keeps_throw {e : LoweringError} (he : ∀ failed, e ≠ .notAllocated failed) :
    Keeps (throw e) n p m :=
  fun _ hb _ => ⟨hb, he⟩

theorem keeps_emit (instr : Instr) : Keeps (Build.emit instr) n (fun _ => True) n :=
  fun _ hb hu => ⟨hb.code _, trivial, hu⟩

theorem keeps_here : Keeps Build.here n (fun _ => True) n :=
  fun _ hb hu => ⟨hb, trivial, hu⟩

theorem keeps_patchPastEnd (jump : Nat) : Keeps (Build.patchPastEnd jump) n (fun _ => True) n :=
  fun _ hb hu => ⟨hb.patched jump _ _, trivial, hu⟩

theorem keeps_alloc : Keeps Build.alloc n (· = ⟨n⟩) (n + 1) := by
  rintro b hb rfl
  exact ⟨hb.alloc, rfl, rfl⟩

theorem keeps_release : Keeps (Build.release ⟨n⟩) (n + 1) (fun _ => True) n := by
  intro b hb hu
  rw [Build.run_release, if_pos (by rw [hu]; exact Nat.lt_succ_self n)]
  exact ⟨hb.release hu, trivial, by simp [hu]⟩

end Keeps

namespace Build

theorem keeps_load (instr : Instr) (n : Nat) : Keeps (load instr) n (· = ⟨n⟩) (n + 1) := by
  refine keeps_alloc.bind ?_
  rintro _ rfl
  refine (keeps_emit instr).bind fun _ _ => ?_
  refine (keeps_emit _).bind fun _ _ => ?_
  exact keeps_pure rfl

theorem keeps_expr (e : Expr) (n : Nat) : Keeps (expr e) n (· = ⟨n⟩) (n + 1) := by
  induction e generalizing n with
  | int | float | string | name => exact keeps_load _ n
  | group inner ih => exact ih n
  | binary op left right ihl ihr =>
    rw [expr]
    cases Arith.ofBinary? op with
    | none => exact keeps_throw (by simp)
    | some arith =>
      refine (ihl n).bind ?_
      rintro _ rfl
      refine (ihr (n + 1)).bind ?_
      rintro _ rfl
      refine (keeps_emit _).bind fun _ _ => ?_
      refine (keeps_emit _).bind fun _ _ => ?_
      refine keeps_release.bind fun _ _ => ?_
      refine keeps_release.bind fun _ _ => ?_
      refine keeps_alloc.bind ?_
      rintro _ rfl
      refine (keeps_emit _).bind fun _ _ => ?_
      exact keeps_pure rfl
  | unary op operand ih =>
    refine (ih n).bind ?_
    rintro _ rfl
    refine (keeps_emit _).bind fun _ _ => ?_
    refine (keeps_emit _).bind fun _ _ => ?_
    refine (keeps_emit _).bind fun _ _ => ?_
    exact keeps_pure rfl
  | step op name =>
    refine (keeps_emit _).bind fun _ _ => ?_
    refine keeps_alloc.bind ?_
    rintro _ rfl
    refine (keeps_emit _).bind fun _ _ => ?_
    refine (keeps_emit _).bind fun _ _ => ?_
    refine (keeps_emit _).bind fun _ _ => ?_
    refine (keeps_emit _).bind fun _ _ => ?_
    exact keeps_pure rfl

theorem keeps_condition (e : Expr) (n : Nat) : Keeps (condition e) n (fun _ => True) n := by
  refine (keeps_expr e n).bind ?_
  rintro _ rfl
  refine (keeps_emit _).bind fun _ _ => ?_
  exact keeps_release

theorem keeps_openJump (n : Nat) : Keeps openJump n (fun _ => True) n := by
  refine keeps_here.bind fun _ _ => ?_
  refine (keeps_emit _).bind fun _ _ => ?_
  exact keeps_pure trivial

mutual

theorem keeps_stmt (s : Stmt) (n : Nat) : Keeps (stmt s) n (fun _ => True) n := by
  cases s with
  | expr value =>
    rw [stmt]
    refine (keeps_expr value n).bind ?_
    rintro _ rfl
    exact keeps_release
  | define isConst type name value =>
    rw [stmt]
    refine (keeps_expr value n).bind ?_
    rintro _ rfl
    refine (keeps_emit _).bind fun _ _ => ?_
    refine (keeps_emit _).bind fun _ _ => ?_
    exact keeps_release
  | declare isConst type name =>
    rw [stmt]
    exact keeps_throw (by simp)
  | assign op name value =>
    rw [stmt]
    exact keeps_throw (by simp)
  | branch test body otherwise =>
    cases otherwise with
    | none =>
      rw [stmt]
      refine (keeps_condition test n).bind fun _ _ => ?_
      refine (keeps_openJump n).bind fun jump _ => ?_
      refine (keeps_block body n).bind fun _ _ => ?_
      exact keeps_patchPastEnd jump
    | block | branch =>
      simp only [stmt]
      exact keeps_throw (by simp)
  | loop test body =>
    rw [stmt]
    refine keeps_here.bind fun _ _ => ?_
    refine (keeps_condition test n).bind fun _ _ => ?_
    refine (keeps_openJump n).bind fun jump _ => ?_
    refine (keeps_block body n).bind fun _ _ => ?_
    refine (keeps_emit _).bind fun _ _ => ?_
    exact keeps_patchPastEnd jump

theorem keeps_block (ss : List Stmt) (n : Nat) : Keeps (block ss) n (fun _ => True) n := by
  cases ss with
  | nil =>
    rw [block]
    exact keeps_pure trivial
  | cons s ss =>
    rw [block]
    exact (keeps_stmt s n).bind fun _ _ => keeps_block ss n

end

/-- An accepted expression takes the lowest free register, and leaves it taken. -/
theorem inUse_of_run_expr {e : Expr} {b b' : Builder} {r : Reg}
    (hrun : (expr e).run b = .ok r b') : b'.allocator.inUse = b.allocator.inUse + 1 := by
  obtain ⟨code, hcode, _⟩ := direct_of_run_expr hrun
  obtain ⟨b₁, hrun₁, hu₁, _⟩ := builds_expr rfl hcode
  rw [hrun] at hrun₁
  cases hrun₁
  exact hu₁

/-- An accepted statement leaves no register taken. -/
theorem inUse_of_run_stmt {s : Stmt} {b b' : Builder} (hrun : (stmt s).run b = .ok () b') :
    b'.allocator.inUse = b.allocator.inUse := by
  cases h : Direct.stmt b.allocator.inUse b.code.size s with
  | error error =>
    obtain ⟨b₁, hrun₁⟩ := fails_stmt rfl h
    rw [hrun] at hrun₁
    cases hrun₁
  | ok code =>
    obtain ⟨b₁, hrun₁, hu₁, _⟩ := builds_stmt rfl h
    rw [hrun] at hrun₁
    cases hrun₁
    exact hu₁

end Build

/-- What lowering has built of a program when it ends, with success or not. -/
def built (p : Program) : Builder :=
  match (Build.block p).run .empty with
  | .ok _ b => b
  | .error _ b => b

theorem tidy_built (p : Program) : Tidy (built p) := by
  have h := Build.keeps_block p 0 .empty .empty rfl
  unfold built
  split <;> rename_i hrun <;> rw [hrun] at h <;> exact h.1

theorem lower_ne_notAllocated (p : Program) (failed : NotAllocated) :
    lower p ≠ .error (.notAllocated failed) := by
  have h := Build.keeps_block p 0 .empty .empty rfl
  intro herror
  unfold lower at herror
  split at herror
  · cases herror
  · rename_i hrun
    rw [hrun] at h
    cases herror
    exact h.2 failed rfl

/-- Registers form a stack. An expression takes the lowest free register and appends its code, and a
statement leaves as many registers in use as it finds. While a program is lowered, with success or
not, each release names the highest live register and is never refused, and no register is taken
that is still live. -/
theorem registers_form_stack :
    (∀ (e : Expr) (b b' : Builder) (r : Reg), (Build.expr e).run b = .ok r b' →
      r = ⟨b.allocator.inUse⟩ ∧ b'.allocator.inUse = b.allocator.inUse + 1 ∧
        ∃ code, b'.code.toList = b.code.toList ++ code) ∧
    (∀ (s : Stmt) (b b' : Builder), (Build.stmt s).run b = .ok () b' →
      b'.allocator.inUse = b.allocator.inUse) ∧
    ∀ p : Program, (∀ failed, lower p ≠ .error (.notAllocated failed)) ∧
      replayed (built p).events.toList = (built p).allocator ∧
      ∀ i event, (built p).events.toList[i]? = some event →
        Orderly ((built p).events.toList.take i) event := by
  refine ⟨?_, ?_, ?_⟩
  · intro e b b' r hrun
    obtain ⟨code, _, hr, hcode⟩ := Build.direct_of_run_expr hrun
    exact ⟨hr, Build.inUse_of_run_expr hrun, code, hcode⟩
  · intro s b b' hrun
    exact Build.inUse_of_run_stmt hrun
  · intro p
    have htidy := tidy_built p
    exact ⟨lower_ne_notAllocated p, htidy.replayed_eq, htidy.orderly⟩

/-- A sum whose right operand the machine cannot compute. -/
def sumWithTest : Program :=
  [.expr (.binary .add (.binary .add (.int 1) (.int 2)) (.binary .equal (.int 3) (.int 4)))]

/-- The lowering fails with a register in use; until then the inner sum has given back the higher of
its two registers first. -/
theorem registers_form_stack_sumWithTest :
    lower sumWithTest = .error (.unsupportedOperator .equal) ∧
      (built sumWithTest).events.toList[2]? = some (.released ⟨1⟩) ∧
      Orderly [.allocated ⟨0⟩, .allocated ⟨1⟩] (.released ⟨1⟩) ∧
      (replayed (built sumWithTest).events.toList).inUse = 1 := by
  obtain ⟨_, _, hprogram⟩ := registers_form_stack
  obtain ⟨_, hreplayed, horderly⟩ := hprogram sumWithTest
  exact ⟨rfl, rfl, horderly 2 _ rfl, congrArg Allocator.inUse hreplayed⟩

end MiniC.Register
