import MiniC.Proofs.Register.Direct

/-!
# Steps of the builder

What a building step appends, which register it returns, and how many registers it leaves in use.
The invariant is `Grows`: code is only appended, and every patch that was made is still in place.
The code built for an expression is the direct one.
-/

namespace MiniC.Register

set_option autoImplicit false

theorem modify_length_append (front inner : List Instr) (instr : Instr) (f : Instr → Instr) :
    (front ++ instr :: inner).modify front.length f = front ++ f instr :: inner := by
  induction front with
  | nil => rfl
  | cons first front ih => rw [List.cons_append, List.length_cons, List.modify_succ_cons, ih]; rfl

/-- From `b` to `b'` the instructions `code` were appended, and every jump that was patched in
between still has the target that it was given. -/
structure Grows (b b' : Builder) (code : List Instr) : Prop where
  code_eq : b'.code.toList = b.code.toList ++ code
  patches : ∃ events, b'.events.toList = b.events.toList ++ events ∧
    ∀ jump target, .patched jump target ∈ events →
      0 < target ∧ b'.code.toList[jump]? = some (.jumpFalse target)

namespace Grows

variable {b b₁ b₂ : Builder} {cs ds : List Instr}

theorem refl (b : Builder) : Grows b b [] :=
  ⟨by simp, [], by simp, by simp⟩

theorem size_eq (h : Grows b b₁ cs) : b₁.code.size = b.code.size + cs.length := by
  have hl := congrArg List.length h.code_eq
  simpa using hl

theorem trans (h : Grows b b₁ cs) (h' : Grows b₁ b₂ ds) : Grows b b₂ (cs ++ ds) := by
  obtain ⟨hc, events, he, hp⟩ := h
  obtain ⟨hc', events', he', hp'⟩ := h'
  refine ⟨by rw [hc', hc, List.append_assoc], events ++ events', ?_, ?_⟩
  · rw [he', he, List.append_assoc]
  · intro jump target hm
    rcases List.mem_append.mp hm with hm | hm
    · obtain ⟨hpos, hget⟩ := hp jump target hm
      have hlt := (List.getElem?_eq_some_iff.mp hget).1
      exact ⟨hpos, by rw [hc', List.getElem?_append_left hlt, hget]⟩
    · exact hp' jump target hm

theorem emit (h : Grows b b₁ cs) (instr : Instr) :
    Grows b { b₁ with code := b₁.code.push instr } (cs ++ [instr]) :=
  h.trans ⟨by simp, [], by simp, by simp⟩

theorem event (h : Grows b b₁ cs) (allocator : Allocator) (event : Event)
    (he : ∀ jump target, event ≠ .patched jump target) :
    Grows b { b₁ with allocator, events := b₁.events.push event } cs := by
  have hstep : Grows b₁ { b₁ with allocator, events := b₁.events.push event } [] := by
    refine ⟨by simp, [event], by simp, ?_⟩
    intro jump target hm
    exact absurd (List.mem_singleton.mp hm).symm (he jump target)
  simpa using h.trans hstep

/-- Giving an open jump its target changes this one instruction only. -/
theorem patch {front inner : List Instr} (h : Grows b b₁ (front ++ .jumpFalse 0 :: inner))
    {jump target : Nat} (hj : jump = b.code.size + front.length) (ht : target = b₁.code.size + 1) :
    Grows b { b₁ with
      code := b₁.code.modify jump fun instr => (instr.retarget? target).getD instr
      events := b₁.events.push (.patched jump target) } (front ++ .jumpFalse target :: inner) := by
  obtain ⟨hc, events, he, hp⟩ := h
  have hlen : (b.code.toList ++ front).length = jump := by simp [hj]
  have hold : b₁.code.toList[jump]? = some (.jumpFalse 0) := by
    rw [hc, ← List.append_assoc, ← hlen]
    simp
  have hcode : (b₁.code.modify jump fun instr => (instr.retarget? target).getD instr).toList =
      b.code.toList ++ (front ++ .jumpFalse target :: inner) := by
    rw [Array.toList_modify, hc, ← List.append_assoc, ← List.append_assoc, ← hlen]
    exact modify_length_append (b.code.toList ++ front) inner _ _
  refine ⟨hcode, events ++ [.patched jump target], by simp [he], ?_⟩
  intro j t hm
  rcases List.mem_append.mp hm with hm | hm
  · obtain ⟨hpos, hget⟩ := hp j t hm
    have hne : jump ≠ j := by
      intro heq
      rw [← heq, hold] at hget
      injection hget with hget
      injection hget with hget
      omega
    exact ⟨hpos, by rw [Array.toList_modify, List.getElem?_modify_ne _ _ hne, hget]⟩
  · cases List.mem_singleton.mp hm
    refine ⟨by omega, ?_⟩
    rw [hcode, ← List.append_assoc, ← hlen]
    simp

end Grows

/-- From `b` on, `x` appends `code`, returns `a`, and leaves `n` registers in use. -/
def Builds {α : Type} (x : Build α) (b : Builder) (a : α) (n : Nat) (code : List Instr) : Prop :=
  ∃ b', x.run b = .ok a b' ∧ b'.allocator.inUse = n ∧ Grows b b' code

/-- From `b` on, `x` fails with `e`. -/
def Fails {α : Type} (x : Build α) (b : Builder) (e : LoweringError) : Prop :=
  ∃ b', x.run b = .error e b'

section Sequences

variable {α β : Type} {x : Build α} {k : α → Build β} {b : Builder} {a : α} {n : Nat}
  {cs : List Instr} {e : LoweringError}

theorem Builds.bind (h : Builds x b a n cs) {c : β} {m : Nat} {ds : List Instr}
    (hk : ∀ b', b'.allocator.inUse = n → b'.code.size = b.code.size + cs.length →
      Builds (k a) b' c m ds) : Builds (x >>= k) b c m (cs ++ ds) := by
  obtain ⟨b₁, hrun₁, hu₁, hg₁⟩ := h
  obtain ⟨b₂, hrun₂, hu₂, hg₂⟩ := hk b₁ hu₁ hg₁.size_eq
  refine ⟨b₂, ?_, hu₂, hg₁.trans hg₂⟩
  rw [Build.run_bind, hrun₁]
  exact hrun₂

theorem Builds.fails (h : Builds x b a n cs)
    (hk : ∀ b', b'.allocator.inUse = n → b'.code.size = b.code.size + cs.length →
      Fails (k a) b' e) : Fails (x >>= k) b e := by
  obtain ⟨b₁, hrun₁, hu₁, hg₁⟩ := h
  obtain ⟨b₂, hrun₂⟩ := hk b₁ hu₁ hg₁.size_eq
  refine ⟨b₂, ?_⟩
  rw [Build.run_bind, hrun₁]
  exact hrun₂

theorem Fails.bind (h : Fails x b e) : Fails (x >>= k) b e := by
  obtain ⟨b₁, hrun⟩ := h
  refine ⟨b₁, ?_⟩
  rw [Build.run_bind, hrun]

theorem builds_pure (a : α) (b : Builder) : Builds (pure a) b a b.allocator.inUse [] :=
  ⟨b, rfl, rfl, .refl b⟩

theorem builds_emit (instr : Instr) (b : Builder) :
    Builds (Build.emit instr) b () b.allocator.inUse [instr] :=
  ⟨_, rfl, rfl, (Grows.refl b).emit instr⟩

theorem builds_alloc (b : Builder) :
    Builds Build.alloc b ⟨b.allocator.inUse⟩ (b.allocator.inUse + 1) [] :=
  ⟨_, rfl, rfl, (Grows.refl b).event _ _ (by simp)⟩

/-- Giving back the highest register in use never fails. -/
theorem builds_release {b : Builder} {n : Nat} (h : b.allocator.inUse = n + 1) :
    Builds (Build.release ⟨n⟩) b () n [] := by
  refine ⟨_, ?_, ?_, (Grows.refl b).event ⟨n⟩ (.released ⟨n⟩) (by simp)⟩
  · rw [Build.run_release, h, if_pos (Nat.lt_succ_self n), Nat.add_sub_cancel]
  · rfl

theorem builds_here {k : Nat → Build β} {c : β} {m : Nat} (h : Builds (k b.code.size) b c m cs) :
    Builds (Build.here >>= k) b c m cs := by
  obtain ⟨b₁, hrun, hu, hg⟩ := h
  refine ⟨b₁, ?_, hu, hg⟩
  rw [Build.run_bind, Build.run_here]
  exact hrun

theorem fails_here {k : Nat → Build β} (h : Fails (k b.code.size) b e) :
    Fails (Build.here >>= k) b e := by
  obtain ⟨b₁, hrun⟩ := h
  refine ⟨b₁, ?_⟩
  rw [Build.run_bind, Build.run_here]
  exact hrun

end Sequences

namespace Build

theorem builds_load (instr : Instr) {b : Builder} {n : Nat} (h : b.allocator.inUse = n) :
    Builds (load instr) b ⟨n⟩ (n + 1) [instr, .storeReg ⟨n⟩] := by
  subst h
  refine (builds_alloc b).bind fun b₁ h₁ _ => ?_
  refine (builds_emit instr b₁).bind fun b₂ h₂ _ => ?_
  refine (builds_emit _ b₂).bind fun b₃ h₃ _ => ?_
  rw [← h₁, ← h₂, ← h₃]
  exact builds_pure _ b₃

/-- The end of a binary operation: both registers are given back, and the left one takes the
result. -/
theorem builds_combine (arith : Arith) {b : Builder} {n : Nat} (h : b.allocator.inUse = n + 2) :
    Builds (do
      emit (.loadReg ⟨n⟩)
      emit (.arith arith ⟨n + 1⟩)
      release ⟨n + 1⟩
      release ⟨n⟩
      let result ← alloc
      emit (.storeReg result)
      return result) b ⟨n⟩ (n + 1) [.loadReg ⟨n⟩, .arith arith ⟨n + 1⟩, .storeReg ⟨n⟩] := by
  refine (builds_emit _ b).bind fun b₁ h₁ _ => ?_
  refine (builds_emit _ b₁).bind fun b₂ h₂ _ => ?_
  refine (builds_release (by omega)).bind fun b₃ h₃ _ => ?_
  refine (builds_release h₃).bind fun b₄ h₄ _ => ?_
  have halloc := builds_alloc b₄
  rw [h₄] at halloc
  refine halloc.bind fun b₅ h₅ _ => ?_
  refine (builds_emit _ b₅).bind fun b₆ h₆ _ => ?_
  rw [← h₅, ← h₆]
  exact builds_pure _ b₆

theorem builds_expr {e : Expr} {b : Builder} {n : Nat} {code : List Instr}
    (hu : b.allocator.inUse = n) (h : Direct.expr n e = .ok code) :
    Builds (expr e) b ⟨n⟩ (n + 1) code := by
  induction e generalizing b n code with
  | int value =>
    cases h
    exact builds_load _ hu
  | float value =>
    cases h
    exact builds_load _ hu
  | string value =>
    cases h
    exact builds_load _ hu
  | name name =>
    cases h
    exact builds_load _ hu
  | group inner ih => exact ih hu h
  | binary op left right ihl ihr =>
    obtain ⟨arith, ls, rs, hop, hl, hr, rfl⟩ := Direct.expr_binary_eq_ok h
    rw [expr, hop, List.append_assoc]
    refine (ihl hu hl).bind fun b₁ hu₁ _ => ?_
    exact (ihr hu₁ hr).bind fun b₂ hu₂ _ => builds_combine arith hu₂
  | unary op operand ih =>
    obtain ⟨es, he, rfl⟩ := Direct.expr_unary_eq_ok h
    refine (ih hu he).bind fun b₁ h₁ _ => ?_
    refine (builds_emit _ b₁).bind fun b₂ h₂ _ => ?_
    refine (builds_emit _ b₂).bind fun b₃ h₃ _ => ?_
    refine (builds_emit _ b₃).bind fun b₄ h₄ _ => ?_
    rw [← h₁, ← h₂, ← h₃, ← h₄]
    exact builds_pure _ b₄
  | step op name =>
    cases h
    subst hu
    refine (builds_emit _ b).bind fun b₁ h₁ _ => ?_
    have halloc := builds_alloc b₁
    rw [h₁] at halloc
    refine halloc.bind fun b₂ h₂ _ => ?_
    refine (builds_emit _ b₂).bind fun b₃ h₃ _ => ?_
    refine (builds_emit _ b₃).bind fun b₄ h₄ _ => ?_
    refine (builds_emit _ b₄).bind fun b₅ h₅ _ => ?_
    refine (builds_emit _ b₅).bind fun b₆ h₆ _ => ?_
    rw [← h₂, ← h₃, ← h₄, ← h₅, ← h₆]
    exact builds_pure _ b₆

theorem fails_expr {e : Expr} {b : Builder} {n : Nat} {error : LoweringError}
    (hu : b.allocator.inUse = n) (h : Direct.expr n e = .error error) :
    Fails (expr e) b error := by
  induction e generalizing b n with
  | int | float | string | name | step => cases h
  | group inner ih => exact ih hu h
  | binary op left right ihl ihr =>
    rw [Direct.expr] at h
    rw [expr]
    cases hop : Arith.ofBinary? op with
    | none =>
      rw [hop] at h
      cases h
      exact ⟨b, rfl⟩
    | some arith =>
      simp only [hop] at h
      rcases bind_eq_error_iff.mp h with hl | ⟨ls, hl, h₁⟩
      · exact (ihl hu hl).bind
      · refine (builds_expr hu hl).fails fun b₁ hu₁ _ => ?_
        rcases bind_eq_error_iff.mp h₁ with hr | ⟨rs, _, h₂⟩
        · exact (ihr hu₁ hr).bind
        · cases h₂
  | unary op operand ih =>
    rw [Direct.expr] at h
    rcases bind_eq_error_iff.mp h with he | ⟨es, _, h₁⟩
    · exact (ih hu he).bind
    · cases h₁

/-- What an expression appends when it is accepted is its direct code. -/
theorem direct_of_run_expr {e : Expr} {b b' : Builder} {r : Reg}
    (hrun : (expr e).run b = .ok r b') :
    ∃ code, Direct.expr b.allocator.inUse e = .ok code ∧ r = ⟨b.allocator.inUse⟩ ∧
      b'.code.toList = b.code.toList ++ code := by
  cases h : Direct.expr b.allocator.inUse e with
  | error error =>
    obtain ⟨b₁, hrun₁⟩ := fails_expr rfl h
    rw [hrun₁] at hrun
    cases hrun
  | ok code =>
    obtain ⟨b₁, hrun₁, _, hgrow⟩ := builds_expr rfl h
    rw [hrun₁] at hrun
    cases hrun
    exact ⟨code, rfl, rfl, hgrow.code_eq⟩

end Build

end MiniC.Register
