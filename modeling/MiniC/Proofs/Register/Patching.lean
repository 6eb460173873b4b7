import MiniC.Proofs.Register.Building

/-!
# Patched code is direct code

A conditional jump is written before its target is known. Lowering still gives the code of the
direct compiler, and the same errors.
-/

namespace MiniC.Register

set_option autoImplicit false

namespace Build

theorem builds_condition {e : Expr} {b : Builder} {n : Nat} {es : List Instr}
    (hu : b.allocator.inUse = n) (h : Direct.expr n e = .ok es) :
    Builds (condition e) b () n (es ++ [.loadReg ⟨n⟩]) := by
  refine (builds_expr hu h).bind fun b₁ h₁ _ => ?_
  refine (builds_emit _ b₁).bind fun b₂ h₂ _ => ?_
  exact builds_release (by omega)

theorem builds_openJump (b : Builder) :
    Builds openJump b b.code.size b.allocator.inUse [.jumpFalse 0] :=
  ⟨_, rfl, rfl, (Grows.refl b).emit _⟩

/-- A conditional jump over `x`: the jump is written first, and patched behind `x`. -/
theorem builds_skip {e : Expr} {x : Build Unit} {b : Builder} {n : Nat} {es bs : List Instr}
    (hu : b.allocator.inUse = n) (he : Direct.expr n e = .ok es)
    (hx : ∀ b', b'.allocator.inUse = n → b'.code.size = b.code.size + es.length + 2 →
      Builds x b' () n bs) :
    Builds (do
      condition e
      let jump ← openJump
      x
      patchPastEnd jump) b () n
      (es ++ .loadReg ⟨n⟩ :: .jumpFalse (b.code.size + es.length + 2 + bs.length + 1) :: bs) := by
  obtain ⟨b₁, hrun₁, hu₁, hg₁⟩ := builds_condition hu he
  obtain ⟨b₂, hrun₂, hu₂, hg₂⟩ := builds_openJump b₁
  have hs₁ := hg₁.size_eq
  have hs₂ := hg₂.size_eq
  have hfront : (es ++ [Instr.loadReg ⟨n⟩]).length = es.length + 1 := by simp
  have hjump : [Instr.jumpFalse 0].length = 1 := rfl
  obtain ⟨b₃, hrun₃, hu₃, hg₃⟩ := hx b₂ (by omega) (by omega)
  have hs₃ := hg₃.size_eq
  have htarget : b.code.size + es.length + 2 + bs.length + 1 = b₃.code.size + 1 := by omega
  have hgrow := (hg₁.trans (hg₂.trans hg₃)).patch hs₁ htarget
  rw [List.append_assoc] at hgrow
  refine ⟨_, ?_, ?_, hgrow⟩
  · rw [run_bind, hrun₁]
    dsimp only
    rw [run_bind, hrun₂]
    dsimp only
    rw [run_bind, hrun₃]
    dsimp only
    rw [run_patchPastEnd, htarget]
  · exact hu₃

mutual

theorem builds_stmt {s : Stmt} {b : Builder} {n : Nat} {code : List Instr}
    (hu : b.allocator.inUse = n) (h : Direct.stmt n b.code.size s = .ok code) :
    Builds (stmt s) b () n code := by
  cases s with
  | expr value =>
    rw [Direct.stmt] at h
    rw [stmt, ← List.append_nil code]
    exact (builds_expr hu h).bind fun b₁ h₁ _ => builds_release h₁
  | define isConst type name value =>
    obtain ⟨es, he, rfl⟩ := Direct.stmt_define_eq_ok h
    rw [stmt]
    refine (builds_expr hu he).bind fun b₁ h₁ _ => ?_
    refine (builds_emit _ b₁).bind fun b₂ h₂ _ => ?_
    refine (builds_emit _ b₂).bind fun b₃ h₃ _ => ?_
    exact builds_release (by omega)
  | declare isConst type name =>
    rw [Direct.stmt] at h
    cases h
  | assign op name value =>
    rw [Direct.stmt] at h
    cases h
  | branch test body otherwise =>
    obtain ⟨rfl, es, bs, he, hb, rfl⟩ := Direct.stmt_branch_eq_ok h
    rw [stmt]
    refine builds_skip hu he fun b' hu' hs' => ?_
    rw [← hs'] at hb
    exact builds_block hu' hb
  | loop test body =>
    obtain ⟨es, bs, he, hb, rfl⟩ := Direct.stmt_loop_eq_ok h
    -- the jump back counts as part of the body, so that the patched jump leads past it
    have hbody : ∀ b' : Builder, b'.allocator.inUse = n →
        b'.code.size = b.code.size + es.length + 2 →
        Builds (do block body; emit (.jump b.code.size)) b' () n (bs ++ [.jump b.code.size]) := by
      intro b' hu' hs'
      rw [← hs'] at hb
      refine (builds_block hu' hb).bind fun b₁ h₁ _ => ?_
      rw [← h₁]
      exact builds_emit _ b₁
    have htarget : b.code.size + es.length + 2 + (bs.length + 1) + 1 =
        b.code.size + es.length + 2 + bs.length + 2 := by omega
    have hskip := builds_skip hu he hbody
    simp only [bind_assoc, List.length_append, List.length_singleton, htarget] at hskip
    rw [stmt]
    exact builds_here hskip

theorem builds_block {ss : List Stmt} {b : Builder} {n : Nat} {code : List Instr}
    (hu : b.allocator.inUse = n) (h : Direct.block n b.code.size ss = .ok code) :
    Builds (block ss) b () n code := by
  cases ss with
  | nil =>
    rw [Direct.block] at h
    cases h
    rw [block, ← hu]
    exact builds_pure () b
  | cons s ss =>
    obtain ⟨cs, ds, hc, hd, rfl⟩ := Direct.block_cons_eq_ok h
    rw [block]
    refine (builds_stmt hu hc).bind fun b₁ hu₁ hs₁ => ?_
    rw [← hs₁] at hd
    exact builds_block hu₁ hd

end

theorem fails_condition {e : Expr} {b : Builder} {n : Nat} {error : LoweringError}
    (hu : b.allocator.inUse = n) (h : Direct.expr n e = .error error) :
    Fails (condition e) b error :=
  (fails_expr hu h).bind

/-- A conditional jump over `x` fails where its condition or `x` does. -/
theorem fails_skip {e : Expr} {x : Build Unit} {b : Builder} {n : Nat} {es : List Instr}
    {error : LoweringError} (hu : b.allocator.inUse = n) (he : Direct.expr n e = .ok es)
    (hx : ∀ b', b'.allocator.inUse = n → b'.code.size = b.code.size + es.length + 2 →
      Fails x b' error) :
    Fails (do
      condition e
      let jump ← openJump
      x
      patchPastEnd jump) b error := by
  refine (builds_condition hu he).fails fun b₁ hu₁ hs₁ => ?_
  refine (builds_openJump b₁).fails fun b₂ hu₂ hs₂ => ?_
  simp only [List.length_append, List.length_cons, List.length_nil] at hs₁ hs₂
  exact (hx b₂ (by omega) (by omega)).bind

mutual

theorem fails_stmt {s : Stmt} {b : Builder} {n : Nat} {error : LoweringError}
    (hu : b.allocator.inUse = n) (h : Direct.stmt n b.code.size s = .error error) :
    Fails (stmt s) b error := by
  cases s with
  | expr value =>
    rw [Direct.stmt] at h
    rw [stmt]
    exact (fails_expr hu h).bind
  | define isConst type name value =>
    rw [Direct.stmt] at h
    rw [stmt]
    rcases bind_eq_error_iff.mp h with he | ⟨es, _, h₁⟩
    · exact (fails_expr hu he).bind
    · cases h₁
  | declare isConst type name =>
    rw [Direct.stmt] at h
    cases h
    exact ⟨b, by rw [stmt]; rfl⟩
  | assign op name value =>
    rw [Direct.stmt] at h
    cases h
    exact ⟨b, by rw [stmt]; rfl⟩
  | branch test body otherwise =>
    cases otherwise with
    | none =>
      rw [Direct.stmt] at h
      rw [stmt]
      rcases bind_eq_error_iff.mp h with he | ⟨es, he, h₁⟩
      · exact (fails_condition hu he).bind
      · refine fails_skip hu he fun b' hu' hs' => ?_
        rcases bind_eq_error_iff.mp h₁ with hb | ⟨bs, _, h₂⟩
        · rw [← hs'] at hb
          exact fails_block hu' hb
        · cases h₂
    | block =>
      simp only [Direct.stmt, Except.error.injEq] at h
      refine ⟨b, ?_⟩
      simp only [stmt, run_throw, h]
    | branch =>
      simp only [Direct.stmt, Except.error.injEq] at h
      refine ⟨b, ?_⟩
      simp only [stmt, run_throw, h]
  | loop test body =>
    rw [Direct.stmt] at h
    rw [stmt]
    apply fails_here
    rcases bind_eq_error_iff.mp h with he | ⟨es, he, h₁⟩
    · exact (fails_condition hu he).bind
    · have hbody : ∀ b' : Builder, b'.allocator.inUse = n →
          b'.code.size = b.code.size + es.length + 2 →
          Fails (do block body; emit (.jump b.code.size)) b' error := by
        intro b' hu' hs'
        rcases bind_eq_error_iff.mp h₁ with hb | ⟨bs, _, h₂⟩
        · rw [← hs'] at hb
          exact (fails_block hu' hb).bind
        · cases h₂
      have hskip := fails_skip hu he hbody
      simp only [bind_assoc] at hskip
      exact hskip

theorem fails_block {ss : List Stmt} {b : Builder} {n : Nat} {error : LoweringError}
    (hu : b.allocator.inUse = n) (h : Direct.block n b.code.size ss = .error error) :
    Fails (block ss) b error := by
  cases ss with
  | nil =>
    rw [Direct.block] at h
    cases h
  | cons s ss =>
    rw [Direct.block] at h
    rw [block]
    rcases bind_eq_error_iff.mp h with hc | ⟨cs, hc, h₁⟩
    · exact (fails_stmt hu hc).bind
    · refine (builds_stmt hu hc).fails fun b₁ hu₁ hs₁ => ?_
      rcases bind_eq_error_iff.mp h₁ with hd | ⟨ds, _, h₂⟩
      · rw [← hs₁] at hd
        exact fails_block hu₁ hd
      · cases h₂

end

end Build

theorem lower_eq_block (p : Program) : lower p = Direct.block 0 0 p := by
  unfold lower
  cases h : Direct.block 0 0 p with
  | error e =>
    obtain ⟨b, hrun⟩ := Build.fails_block (b := .empty) rfl h
    rw [hrun]
  | ok code =>
    obtain ⟨b, hrun, _, hgrow⟩ := Build.builds_block (b := .empty) rfl h
    have hcode : b.code.toList = code := hgrow.code_eq
    rw [hrun, ← hcode]

/-- Lowering gives the code of the direct compiler, or its error. No conditional jump keeps the
target with which it was written, and none is changed after it was patched. -/
theorem lower_eq_direct (p : Program) :
    lower p = Direct.block 0 0 p ∧
      ∀ b, (Build.block p).run .empty = .ok () b →
        (∀ target, .jumpFalse target ∈ b.code.toList → target ≠ 0) ∧
        ∀ jump target, .patched jump target ∈ b.events.toList →
          b.code.toList[jump]? = some (.jumpFalse target) := by
  refine ⟨lower_eq_block p, ?_⟩
  intro b hb
  cases h : Direct.block 0 0 p with
  | error e =>
    obtain ⟨b', hrun⟩ := Build.fails_block (b := .empty) rfl h
    rw [hrun] at hb
    cases hb
  | ok code =>
    obtain ⟨b', hrun, _, hgrow⟩ := Build.builds_block (b := .empty) rfl h
    rw [hrun] at hb
    cases hb
    have hcode : b.code.toList = code := hgrow.code_eq
    obtain ⟨events, hevents, hpatches⟩ := hgrow.patches
    have hevents' : b.events.toList = events := hevents
    constructor
    · intro target hm
      rw [hcode] at hm
      have hlt := Direct.block_targets h target hm
      omega
    · intro jump target hm
      rw [hevents'] at hm
      exact (hpatches jump target hm).2

def branchInLoop : Program :=
  [.loop (.name "x") [.branch (.name "y") [.expr (.int 1)] .none]]

/-- The inner jump keeps its target when the outer one is patched. -/
theorem lower_branchInLoop :
    lower branchInLoop = .ok [.loadVar "x", .storeReg ⟨0⟩, .loadReg ⟨0⟩, .jumpFalse 12,
      .loadVar "y", .storeReg ⟨0⟩, .loadReg ⟨0⟩, .jumpFalse 11, .loadInt 1, .storeReg ⟨0⟩,
      .jump 0] ∧
    ∃ b, (Build.block branchInLoop).run .empty = .ok () b ∧ .patched 7 11 ∈ b.events.toList ∧
      b.code.toList[7]? = some (.jumpFalse 11) :=
  ⟨(lower_eq_direct branchInLoop).1.trans rfl, _, rfl, by decide,
    ((lower_eq_direct branchInLoop).2 _ rfl).2 7 11 (by decide)⟩

end MiniC.Register
