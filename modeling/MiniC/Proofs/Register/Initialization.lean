import MiniC.Proofs.Register.Patching

/-!
# Registers are written before they are read

A taken conditional jump resumes one instruction beyond the end of what it skips. That place is the
second instruction of the next statement, the first one behind an enclosing loop, the jump back of
a loop further out, or lies behind the code. What the code needs from there on, without taking a
jump, is settled: no register is read that is not stored to on the way. Since this holds of every
jump target and of the beginning, every register that is still needed at a place was stored to on
each path to it.
-/

namespace MiniC.Register

set_option autoImplicit false

def Instr.Reads (r : Reg) : Instr → Prop
  | .loadReg s | .arith _ s => s = r
  | _ => False

def Instr.JumpsTo (target : Nat) : Instr → Prop
  | .jump t | .jumpFalse t => t = target
  | _ => False

def Instr.successors (i : Nat) : Instr → List Nat
  | .jump target => [target]
  | .jumpFalse target => [i + 1, target]
  | _ => [i + 1]

/-- Control can go from the first instruction to position `i` by way of the positions `visited`, the
latest of which stands first. -/
inductive Path (code : List Instr) : List Nat → Nat → Prop where
  | start : Path code [] 0
  | step {visited : List Nat} {i j : Nat} {instr : Instr} (h : Path code visited i)
      (hi : code[i]? = some instr) (hj : j ∈ instr.successors i) : Path code (i :: visited) j

/-- Where no conditional jump is taken, `code` reads register `r` and did not store to it before. -/
def Needs (r : Reg) : List Instr → Prop
  | [] => False
  | .loadReg s :: code => s = r ∨ Needs r code
  | .arith _ s :: code => s = r ∨ Needs r code
  | .storeReg s :: code => s ≠ r ∧ Needs r code
  | .jump _ :: _ => False
  | _ :: code => Needs r code

def Settled (code : List Instr) : Prop :=
  ∀ r, ¬ Needs r code

theorem needs_of_reads {r : Reg} {instr : Instr} (h : instr.Reads r) (code : List Instr) :
    Needs r (instr :: code) := by
  cases instr with
  | loadReg s => exact .inl h
  | arith op s => exact .inl h
  | _ => exact absurd h id

/-- What is needed behind an instruction is needed before it, unless the instruction stores it or
does not lead there. -/
theorem needs_cons {r : Reg} {instr : Instr} {code : List Instr} (h : Needs r code)
    (hj : ∀ target, instr ≠ .jump target) : Needs r (instr :: code) ∨ instr = .storeReg r := by
  cases instr with
  | jump target => exact absurd rfl (hj target)
  | loadReg s => exact .inl (.inr h)
  | arith op s => exact .inl (.inr h)
  | storeReg s =>
    by_cases hs : s = r
    · subst hs
      exact .inr rfl
    · exact .inl ⟨hs, h⟩
  | _ => exact .inl h

/-- Control goes to the target of a jump, or on to the next instruction. -/
theorem mem_successors {instr : Instr} {i j : Nat} (h : j ∈ instr.successors i) :
    instr.JumpsTo j ∨ (j = i + 1 ∧ ∀ target, instr ≠ .jump target) := by
  cases instr with
  | jump target => exact .inl (List.mem_singleton.mp h).symm
  | jumpFalse target =>
    rcases List.mem_cons.mp h with rfl | h
    · exact .inr ⟨rfl, by simp⟩
    · exact .inl (List.mem_singleton.mp h).symm
  | _ => exact .inr ⟨List.mem_singleton.mp h, by simp⟩

/-- What is needed at the end of a path was stored to on the way. -/
theorem Path.stored {code : List Instr} {visited : List Nat} {i : Nat} {r : Reg}
    (hstart : Settled code)
    (htargets : ∀ instr ∈ code, ∀ target, instr.JumpsTo target → Settled (code.drop target))
    (h : Path code visited i) (hneeds : Needs r (code.drop i)) :
    ∃ j ∈ visited, code[j]? = some (.storeReg r) := by
  induction h with
  | start => exact absurd hneeds (hstart r)
  | @step visited i j instr h hi hj ih =>
    obtain ⟨hlt, hget⟩ := List.getElem?_eq_some_iff.mp hi
    have hmem : instr ∈ code := List.mem_of_getElem? hi
    have hdrop : code.drop i = instr :: code.drop (i + 1) := by
      rw [List.drop_eq_getElem_cons hlt, hget]
    rcases mem_successors hj with hjump | ⟨rfl, hnext⟩
    · exact absurd hneeds (htargets instr hmem j hjump r)
    · rcases needs_cons hneeds hnext with hbefore | rfl
      · rw [← hdrop] at hbefore
        obtain ⟨k, hk, hstored⟩ := ih hbefore
        exact ⟨k, List.mem_cons_of_mem i hk, hstored⟩
      · exact ⟨i, List.mem_cons_self, hi⟩

namespace Direct

/-- The code of an expression stores to its register and needs nothing else. -/
theorem needs_expr {e : Expr} {n : Nat} {es rest : List Instr} {r : Reg}
    (h : expr n e = .ok es) (hneeds : Needs r (es ++ rest)) : ⟨n⟩ ≠ r ∧ Needs r rest := by
  induction e generalizing n es rest with
  | int | float | string | name =>
    cases h
    exact hneeds
  | step op name =>
    cases h
    obtain ⟨hne, heq | hstored⟩ := hneeds
    · exact absurd heq hne
    · exact hstored
  | group inner ih => exact ih h hneeds
  | binary op left right ihl ihr =>
    obtain ⟨arith, ls, rs, _, hl, hr, rfl⟩ := expr_binary_eq_ok h
    rw [List.append_assoc, List.append_assoc] at hneeds
    obtain ⟨hne, hright⟩ := ihl hl hneeds
    obtain ⟨hne', hend⟩ := ihr hr hright
    rcases hend with heq | heq | hstored
    · exact absurd heq hne
    · exact absurd heq hne'
    · exact hstored
  | unary op operand ih =>
    obtain ⟨es, he, rfl⟩ := expr_unary_eq_ok h
    rw [List.append_assoc] at hneeds
    obtain ⟨hne, heq | hstored⟩ := ih he hneeds
    · exact absurd heq hne
    · exact hstored

/-- The first instruction of an expression loads a value from elsewhere, so that the code needs the
same without it. -/
theorem expr_first {e : Expr} {n : Nat} {es : List Instr} (h : expr n e = .ok es) :
    ∃ load tail, es = load :: tail ∧ ∀ r rest, Needs r rest → Needs r (load :: rest) := by
  induction e generalizing n es with
  | int | float | string | name | step =>
    cases h
    exact ⟨_, _, rfl, fun r rest hneeds => hneeds⟩
  | group inner ih => exact ih h
  | binary op left right ihl _ =>
    obtain ⟨arith, ls, rs, _, hl, _, rfl⟩ := expr_binary_eq_ok h
    obtain ⟨load, tail, rfl, hload⟩ := ihl hl
    exact ⟨load, _, rfl, hload⟩
  | unary op operand ih =>
    obtain ⟨es, he, rfl⟩ := expr_unary_eq_ok h
    obtain ⟨load, tail, rfl, hload⟩ := ih he
    exact ⟨load, _, rfl, hload⟩

theorem settled_drop_one {e : Expr} {n : Nat} {es rest : List Instr} (h : expr n e = .ok es)
    (hs : Settled (es ++ rest)) : Settled ((es ++ rest).drop 1) := by
  obtain ⟨load, tail, rfl, hload⟩ := expr_first h
  intro r hneeds
  exact hs r (hload r _ hneeds)

theorem settled_expr {e : Expr} {n : Nat} {es rest : List Instr} (h : expr n e = .ok es)
    (hrest : ∀ r, ⟨n⟩ ≠ r → ¬ Needs r rest) : Settled (es ++ rest) := by
  intro r hneeds
  obtain ⟨hne, hbehind⟩ := needs_expr h hneeds
  exact hrest r hne hbehind

theorem expr_not_jumpsTo {e : Expr} {n : Nat} {es : List Instr} {instr : Instr}
    (h : expr n e = .ok es) (hm : instr ∈ es) (target : Nat) : ¬ instr.JumpsTo target := by
  have hnot := expr_not_jump h instr hm
  cases instr with
  | jump t => exact absurd trivial hnot
  | jumpFalse t => exact absurd trivial hnot
  | _ => exact id

/-- Between `front` and `rest`, the code is settled at its beginning, at its second instruction, and
wherever it jumps to. -/
structure Lands (front code rest : List Instr) : Prop where
  first : Settled (code ++ rest)
  second : Settled ((code ++ rest).drop 1)
  targets : ∀ instr ∈ code, ∀ target, instr.JumpsTo target →
    Settled ((front ++ (code ++ rest)).drop target)

/-- The code of an expression with `more` behind it. Its own instructions do not jump. -/
theorem lands_expr {e : Expr} {n : Nat} {front es more rest : List Instr}
    (h : expr n e = .ok es) (hmore : ∀ r, ⟨n⟩ ≠ r → ¬ Needs r (more ++ rest))
    (htargets : ∀ instr ∈ more, ∀ target, instr.JumpsTo target →
      Settled ((front ++ (es ++ more ++ rest)).drop target)) : Lands front (es ++ more) rest := by
  have hfirst : Settled (es ++ (more ++ rest)) := settled_expr h hmore
  refine ⟨?_, ?_, ?_⟩
  · rw [List.append_assoc]
    exact hfirst
  · rw [List.append_assoc]
    exact settled_drop_one h hfirst
  · intro instr hm target hjump
    rcases List.mem_append.mp hm with hm | hm
    · exact absurd hjump (expr_not_jumpsTo h hm target)
    · exact htargets instr hm target hjump

theorem not_needs_skip {n target : Nat} {body rest : List Instr} (hbody : Settled (body ++ rest))
    (r : Reg) (hne : ⟨n⟩ ≠ r) : ¬ Needs r (.loadReg ⟨n⟩ :: .jumpFalse target :: body ++ rest) := by
  rintro (heq | hbehind)
  · exact hne heq
  · exact hbody r hbehind

/-- A conditional jump to the instruction past the first one behind `body`. -/
theorem lands_skip {e : Expr} {n target : Nat} {front es body rest : List Instr}
    (h : expr n e = .ok es) (hbody : Settled (body ++ rest)) (hrest : Settled (rest.drop 1))
    (htarget : front.length + es.length + 2 + body.length + 1 = target)
    (htargets : ∀ instr ∈ body, ∀ t, instr.JumpsTo t →
      Settled ((front ++ (es ++ .loadReg ⟨n⟩ :: .jumpFalse target :: body ++ rest)).drop t)) :
    Lands front (es ++ .loadReg ⟨n⟩ :: .jumpFalse target :: body) rest := by
  refine lands_expr h (not_needs_skip hbody) ?_
  intro instr hm t hjump
  simp only [List.mem_cons] at hm
  rcases hm with rfl | rfl | hm
  · exact absurd hjump id
  · have ht : target = t := hjump
    have hlength : t =
        (front ++ (es ++ Instr.loadReg ⟨n⟩ :: .jumpFalse target :: body)).length + 1 := by
      simp only [List.length_append, List.length_cons]
      omega
    have hdrop : (front ++ (es ++ .loadReg ⟨n⟩ :: .jumpFalse target :: body ++ rest)).drop t =
        rest.drop 1 := by
      rw [← List.append_assoc front, hlength, ← List.drop_drop, List.drop_left]
    rw [hdrop]
    exact hrest
  · exact htargets instr hm t hjump

mutual

theorem stmt_lands {s : Stmt} {n base : Nat} {front code rest : List Instr}
    (h : stmt n base s = .ok code) (hbase : base = front.length) (hrest : Settled rest)
    (hrest' : Settled (rest.drop 1)) : Lands front code rest := by
  cases s with
  | expr value =>
    rw [stmt] at h
    rw [← List.append_nil code]
    exact lands_expr h (fun r _ => hrest r) (by simp)
  | define isConst type name value =>
    obtain ⟨es, he, rfl⟩ := stmt_define_eq_ok h
    refine lands_expr he ?_ (by simp [Instr.JumpsTo])
    intro r hne hneeds
    rcases hneeds with heq | hbehind
    · exact hne heq
    · exact hrest r hbehind
  | declare isConst type name =>
    rw [stmt] at h
    cases h
  | assign op name value =>
    rw [stmt] at h
    cases h
  | branch test body otherwise =>
    obtain ⟨_, es, bs, he, hb, rfl⟩ := stmt_branch_eq_ok h
    generalize htarget : base + es.length + 2 + bs.length + 1 = target
    have hbody : Lands (front ++ (es ++ [.loadReg ⟨n⟩, .jumpFalse target])) bs rest :=
      block_lands hb (by simp [hbase, Nat.add_assoc]) hrest hrest'
    refine lands_skip he hbody.first hrest' (by rw [← hbase, htarget]) ?_
    intro instr hm t hjump
    have htarget := hbody.targets instr hm t hjump
    simpa only [List.append_assoc, List.cons_append, List.nil_append] using htarget
  | loop test body =>
    obtain ⟨es, bs, he, hb, rfl⟩ := stmt_loop_eq_ok h
    generalize htarget : base + es.length + 2 + bs.length + 2 = target
    have hback : Settled (.jump base :: rest) := fun r hneeds => hneeds
    have hbody : Lands (front ++ (es ++ [.loadReg ⟨n⟩, .jumpFalse target])) bs
        (.jump base :: rest) := block_lands hb (by simp [hbase, Nat.add_assoc]) hback hrest
    have hfirst : Settled (bs ++ [.jump base] ++ rest) := by
      rw [List.append_assoc]
      exact hbody.first
    have hlength : (bs ++ [Instr.jump base]).length = bs.length + 1 := by simp
    refine lands_skip he hfirst hrest' (by omega) ?_
    intro instr hm t hjump
    rcases List.mem_append.mp hm with hm | hm
    · have htarget := hbody.targets instr hm t hjump
      simpa only [List.append_assoc, List.cons_append, List.nil_append] using htarget
    · cases List.mem_singleton.mp hm
      have ht : base = t := hjump
      subst hbase ht
      rw [List.drop_left, List.append_assoc]
      exact settled_expr he (not_needs_skip hfirst)

theorem block_lands {ss : List Stmt} {n base : Nat} {front code rest : List Instr}
    (h : block n base ss = .ok code) (hbase : base = front.length) (hrest : Settled rest)
    (hrest' : Settled (rest.drop 1)) : Lands front code rest := by
  cases ss with
  | nil =>
    rw [block] at h
    cases h
    exact ⟨hrest, hrest', by simp⟩
  | cons s ss =>
    obtain ⟨cs, ds, hc, hd, rfl⟩ := block_cons_eq_ok h
    have hds : Lands (front ++ cs) ds rest := block_lands hd (by simp [hbase]) hrest hrest'
    have hcs := stmt_lands hc hbase hds.first hds.second
    refine ⟨?_, ?_, ?_⟩
    · rw [List.append_assoc]
      exact hcs.first
    · rw [List.append_assoc]
      exact hcs.second
    · intro instr hm target hjump
      rw [List.append_assoc cs]
      rcases List.mem_append.mp hm with hm | hm
      · exact hcs.targets instr hm target hjump
      · have htarget := hds.targets instr hm target hjump
        rwa [List.append_assoc] at htarget

end

end Direct

/-- On every path through the code of a program, a register that an instruction reads was stored to
before. -/
theorem read_after_store {p : Program} {code : List Instr} (h : lower p = .ok code)
    {visited : List Nat} {i : Nat} (hpath : Path code visited i) {instr : Instr} {r : Reg}
    (hi : code[i]? = some instr) (hread : instr.Reads r) :
    ∃ j ∈ visited, code[j]? = some (.storeReg r) := by
  rw [lower_eq_block] at h
  have hend : Settled [] := fun r hneeds => hneeds
  have hlands : Direct.Lands [] code [] := Direct.block_lands h rfl hend hend
  have hfirst := hlands.first
  have htargets := hlands.targets
  simp only [List.append_nil, List.nil_append] at hfirst htargets
  obtain ⟨hlt, hget⟩ := List.getElem?_eq_some_iff.mp hi
  have hneeds : Needs r (code.drop i) := by
    rw [List.drop_eq_getElem_cons hlt, hget]
    exact needs_of_reads hread _
  exact hpath.stored hfirst htargets hneeds

/-- A sum behind a loop. The jump out of the loop leads past the first instruction of the sum. -/
def loopThenSum : Program :=
  [.loop (.name "x") [.expr (.int 1)], .expr (.binary .add (.int 2) (.name "a"))]

/-- The loop is left at once; on this path both operands of the sum have been stored to. -/
theorem read_loopThenSum :
    ∃ code, lower loopThenSum = .ok code ∧ code[3]? = some (.jumpFalse 8) ∧
      code[12]? = some (.arith .add ⟨1⟩) ∧ Path code [11, 10, 9, 8, 3, 2, 1, 0] 12 ∧
      ∃ j ∈ [11, 10, 9, 8, 3, 2, 1, 0], code[j]? = some (.storeReg ⟨1⟩) := by
  obtain ⟨code, hlower, hcode⟩ : ∃ code, lower loopThenSum = .ok code ∧ code =
      [.loadVar "x", .storeReg ⟨0⟩, .loadReg ⟨0⟩, .jumpFalse 8, .loadInt 1, .storeReg ⟨0⟩, .jump 0,
        .loadInt 2, .storeReg ⟨0⟩, .loadVar "a", .storeReg ⟨1⟩, .loadReg ⟨0⟩, .arith .add ⟨1⟩,
        .storeReg ⟨0⟩] := ⟨_, (lower_eq_block loopThenSum).trans rfl, rfl⟩
  have hcondition : Path code [2, 1, 0] 3 := by
    subst hcode
    exact .step (.step (.step .start rfl (.head _)) rfl (.head _)) rfl (.head _)
  have hjump : Path code [3, 2, 1, 0] 8 := by
    subst hcode
    exact .step hcondition rfl (.tail _ (.head _))
  have hsum : Path code [11, 10, 9, 8, 3, 2, 1, 0] 12 := by
    subst hcode
    exact .step (.step (.step (.step hjump rfl (.head _)) rfl (.head _)) rfl (.head _)) rfl
      (.head _)
  have hread : code[12]? = some (.arith .add ⟨1⟩) := by rw [hcode]; rfl
  exact ⟨code, hlower, by rw [hcode]; rfl, hread, hsum, read_after_store hlower hsum hread rfl⟩

end MiniC.Register
