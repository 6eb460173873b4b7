import MiniC.Proofs.Parser.Outcome
import MiniC.Proofs.Parser.Spelling

/-!
# Expressions are read as they are spelled

What `expression` reads is a spelling of the canonical expression that it returns, and every
spelling of a canonical expression is read back. The chain of operators is built from left to right
by `attach`; the fact behind completeness is that attaching a whole right operand at once gives the
same tree as attaching its parts one after another.
-/

namespace MiniC

set_option autoImplicit false

theorem BinaryOp.precedence_eq_level (op : BinaryOp) : op.precedence = op.level := by
  cases op <;> rfl

namespace Expr

theorem attach_binary (root op : BinaryOp) (l r e : Expr) :
    (binary root l r).attach op e =
      if root.level < op.level then .binary root l (r.attach op e)
      else .binary op (.binary root l r) e := by
  rw [attach, BinaryOp.precedence_eq_level, BinaryOp.precedence_eq_level]

theorem IsAtom.isOperand {e : Expr} (h : e.IsAtom) : e.IsOperand := by
  cases e <;> trivial

theorem IsOperand.fitsRight {e : Expr} (h : e.IsOperand) (op : BinaryOp) : e.FitsRight op := by
  cases e <;> trivial

/-- Where `left` binds at least as tightly as `op`, it becomes the left operand as a whole. -/
theorem attach_of_fitsLeft {left : Expr} {op : BinaryOp} (h : left.FitsLeft op) (e : Expr) :
    left.attach op e = .binary op left e := by
  cases left with
  | binary root l r => rw [attach_binary, if_neg (Nat.not_lt.mpr h)]
  | _ => rfl

/-- An operator that binds more tightly goes on inside the operand attached before. -/
theorem attach_attach {left l r : Expr} {op inner : BinaryOp}
    (hp : op.level < inner.level) (hl : l.FitsLeft inner) :
    (left.attach op l).attach inner r = left.attach op (.binary inner l r) := by
  have hroot (e : Expr) : (binary op e l).attach inner r = .binary op e (.binary inner l r) := by
    rw [attach_binary, if_pos hp, attach_of_fitsLeft hl]
  induction left with
  | binary root a b _ ihb =>
    by_cases h : root.level < op.level
    · have hi : root.level < inner.level := by omega
      simp only [attach_binary, h, if_true, hi, ihb]
    · rw [attach_binary root op, attach_binary root op, if_neg h, if_neg h]
      exact hroot _
  | _ => exact hroot _

theorem spelled_attach {left e : Expr} {op : BinaryOp} {mark : Token} {ls es : List Token}
    (hl : left.Spelled ls) (hm : mark.kind = op.kind) (he : e.Spelled es) :
    (left.attach op e).Spelled (ls ++ mark :: es) := by
  induction hl with
  | @binary root l r m _ _ left kind right _ ihr =>
    rw [attach_binary]
    split
    · rw [List.append_assoc, List.cons_append]
      exact .binary left kind ihr
    · exact .binary (.binary left kind right) hm he
  | _ => exact .binary (by constructor <;> assumption) hm he

theorem fitsRight_attach {left : Expr} {root op : BinaryOp} (hl : left.FitsRight root)
    (hp : root.level < op.level) (e : Expr) : (left.attach op e).FitsRight root := by
  cases left with
  | binary inner l r =>
    rw [attach_binary]
    split
    · exact hl
    · exact hp
  | _ => exact hp

theorem canonical_attach {left e : Expr} {op : BinaryOp} (hl : left.Canonical) (he : e.Canonical)
    (ho : e.IsOperand) : (left.attach op e).Canonical := by
  induction left with
  | binary root l r _ ihr =>
    obtain ⟨hfl, hfr, hcl, hcr⟩ := hl
    rw [attach_binary]
    split
    · rename_i hp
      exact ⟨hfl, fitsRight_attach hfr hp e, hcl, ihr hcr⟩
    · rename_i hp
      exact ⟨Nat.le_of_not_lt hp, ho.fitsRight op, ⟨hfl, hfr, hcl, hcr⟩, he⟩
  | _ => exact ⟨trivial, ho.fitsRight op, hl, he⟩

theorem Spelled.atom_head {e : Expr} {ts : List Token} (h : e.Spelled ts) (ha : e.IsAtom) :
    ∃ token rest, ts = token :: rest ∧ UnaryOp.ofKind? token.kind = none := by
  cases h with
  | int kind _ => exact ⟨_, _, rfl, by rw [kind]; rfl⟩
  | float kind _ => exact ⟨_, _, rfl, by rw [kind]; rfl⟩
  | string kind => exact ⟨_, _, rfl, by rw [kind]; rfl⟩
  | name kind => exact ⟨_, _, rfl, by rw [kind]; rfl⟩
  | step kind _ => exact ⟨_, _, rfl, by rw [kind]; rfl⟩
  | unary => exact absurd ha id
  | binary => exact absurd ha id
  | group kind _ _ => exact ⟨_, _, rfl, by rw [kind]; rfl⟩

end Expr

namespace Parser

theorem named_of_none (name : String) {ts : List Token}
    (h : ∀ token ∈ ts.head?, StepOp.ofKind? token.kind = none) :
    (named name ts).1 = .name name ∧ (named name ts).2.val = ts := by
  cases ts with
  | nil => exact ⟨rfl, rfl⟩
  | cons token rest => simp [named, h token rfl]

theorem named_of_some (name : String) {token : Token} {op : StepOp}
    (h : StepOp.ofKind? token.kind = some op) (rest : List Token) :
    (named name (token :: rest)).1 = .step op name ∧ (named name (token :: rest)).2.val = rest := by
  simp [named, h]

/-- A spelling of the canonical expression `e` begins `ts`, and `rest` follows it. -/
def ReadsExpr (ts : List Token) (e : Expr) (rest : List Token) : Prop :=
  ∃ used, ts = used ++ rest ∧ e.Spelled used ∧ e.Canonical

theorem named_sound {token : Token} (h : token.kind = .identifier) (ts : List Token) :
    ReadsExpr (token :: ts) (named token.lexeme ts).1 (named token.lexeme ts).2.val ∧
      (named token.lexeme ts).1.IsAtom := by
  have hname (hn : ∀ mark ∈ ts.head?, StepOp.ofKind? mark.kind = none) :
      ReadsExpr (token :: ts) (named token.lexeme ts).1 (named token.lexeme ts).2.val ∧
        (named token.lexeme ts).1.IsAtom := by
    rw [(named_of_none token.lexeme hn).1, (named_of_none token.lexeme hn).2]
    exact ⟨⟨[token], rfl, .name h, trivial⟩, trivial⟩
  cases ts with
  | nil => exact hname (by simp)
  | cons mark rest =>
    cases hm : StepOp.ofKind? mark.kind with
    | none => exact hname (by simp [hm])
    | some op =>
      rw [(named_of_some token.lexeme hm rest).1, (named_of_some token.lexeme hm rest).2]
      exact ⟨⟨[token, mark], rfl, .step h (StepOp.ofKind?_eq_some_iff.mp hm), trivial⟩, trivial⟩

theorem integer_sound {token : Token} {ts : List Token} {e : Expr}
    (h : integer token ts = .ok e) (hk : token.kind = .integer) :
    e.Spelled [token] ∧ e.Canonical ∧ e.IsAtom := by
  unfold integer at h
  split at h
  · rename_i n hn
    cases h
    exact ⟨.int hk hn, trivial, trivial⟩
  · cases h

theorem float_sound {token : Token} {ts : List Token} {e : Expr}
    (h : float token ts = .ok e) (hk : token.kind = .decimal) :
    e.Spelled [token] ∧ e.Canonical ∧ e.IsAtom := by
  unfold float at h
  split at h
  · rename_i x hx
    cases h
    exact ⟨.float hk hx, trivial, trivial⟩
  · cases h

mutual

theorem expression_sound {ts rest : List Token} {e : Expr}
    (h : outcome (expression ts) = .ok (e, rest)) : ReadsExpr ts e rest := by
  rw [outcome_expression] at h
  obtain ⟨⟨first, ts₁⟩, ho, hc⟩ := bind_eq_ok_iff.mp h
  have hlt : ts₁.length < ts.length := outcome_property ho
  obtain ⟨⟨fs, rfl, hfs, hfc⟩, _⟩ := operand_sound ho
  obtain ⟨used, rfl, hs, hcan⟩ := chain_sound hc hfc hfs
  exact ⟨fs ++ used, by rw [List.append_assoc], hs, hcan⟩
termination_by 3 * ts.length + 2

theorem chain_sound {left e : Expr} {ts rest ls : List Token}
    (h : outcome (chain left ts) = .ok (e, rest)) (hl : left.Canonical) (hs : left.Spelled ls) :
    ∃ used, ts = used ++ rest ∧ e.Spelled (ls ++ used) ∧ e.Canonical := by
  have hstop (he : (.ok (left, ts) : Except Failure (Expr × List Token)) = .ok (e, rest)) :
      ∃ used, ts = used ++ rest ∧ e.Spelled (ls ++ used) ∧ e.Canonical := by
    cases he
    exact ⟨[], rfl, by simpa using hs, hl⟩
  cases ts with
  | nil =>
    rw [outcome_chain_nil] at h
    exact hstop h
  | cons token ts₁ =>
    cases hop : BinaryOp.ofKind? token.kind with
    | none =>
      rw [outcome_chain_of_none hop] at h
      exact hstop h
    | some op =>
      rw [outcome_chain_of_some hop] at h
      obtain ⟨⟨right, ts₂⟩, ho, hc⟩ := bind_eq_ok_iff.mp h
      have hlt : ts₂.length < ts₁.length := outcome_property ho
      obtain ⟨⟨rs, rfl, hrs, hrc⟩, hro⟩ := operand_sound ho
      have hspelled := Expr.spelled_attach hs (BinaryOp.ofKind?_eq_some_iff.mp hop) hrs
      obtain ⟨used, rfl, hu, hcan⟩ :=
        chain_sound hc (Expr.canonical_attach hl hrc hro) hspelled
      exact ⟨token :: (rs ++ used), by simp, by simpa using hu, hcan⟩
termination_by 3 * ts.length

theorem operand_sound {ts rest : List Token} {e : Expr}
    (h : outcome (operand ts) = .ok (e, rest)) : ReadsExpr ts e rest ∧ e.IsOperand := by
  cases ts with
  | nil =>
    rw [operand, atom] at h
    cases h
  | cons token ts₁ =>
    cases hop : UnaryOp.ofKind? token.kind with
    | none =>
      rw [outcome_operand_of_none hop] at h
      obtain ⟨hr, ha⟩ := atom_sound h
      exact ⟨hr, ha.isOperand⟩
    | some op =>
      rw [outcome_operand_of_some hop] at h
      obtain ⟨⟨inner, ts₂⟩, ha, he⟩ := bind_eq_ok_iff.mp h
      cases he
      obtain ⟨⟨used, rfl, hs, hc⟩, hatom⟩ := atom_sound ha
      refine ⟨⟨token :: used, rfl, ?_, hatom, hc⟩, trivial⟩
      exact .unary (UnaryOp.ofKind?_eq_some_iff.mp hop) hs
termination_by 3 * ts.length + 1

theorem atom_sound {ts rest : List Token} {e : Expr}
    (h : outcome (atom ts) = .ok (e, rest)) : ReadsExpr ts e rest ∧ e.IsAtom := by
  cases ts with
  | nil =>
    rw [atom] at h
    cases h
  | cons token ts₁ =>
    rw [outcome_atom_cons] at h
    split at h
    · rename_i hk
      obtain ⟨⟨inner, ts₂⟩, he, h⟩ := bind_eq_ok_iff.mp h
      obtain ⟨⟨closing, ts₃⟩, hp, h⟩ := bind_eq_ok_iff.mp h
      cases h
      obtain ⟨hpk, rfl⟩ := outcome_expect_eq_ok_iff.mp hp
      obtain ⟨used, rfl, hs, hc⟩ := expression_sound he
      exact ⟨⟨token :: (used ++ [closing]), by simp, .group hk hs hpk, hc⟩, trivial⟩
    · rename_i hk
      obtain ⟨value, hv, h⟩ := bind_eq_ok_iff.mp h
      cases h
      obtain ⟨hs, hc, ha⟩ := integer_sound hv hk
      exact ⟨⟨[token], rfl, hs, hc⟩, ha⟩
    · rename_i hk
      obtain ⟨value, hv, h⟩ := bind_eq_ok_iff.mp h
      cases h
      obtain ⟨hs, hc, ha⟩ := float_sound hv hk
      exact ⟨⟨[token], rfl, hs, hc⟩, ha⟩
    · rename_i hk
      cases h
      exact ⟨⟨[token], rfl, .string hk, trivial⟩, trivial⟩
    · rename_i hk
      cases h
      exact named_sound hk ts₁
    · cases h
termination_by 3 * ts.length

end

/-- No step operator stands at the head of `ts`, so a name before it is a name. -/
def NoStep (ts : List Token) : Prop :=
  ∀ token ∈ ts.head?, StepOp.ofKind? token.kind = none

theorem noStep_cons {token : Token} (h : StepOp.ofKind? token.kind = none) (rest : List Token) :
    NoStep (token :: rest) := by
  intro t ht
  cases ht
  exact h

theorem noStep_binary {op : BinaryOp} {mark : Token} (h : mark.kind = op.kind)
    (rest : List Token) : NoStep (mark :: rest) := by
  apply noStep_cons
  rw [h]
  cases op <;> rfl

mutual

theorem atom_complete {e : Expr} {ts rest : List Token} (hs : e.Spelled ts) (hc : e.Canonical)
    (ha : e.IsAtom) (hr : NoStep rest) : outcome (atom (ts ++ rest)) = .ok (e, rest) := by
  cases hs with
  | int kind value =>
    rw [List.singleton_append, outcome_atom_cons]
    simp only [kind, integer, value]
    rfl
  | float kind value =>
    rw [List.singleton_append, outcome_atom_cons]
    simp only [kind, float, value]
    rfl
  | string kind =>
    rw [List.singleton_append, outcome_atom_cons]
    simp only [kind]
  | name kind =>
    rw [List.singleton_append, outcome_atom_cons]
    simp only [kind, (named_of_none _ hr).1, (named_of_none _ hr).2]
  | @step op token mark kind step =>
    have hn := named_of_some token.lexeme (StepOp.ofKind?_eq_some_iff.mpr step) rest
    rw [List.cons_append, List.singleton_append, outcome_atom_cons]
    simp only [kind, hn.1, hn.2]
  | unary => exact absurd ha id
  | binary => exact absurd ha id
  | @group inner opening closing ts leftParen spelled rightParen =>
    have hstep : NoStep (closing :: rest) := noStep_cons (by rw [rightParen]; rfl) rest
    have hop : BinaryOp.ofKind? closing.kind = none := by rw [rightParen]; rfl
    have he : outcome (expression (ts ++ closing :: rest)) = .ok (inner, closing :: rest) := by
      rw [outcome_expression, reading_complete spelled hc hstep, outcome_chain_of_none hop]
    rw [List.cons_append, List.append_assoc, List.singleton_append, outcome_atom_cons]
    simp only [leftParen, he, bind, Except.bind, outcome_expect_cons rightParen]
termination_by (sizeOf e, 0)

theorem operand_complete {e : Expr} {ts rest : List Token} (hs : e.Spelled ts)
    (hc : e.Canonical) (ho : e.IsOperand) (hr : NoStep rest) :
    outcome (operand (ts ++ rest)) = .ok (e, rest) := by
  have hatom (ha : e.IsAtom) : outcome (operand (ts ++ rest)) = .ok (e, rest) := by
    obtain ⟨token, tail, rfl, hk⟩ := hs.atom_head ha
    rw [List.cons_append, outcome_operand_of_none hk, ← List.cons_append]
    exact atom_complete hs hc ha hr
  cases hs with
  | unary kind operand =>
    rw [List.cons_append, outcome_operand_of_some (UnaryOp.ofKind?_eq_some_iff.mpr kind),
      atom_complete operand hc.2 hc.1 hr]
    rfl
  | binary => exact absurd ho id
  | _ => exact hatom trivial
termination_by (sizeOf e, 1)

/-- An operator and the spelling of its right operand attach that operand as a whole. -/
theorem chain_complete {e left : Expr} {op : BinaryOp} {mark : Token} {ts rest : List Token}
    (hs : e.Spelled ts) (hc : e.Canonical) (hf : e.FitsRight op) (hm : mark.kind = op.kind)
    (hr : NoStep rest) :
    outcome (chain left (mark :: (ts ++ rest))) = outcome (chain (left.attach op e) rest) := by
  have hoperand (ho : e.IsOperand) :
      outcome (chain left (mark :: (ts ++ rest))) = outcome (chain (left.attach op e) rest) := by
    rw [outcome_chain_of_some (BinaryOp.ofKind?_eq_some_iff.mpr hm), operand_complete hs hc ho hr]
    rfl
  cases hs with
  | @binary inner l r imark ls rs hls him hrs =>
    obtain ⟨hfl, hfr, hcl, hcr⟩ := hc
    have hlf : l.FitsRight op := by
      cases l with
      | binary root _ _ => exact Nat.lt_of_lt_of_le hf hfl
      | _ => trivial
    rw [List.append_assoc, List.cons_append,
      chain_complete hls hcl hlf hm (noStep_binary him _),
      chain_complete hrs hcr hfr him hr, Expr.attach_attach hf hfl]
  | _ => exact hoperand trivial
termination_by (sizeOf e, 2)

/-- A first operand and the chain behind it give the expression that they spell. -/
theorem reading_complete {e : Expr} {ts rest : List Token} (hs : e.Spelled ts)
    (hc : e.Canonical) (hr : NoStep rest) :
    (outcome (operand (ts ++ rest)) >>= fun x => outcome (chain x.1 x.2)) =
      outcome (chain e rest) := by
  have hoperand (ho : e.IsOperand) :
      (outcome (operand (ts ++ rest)) >>= fun x => outcome (chain x.1 x.2)) =
        outcome (chain e rest) := by
    rw [operand_complete hs hc ho hr]
    rfl
  cases hs with
  | @binary op l r mark ls rs hls hm hrs =>
    obtain ⟨hfl, hfr, hcl, hcr⟩ := hc
    rw [List.append_assoc, List.cons_append, reading_complete hls hcl (noStep_binary hm _),
      chain_complete hrs hcr hfr hm hr, Expr.attach_of_fitsLeft hfl]
  | _ => exact hoperand trivial
termination_by (sizeOf e, 2)

end

/-- Behind `ts` no expression can go on. -/
def EndsExpr (ts : List Token) : Prop :=
  NoStep ts ∧ ∀ token ∈ ts.head?, BinaryOp.ofKind? token.kind = none

theorem expression_complete {e : Expr} {ts rest : List Token} (hs : e.Spelled ts)
    (hc : e.Canonical) (hr : EndsExpr rest) :
    outcome (expression (ts ++ rest)) = .ok (e, rest) := by
  rw [outcome_expression, reading_complete hs hc hr.1]
  cases rest with
  | nil => exact outcome_chain_nil e
  | cons token rest => exact outcome_chain_of_none (hr.2 token rfl) e rest

theorem endsExpr_of_head {token : Token} (hstep : StepOp.ofKind? token.kind = none)
    (hop : BinaryOp.ofKind? token.kind = none) (rest : List Token) : EndsExpr (token :: rest) := by
  refine ⟨noStep_cons hstep rest, ?_⟩
  intro first hfirst
  cases hfirst
  exact hop

theorem endsExpr_cons {token : Token} (h : token.kind = .semicolon ∨ token.kind = .parenRight)
    (rest : List Token) : EndsExpr (token :: rest) := by
  apply endsExpr_of_head <;> rcases h with h | h <;> rw [h] <;> rfl

end Parser

end MiniC
