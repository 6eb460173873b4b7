import MiniC.Proofs.Parser.Grammar

/-!
# The parser looks one token ahead

What a parser function answers depends on the tokens that it takes and on the one token behind
them. This holds whether it succeeds or fails: other tokens behind that one neither change the value
that is read nor mend a failure.
-/

namespace MiniC.Parser

set_option autoImplicit false

section Local

variable {α β : Type} {F read : List Token → Except Failure (α × List Token)} {token : Token}
  {ts : List Token}

/-- An answer that leaves the tokens `rest`: a value, or what was missed and the statements that
had been read before. -/
def answer (r : Except (Cause × List Stmt) α) (rest : List Token) :
    Except Failure (α × List Token) :=
  match r with
  | .ok a => .ok (a, rest)
  | .error (cause, completed) => .error ⟨cause, rest, completed⟩

/-- On `ts`, `F` takes some tokens and looks at no more than one token behind them. -/
def Local (F : List Token → Except Failure (α × List Token)) (ts : List Token) : Prop :=
  ∃ used rest r, ts = used ++ rest ∧
    ∀ rest', rest'.head? = rest.head? → F (used ++ rest') = answer r rest'

theorem head?_append_congr {rest rest' : List Token} (used : List Token)
    (h : rest'.head? = rest.head?) : (used ++ rest').head? = (used ++ rest).head? := by
  rw [List.head?_append, List.head?_append, h]

/-- What is decided by the first token holds of all lists with that token. -/
theorem iff_of_head {P : List Token → Prop}
    (hP : ∀ token us us', P (token :: us) ↔ P (token :: us')) {us : List Token}
    (hus : us.head? = ts.head?) : P us ↔ P ts := by
  cases us with
  | nil => rw [List.head?_eq_none_iff.mp hus.symm]
  | cons token us =>
    obtain ⟨ts, rfl⟩ := List.head?_eq_some_iff.mp hus.symm
    exact hP token us ts

theorem local_ok (a : α) (ts : List Token) : Local (fun us => .ok (a, us)) ts :=
  ⟨[], ts, .ok a, rfl, fun _ _ => rfl⟩

theorem local_fail (cause : Cause) (ts : List Token) :
    Local (fun us => (.error (.at cause us) : Except Failure (α × List Token))) ts :=
  ⟨[], ts, .error (cause, []), rfl, fun _ _ => rfl⟩

theorem Local.congr (heq : ∀ us, us.head? = ts.head? → F us = read us) (h : Local read ts) :
    Local F ts := by
  obtain ⟨used, rest, r, rfl, hread⟩ := h
  refine ⟨used, rest, r, rfl, ?_⟩
  intro rest' hhead
  rw [heq _ (head?_append_congr used hhead), hread rest' hhead]

theorem Local.congr_cons (heq : ∀ us, F (token :: us) = read (token :: us))
    (h : Local read (token :: ts)) : Local F (token :: ts) := by
  refine h.congr ?_
  intro us hus
  obtain ⟨us, rfl⟩ := List.head?_eq_some_iff.mp hus
  exact heq us

theorem Local.cons (heq : ∀ us, F (token :: us) = read us) (h : Local read ts) :
    Local F (token :: ts) := by
  obtain ⟨used, rest, r, rfl, hread⟩ := h
  refine ⟨token :: used, rest, r, rfl, ?_⟩
  intro rest' hhead
  rw [List.cons_append, heq, hread rest' hhead]

theorem Local.mapError (h : Local read ts) (block : List Stmt) :
    Local (fun us => (read us).mapError (Failure.after block)) ts := by
  obtain ⟨used, rest, r, rfl, hread⟩ := h
  cases r with
  | ok a =>
    refine ⟨used, rest, .ok a, rfl, ?_⟩
    intro rest' hhead
    dsimp only
    rw [hread rest' hhead]
    rfl
  | error e =>
    refine ⟨used, rest, .error (e.1, block ++ e.2), rfl, ?_⟩
    intro rest' hhead
    dsimp only
    rw [hread rest' hhead]
    rfl

theorem Local.bind {k : α × List Token → Except Failure (β × List Token)} (h : Local read ts)
    (hk : ∀ a rest, read ts = .ok (a, rest) → Local (fun us => k (a, us)) rest) :
    Local (fun us => read us >>= k) ts := by
  obtain ⟨used, rest, r, rfl, hread⟩ := h
  cases r with
  | ok a =>
    obtain ⟨used₂, rest₂, r₂, rfl, hread₂⟩ := hk a rest (hread rest rfl)
    refine ⟨used ++ used₂, rest₂, r₂, by rw [List.append_assoc], ?_⟩
    intro rest' hhead
    dsimp only
    rw [List.append_assoc, hread _ (head?_append_congr used₂ hhead)]
    exact hread₂ rest' hhead
  | error e =>
    refine ⟨used, rest, .error e, rfl, ?_⟩
    intro rest' hhead
    dsimp only
    rw [hread rest' hhead]
    rfl

theorem Local.of_ok {a : α} {rest : List Token} (h : Local F ts) (hok : F ts = .ok (a, rest)) :
    ∃ used, ts = used ++ rest ∧
      ∀ rest', rest'.head? = rest.head? → F (used ++ rest') = .ok (a, rest') := by
  obtain ⟨used, rest, r, rfl, hread⟩ := h
  have hr := (hread rest rfl).symm.trans hok
  cases r with
  | ok a =>
    cases hr
    exact ⟨used, rfl, hread⟩
  | error e => cases hr

theorem Local.of_error {f : Failure} (h : Local F ts) (herror : F ts = .error f) :
    ∃ used, ts = used ++ f.rest ∧ ∀ rest', rest'.head? = f.rest.head? →
      F (used ++ rest') = .error { f with rest := rest' } := by
  obtain ⟨used, rest, r, rfl, hread⟩ := h
  have hr := (hread rest rfl).symm.trans herror
  cases r with
  | ok a => cases hr
  | error e =>
    cases hr
    exact ⟨used, rfl, hread⟩

end Local

section Tokens

theorem expect_local (kind : Kind) (ts : List Token) :
    Local (fun us => outcome (expect kind us)) ts := by
  cases ts with
  | nil =>
    refine .congr (fun us hus => ?_) (local_fail (.token kind) [])
    rw [List.head?_eq_none_iff.mp hus]
    rfl
  | cons token ts =>
    by_cases h : token.kind = kind
    · exact .cons (fun us => outcome_expect_cons h us) (local_ok token ts)
    · refine .congr_cons (fun us => ?_) (local_fail (.token kind) _)
      rw [expect, if_neg h]
      rfl

theorem typeName_local (ts : List Token) : Local (fun us => outcome (typeName us)) ts := by
  cases ts with
  | nil =>
    refine .congr (fun us hus => ?_) (local_fail .type [])
    rw [List.head?_eq_none_iff.mp hus]
    rfl
  | cons token ts =>
    by_cases h : token.kind.isType
    · refine .cons (fun us => ?_) (local_ok token.lexeme ts)
      rw [typeName, if_pos h]
      rfl
    · refine .congr_cons (fun us => ?_) (local_fail .type _)
      rw [typeName, if_neg h]
      rfl

theorem named_local (name : String) (ts : List Token) :
    Local (fun us => .ok ((named name us).1, (named name us).2.val)) ts := by
  have hname (hstep : NoStep ts) :
      Local (fun us => .ok ((named name us).1, (named name us).2.val)) ts := by
    refine .congr (fun us hus => ?_) (local_ok (.name name) ts)
    obtain ⟨hvalue, hrest⟩ := @named_of_none name us (by rwa [NoStep, ← hus] at hstep)
    rw [hvalue, hrest]
  cases ts with
  | nil => exact hname (by simp [NoStep])
  | cons mark ts =>
    cases hm : StepOp.ofKind? mark.kind with
    | none => exact hname (noStep_cons hm ts)
    | some op =>
      refine .cons (fun us => ?_) (local_ok (.step op name) ts)
      obtain ⟨hvalue, hrest⟩ := named_of_some name hm us
      rw [hvalue, hrest]

/-- An integer literal has a value or not, whatever follows it. -/
theorem integer_cases (token : Token) : (∃ e, ∀ ts, integer token ts = .ok e) ∨
    ∀ ts, integer token ts = .error (.at (.number .integer token) ts) := by
  cases h : Decimal.readInt64? token.lexeme.toList with
  | none => exact .inr fun ts => by rw [integer, h]
  | some n => exact .inl ⟨.int n, fun ts => by rw [integer, h]⟩

theorem float_cases (token : Token) : (∃ e, ∀ ts, float token ts = .ok e) ∨
    ∀ ts, float token ts = .error (.at (.number .float token) ts) := by
  cases h : Decimal.readFloat? token.lexeme.toList with
  | none => exact .inr fun ts => by rw [float, h]
  | some x => exact .inl ⟨.float x, fun ts => by rw [float, h]⟩

theorem literal_local {read : List Token → Except Failure Expr} {cause : Cause}
    (h : (∃ e, ∀ us, read us = .ok e) ∨ ∀ us, read us = .error (.at cause us)) (ts : List Token) :
    Local (fun us => read us >>= fun e => .ok (e, us)) ts := by
  rcases h with ⟨e, he⟩ | hfail
  · refine .congr (fun us _ => ?_) (local_ok e ts)
    rw [he]
    rfl
  · refine .congr (fun us _ => ?_) (local_fail cause ts)
    rw [hfail]
    rfl

end Tokens

section Expressions

mutual

theorem expression_local (ts : List Token) : Local (fun us => outcome (expression us)) ts := by
  refine .congr (fun us _ => outcome_expression us) (.bind (operand_local ts) ?_)
  intro first rest h
  have hlt : rest.length < ts.length := outcome_property h
  exact chain_local first rest
termination_by 3 * ts.length + 2

theorem chain_local (left : Expr) (ts : List Token) :
    Local (fun us => outcome (chain left us)) ts := by
  cases ts with
  | nil =>
    refine .congr (fun us hus => ?_) (local_ok left [])
    rw [List.head?_eq_none_iff.mp hus, outcome_chain_nil]
  | cons token ts =>
    cases hop : BinaryOp.ofKind? token.kind with
    | none => exact .congr_cons (fun us => outcome_chain_of_none hop left us) (local_ok left _)
    | some op =>
      refine .cons (fun us => outcome_chain_of_some hop left us) (.bind (operand_local ts) ?_)
      intro right rest h
      have hlt : rest.length < ts.length := outcome_property h
      exact chain_local (left.attach op right) rest
termination_by 3 * ts.length

theorem operand_local (ts : List Token) : Local (fun us => outcome (operand us)) ts := by
  cases ts with
  | nil =>
    refine .congr (fun us hus => ?_) (local_fail .expression [])
    rw [List.head?_eq_none_iff.mp hus, operand, atom]
    rfl
  | cons token ts =>
    cases hop : UnaryOp.ofKind? token.kind with
    | none =>
      exact .congr_cons (fun us => outcome_operand_of_none hop us) (atom_local (token :: ts))
    | some op =>
      refine .cons (fun us => outcome_operand_of_some hop us) (.bind (atom_local ts) ?_)
      intro e rest _
      exact local_ok (Expr.unary op e) rest
termination_by 3 * ts.length + 1

theorem atom_local (ts : List Token) : Local (fun us => outcome (atom us)) ts := by
  cases ts with
  | nil =>
    refine .congr (fun us hus => ?_) (local_fail .expression [])
    rw [List.head?_eq_none_iff.mp hus, atom]
    rfl
  | cons token ts =>
    have heq := outcome_atom_cons token
    cases hk : token.kind with
    | parenLeft =>
      simp only [hk] at heq
      refine .cons heq (.bind (expression_local ts) ?_)
      intro e rest _
      dsimp only
      refine .bind (expect_local .parenRight rest) ?_
      intro _ rest _
      exact local_ok (Expr.group e) rest
    | integer =>
      simp only [hk] at heq
      exact .cons heq (literal_local (integer_cases token) ts)
    | decimal =>
      simp only [hk] at heq
      exact .cons heq (literal_local (float_cases token) ts)
    | string =>
      simp only [hk] at heq
      exact .cons heq (local_ok (Expr.string token.lexeme) ts)
    | identifier =>
      simp only [hk] at heq
      exact .cons heq (named_local token.lexeme ts)
    | _ =>
      simp only [hk] at heq
      exact .congr_cons heq (local_fail .expression _)
termination_by 3 * ts.length

end

end Expressions

section Statements

theorem terminated_local {before : List Token → List Token} {ts : List Token}
    (h : Local (fun us => outcome (expression (before us))) ts) :
    Local (fun us => outcome (terminated (before us))) ts := by
  refine .congr (fun us _ => outcome_terminated (before us)) (.bind h ?_)
  intro value rest _
  dsimp only
  refine .bind (expect_local .semicolon rest) ?_
  intro _ rest _
  exact local_ok value rest

theorem expressionStatement_local {before : List Token → List Token} {ts : List Token}
    (h : Local (fun us => outcome (expression (before us))) ts) :
    Local (fun us => outcome (expressionStatement (before us))) ts := by
  refine .congr (fun us _ => outcome_expressionStatement (before us))
    (.bind (terminated_local h) ?_)
  intro value rest _
  exact local_ok (Stmt.expr value) rest

/-- An expression that begins with a name is read behind the name. -/
theorem outcome_expression_name {name : Token} (h : name.kind = .identifier) (ts : List Token) :
    outcome (expression (name :: ts)) =
      (.ok ((named name.lexeme ts).1, (named name.lexeme ts).2.val) >>= fun x =>
        outcome (chain x.1 x.2)) := by
  have hop : UnaryOp.ofKind? name.kind = none := by rw [h]; rfl
  rw [outcome_expression, outcome_operand_of_none hop, outcome_atom_cons]
  simp only [h]

theorem nameStatement_local {name : Token} (hn : name.kind = .identifier) (ts : List Token) :
    Local (fun us => outcome (nameStatement name us)) ts := by
  have hexpr (hassign : ∀ token ∈ ts.head?, AssignOp.ofKind? token.kind = none) :
      Local (fun us => outcome (nameStatement name us)) ts := by
    have heq : ∀ us, us.head? = ts.head? →
        outcome (nameStatement name us) = outcome (expressionStatement (name :: us)) := by
      intro us hus
      exact outcome_nameStatement_of_none name (by rwa [hus])
    refine .congr heq (expressionStatement_local ?_)
    refine .congr (fun us _ => outcome_expression_name hn us) (.bind (named_local _ ts) ?_)
    intro e rest _
    exact chain_local e rest
  cases ts with
  | nil => exact hexpr (by simp)
  | cons token ts =>
    cases hop : AssignOp.ofKind? token.kind with
    | none => exact hexpr (by simp [hop])
    | some op =>
      have hvalue := @terminated_local (fun us => us) ts (expression_local ts)
      refine .cons (fun us => outcome_nameStatement_of_some name hop us) (.bind hvalue ?_)
      intro value rest _
      exact local_ok (Stmt.assign op name.lexeme value) rest

theorem condition_local (ts : List Token) : Local (fun us => outcome (condition us)) ts := by
  refine .congr (fun us _ => outcome_condition us) (.bind (expect_local .parenLeft ts) ?_)
  intro _ rest _
  refine .bind (expression_local rest) ?_
  intro value rest _
  dsimp only
  refine .bind (expect_local .parenRight rest) ?_
  intro _ rest _
  exact local_ok value rest

/-- What follows the optional `const` of a declaration. -/
def declared (isConst : Bool) (ts : List Token) : Except Failure (Stmt × List Token) := do
  let type ← outcome (typeName ts)
  let name ← outcome (expect .identifier type.2)
  match behind? .equal name.2 with
  | some ts₄ =>
    let value ← outcome (expression ts₄)
    let stop ← outcome (expect .semicolon value.2)
    .ok (.define isConst type.1 name.1.lexeme value.1, stop.2)
  | none =>
    let stop ← outcome (expect .semicolon name.2)
    .ok (.declare isConst type.1 name.1.lexeme, stop.2)

theorem behind?_of_head {kind : Kind} {ts us : List Token} (hus : us.head? = ts.head?)
    (h : behind? kind ts = none) : behind? kind us = none := by
  refine (iff_of_head (P := fun ts => behind? kind ts = none) ?_ hus).mpr h
  intro token us us'
  simp [behind?]

theorem declared_local (isConst : Bool) (ts : List Token) : Local (declared isConst) ts := by
  refine .bind (typeName_local ts) ?_
  intro type rest _
  dsimp only
  refine .bind (expect_local .identifier rest) ?_
  intro name rest _
  dsimp only
  cases hequal : behind? .equal rest with
  | none =>
    have hstop : Local (fun us => do
        let stop ← outcome (expect .semicolon us)
        .ok (Stmt.declare isConst type name.lexeme, stop.2)) rest := by
      refine .bind (expect_local .semicolon rest) ?_
      intro _ rest _
      exact local_ok (Stmt.declare isConst type name.lexeme) rest
    refine hstop.congr ?_
    intro us hus
    simp only [behind?_of_head hus hequal]
  | some rest' =>
    obtain ⟨equal, hk, rfl⟩ := behind?_eq_some_iff.mp hequal
    have hvalue : Local (fun us => do
        let value ← outcome (expression us)
        let stop ← outcome (expect .semicolon value.2)
        .ok (Stmt.define isConst type name.lexeme value.1, stop.2)) rest' := by
      refine .bind (expression_local rest') ?_
      intro value rest _
      dsimp only
      refine .bind (expect_local .semicolon rest) ?_
      intro _ rest _
      exact local_ok (Stmt.define isConst type name.lexeme value) rest
    refine .cons ?_ hvalue
    intro us
    simp only [behind?_cons hk]

theorem declaration_local (ts : List Token) : Local (fun us => outcome (declaration us)) ts := by
  have heq : ∀ us, outcome (declaration us) = declared (constMark us).1 (constMark us).2.val :=
    outcome_declaration
  have hplain (h : behind? .constWord ts = none) :
      Local (fun us => outcome (declaration us)) ts := by
    refine .congr ?_ (declared_local false ts)
    intro us hus
    have hconst := behind?_of_head hus h
    cases us with
    | nil => exact heq []
    | cons token us =>
      have hk : token.kind ≠ .constWord := by simpa [behind?] using hconst
      rw [heq]
      simp [constMark, accept?, hk]
  cases hconst : behind? .constWord ts with
  | none => exact hplain hconst
  | some rest =>
    obtain ⟨mark, hk, rfl⟩ := behind?_eq_some_iff.mp hconst
    refine .cons ?_ (declared_local true rest)
    intro us
    rw [heq]
    simp [constMark, accept?, hk]

mutual

theorem statement_local (ts : List Token) : Local (fun us => outcome (statement us)) ts := by
  have hexpr (us : List Token) : Local (fun us => outcome (expressionStatement us)) us :=
    @expressionStatement_local (fun us => us) us (expression_local us)
  cases ts with
  | nil =>
    refine .congr ?_ (hexpr [])
    intro us hus
    rw [List.head?_eq_none_iff.mp hus, statement]
  | cons token ts =>
    have heq := outcome_statement_cons token
    cases hk : token.kind with
    | constWord | intWord | floatWord =>
      simp only [hk] at heq
      exact .congr_cons heq (declaration_local (token :: ts))
    | ifWord =>
      simp only [hk] at heq
      refine .congr_cons heq (.bind (conditional_local (token :: ts)) ?_)
      intro b rest _
      exact local_ok (Stmt.branch b.condition b.body b.otherwise) rest
    | whileWord =>
      simp only [hk] at heq
      refine .cons heq (.bind (condition_local ts) ?_)
      intro test rest h
      have hlt : rest.length < ts.length := outcome_property h
      dsimp only
      refine .bind (block_local rest) ?_
      intro body rest _
      exact local_ok (Stmt.loop test body) rest
    | identifier =>
      simp only [hk] at heq
      exact .cons heq (nameStatement_local hk ts)
    | _ =>
      simp only [hk] at heq
      exact .congr_cons heq (hexpr (token :: ts))
termination_by 3 * ts.length + 1

theorem conditional_local (ts : List Token) : Local (fun us => outcome (conditional us)) ts := by
  refine .congr (fun us _ => outcome_conditional us) (.bind (expect_local .ifWord ts) ?_)
  intro _ ts₁ h₁
  have hlt₁ : ts₁.length < ts.length := outcome_property h₁
  refine .bind (condition_local ts₁) ?_
  intro test ts₂ h₂
  have hlt₂ : ts₂.length < ts₁.length := outcome_property h₂
  dsimp only
  refine .bind (block_local ts₂) ?_
  intro body ts₃ h₃
  have hlt₃ : ts₃.length < ts₂.length := outcome_property h₃
  dsimp only
  refine .bind ((elsePart_local ts₃).mapError body) ?_
  intro otherwise rest _
  exact local_ok (Branch.mk test body otherwise) rest
termination_by 3 * ts.length

theorem elsePart_local (ts : List Token) : Local (fun us => outcome (elsePart us)) ts := by
  cases helse : behind? .elseWord ts with
  | none =>
    refine .congr ?_ (local_ok Else.none ts)
    intro us hus
    rw [outcome_elsePart, behind?_of_head hus helse]
  | some ts₁ =>
    obtain ⟨word, hk, rfl⟩ := behind?_eq_some_iff.mp helse
    have heq (us : List Token) := outcome_elsePart (word :: us)
    simp only [behind?_cons hk] at heq
    refine .cons heq ?_
    cases hif : behind? .ifWord ts₁ with
    | some ts₂ =>
      obtain ⟨first, hfirst, rfl⟩ := behind?_eq_some_iff.mp hif
      have hbranch : Local (fun us => outcome (conditional us) >>= fun b =>
          .ok (Else.branch b.1.condition b.1.body b.1.otherwise, b.2)) (first :: ts₂) := by
        refine .bind (conditional_local (first :: ts₂)) ?_
        intro b rest _
        exact local_ok (Else.branch b.condition b.body b.otherwise) rest
      refine .congr_cons ?_ hbranch
      intro us
      simp only [behind?_cons hfirst]
    | none =>
      have hblock : Local (fun us => outcome (block us) >>= fun body =>
          .ok (Else.block body.1, body.2)) ts₁ := by
        refine .bind (block_local ts₁) ?_
        intro body rest _
        exact local_ok (Else.block body) rest
      refine hblock.congr ?_
      intro us hus
      simp only [behind?_of_head hus hif]
termination_by 3 * ts.length

theorem block_local (ts : List Token) : Local (fun us => outcome (block us)) ts := by
  refine .congr (fun us _ => outcome_block us) (.bind (expect_local .braceLeft ts) ?_)
  intro _ ts₁ h₁
  have hlt : ts₁.length < ts.length := outcome_property h₁
  refine .bind (statements_local ts₁) ?_
  intro body ts₂ _
  dsimp only
  refine .bind ((expect_local .braceRight ts₂).mapError body) ?_
  intro _ rest _
  exact local_ok body rest
termination_by 3 * ts.length

theorem statements_local (ts : List Token) : Local (fun us => outcome (statements us)) ts := by
  have hhead : ∀ us : List Token, us.head? = ts.head? → (AtBlockEnd us ↔ AtBlockEnd ts) :=
    fun us hus => iff_of_head (fun _ _ _ => Iff.rfl) hus
  by_cases hend : AtBlockEnd ts
  · refine .congr ?_ (local_ok [] ts)
    intro us hus
    exact outcome_statements_of_end ((hhead us hus).mpr hend)
  · refine .congr (fun us hus => outcome_statements_cons (mt (hhead us hus).mp hend))
      (.bind (statement_local ts) ?_)
    intro s ts₁ h₁
    have hlt : ts₁.length < ts.length := outcome_property h₁
    dsimp only
    refine .bind ((statements_local ts₁).mapError [s]) ?_
    intro ss rest _
    exact local_ok (s :: ss) rest
termination_by 3 * ts.length + 2

end

/-- A program that fails before some token fails there whatever follows that token. -/
theorem program_error_local {ts : List Token} {f : Failure} (h : program ts = .error f) :
    ∃ used, ts = used ++ f.rest ∧ ∀ rest', rest'.head? = f.rest.head? →
      program (used ++ rest') = .error { f with rest := rest' } := by
  by_cases hend : AtEnd ts
  · rw [program_of_end hend] at h
    cases h
  · have hgo : ∀ us : List Token, us.head? = ts.head? → ¬ AtEnd us :=
      fun us hus => mt (iff_of_head (fun _ _ _ => Iff.rfl) hus).mp hend
    rw [program_cons hend] at h
    rcases bind_eq_error_iff.mp h with hs | ⟨⟨s, ts₁⟩, hs, hss⟩
    · obtain ⟨used, rfl, hread⟩ := (statement_local ts).of_error hs
      refine ⟨used, rfl, ?_⟩
      intro rest' hhead
      rw [program_cons (hgo _ (head?_append_congr used hhead)), hread rest' hhead]
      rfl
    · have hlt : ts₁.length < ts.length := outcome_property hs
      obtain ⟨used, rfl, hread⟩ := (statement_local ts).of_ok hs
      rcases bind_eq_error_iff.mp hss with hss | ⟨_, _, hok⟩
      · obtain ⟨f₁, hp, rfl⟩ := mapError_eq_error_iff.mp hss
        obtain ⟨more, rfl, hmore⟩ := program_error_local hp
        refine ⟨used ++ more, by rw [List.append_assoc]; rfl, ?_⟩
        intro rest' hhead
        have hhead' := head?_append_congr more hhead
        rw [List.append_assoc, program_cons (hgo _ (head?_append_congr used hhead')),
          hread _ hhead']
        dsimp only [bind, Except.bind]
        rw [hmore rest' hhead]
        rfl
      · cases hok
termination_by ts.length

end Statements

end MiniC.Parser
