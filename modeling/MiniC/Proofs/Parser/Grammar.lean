import MiniC.Proofs.Parser.Expression

/-!
# The parser accepts exactly its grammar

A token list parses to a program exactly when the program is canonical and the tokens before the
first end token spell it. Both directions follow the parser function by function: what a function
reads is a spelling, and a spelling is read wherever the tokens behind it do not continue it. Only a
branch can be continued, by `else`.
-/

namespace MiniC

set_option autoImplicit false

namespace Parser

/-- A spelling of the canonical statement `s` begins `ts`, and `rest` follows it. -/
def ReadsStmt (ts : List Token) (s : Stmt) (rest : List Token) : Prop :=
  ∃ used, ts = used ++ rest ∧ s.Spelled used ∧ s.Canonical

section Declarations

theorem constMark_sound (ts : List Token) :
    ∃ mark, ts = mark ++ (constMark ts).2.val ∧ SpelledConst (constMark ts).1 mark := by
  cases ts with
  | nil => exact ⟨[], rfl, .absent⟩
  | cons token rest =>
    by_cases h : token.kind = .constWord
    · exact ⟨[token], by simp [constMark, accept?, h], by
        simpa [constMark, accept?, h] using SpelledConst.present h⟩
    · exact ⟨[], by simp [constMark, accept?, h], by
        simpa [constMark, accept?, h] using SpelledConst.absent⟩

theorem constMark_complete {isConst : Bool} {mark : List Token} (h : SpelledConst isConst mark)
    {type : Token} (ht : type.kind = .intWord ∨ type.kind = .floatWord) (rest : List Token) :
    (constMark (mark ++ type :: rest)).1 = isConst ∧
      (constMark (mark ++ type :: rest)).2.val = type :: rest := by
  cases h with
  | absent =>
    have hk : type.kind ≠ .constWord := by rcases ht with ht | ht <;> simp [ht]
    simp [constMark, accept?, hk]
  | present kind => simp [constMark, accept?, kind]

theorem outcome_typeName_eq_ok_iff {ts rest : List Token} {name : String} :
    outcome (typeName ts) = .ok (name, rest) ↔ ∃ token, ts = token :: rest ∧
      (token.kind = .intWord ∨ token.kind = .floatWord) ∧ name = token.lexeme := by
  cases ts with
  | nil => simp [typeName, outcome, Except.map]
  | cons token ts =>
    have hk : token.kind.isType = true ↔ token.kind = .intWord ∨ token.kind = .floatWord := by
      cases token.kind <;> simp [Kind.isType]
    by_cases h : token.kind.isType = true
    · simp only [typeName, h, if_true, outcome_ok, Except.ok.injEq, Prod.mk.injEq,
        List.cons.injEq]
      constructor
      · rintro ⟨rfl, rfl⟩
        exact ⟨token, ⟨rfl, rfl⟩, hk.mp h, rfl⟩
      · rintro ⟨_, ⟨rfl, rfl⟩, _, rfl⟩
        exact ⟨rfl, rfl⟩
    · simp only [typeName, h, outcome, Except.map, Bool.false_eq_true, if_false, reduceCtorEq,
        false_iff, List.cons.injEq]
      rintro ⟨_, ⟨rfl, rfl⟩, ht, _⟩
      exact h (hk.mpr ht)

theorem outcome_typeName_cons {type : Token} (h : type.kind = .intWord ∨ type.kind = .floatWord)
    (rest : List Token) : outcome (typeName (type :: rest)) = .ok (type.lexeme, rest) :=
  outcome_typeName_eq_ok_iff.mpr ⟨type, rfl, h, rfl⟩

theorem declaration_sound {ts rest : List Token} {s : Stmt}
    (h : outcome (declaration ts) = .ok (s, rest)) : ReadsStmt ts s rest := by
  rw [outcome_declaration] at h
  obtain ⟨mark, hts, hmark⟩ := constMark_sound ts
  generalize constMark ts = front at h hts hmark
  obtain ⟨⟨type, ts₂⟩, ht, h₂⟩ := bind_eq_ok_iff.mp h
  obtain ⟨⟨name, ts₃⟩, hn, h₃⟩ := bind_eq_ok_iff.mp h₂
  obtain ⟨typeToken, hts₁, htk, rfl⟩ := outcome_typeName_eq_ok_iff.mp ht
  obtain ⟨hnk, rfl⟩ := outcome_expect_eq_ok_iff.mp hn
  rw [hts₁] at hts
  cases hequal : behind? .equal ts₃ with
  | some ts₄ =>
    simp only [hequal] at h₃
    obtain ⟨⟨value, ts₅⟩, hv, h₄⟩ := bind_eq_ok_iff.mp h₃
    obtain ⟨⟨stop, ts₆⟩, hstop, h₅⟩ := bind_eq_ok_iff.mp h₄
    cases h₅
    obtain ⟨equal, hek, rfl⟩ := behind?_eq_some_iff.mp hequal
    obtain ⟨hsk, rfl⟩ := outcome_expect_eq_ok_iff.mp hstop
    obtain ⟨used, rfl, hused, hcan⟩ := expression_sound hv
    refine ⟨mark ++ typeToken :: name :: equal :: (used ++ [stop]), ?_, ?_, hcan⟩
    · rw [hts]
      simp
    · exact .define hmark htk hnk hek hused hsk
  | none =>
    simp only [hequal] at h₃
    obtain ⟨⟨stop, ts₄⟩, hstop, h₄⟩ := bind_eq_ok_iff.mp h₃
    cases h₄
    obtain ⟨hsk, rfl⟩ := outcome_expect_eq_ok_iff.mp hstop
    refine ⟨mark ++ [typeToken, name, stop], ?_, ?_, trivial⟩
    · rw [hts]
      simp
    · exact .declare hmark htk hnk hsk

theorem declaration_complete_declare {isConst : Bool} {mark rest : List Token}
    {type name stop : Token} (hm : SpelledConst isConst mark)
    (ht : type.kind = .intWord ∨ type.kind = .floatWord) (hn : name.kind = .identifier)
    (hs : stop.kind = .semicolon) :
    outcome (declaration (mark ++ type :: name :: stop :: rest)) =
      .ok (.declare isConst type.lexeme name.lexeme, rest) := by
  have hc := constMark_complete hm ht (name :: stop :: rest)
  rw [outcome_declaration, hc.1, hc.2, outcome_typeName_cons ht]
  simp only [bind, Except.bind, outcome_expect_cons hn]
  simp only [behind?, hs, reduceCtorEq, if_false, outcome_expect_cons hs]

theorem declaration_complete_define {isConst : Bool} {mark ts rest : List Token} {e : Expr}
    {type name equal stop : Token} (hm : SpelledConst isConst mark)
    (ht : type.kind = .intWord ∨ type.kind = .floatWord) (hn : name.kind = .identifier)
    (he : equal.kind = .equal) (hv : e.Spelled ts) (hcan : e.Canonical)
    (hs : stop.kind = .semicolon) :
    outcome (declaration (mark ++ type :: name :: equal :: (ts ++ stop :: rest))) =
      .ok (.define isConst type.lexeme name.lexeme e, rest) := by
  have hc := constMark_complete hm ht (name :: equal :: (ts ++ stop :: rest))
  have hexpr := expression_complete hv hcan (endsExpr_cons (.inl hs) rest)
  rw [outcome_declaration, hc.1, hc.2, outcome_typeName_cons ht]
  simp only [bind, Except.bind, outcome_expect_cons hn, behind?_cons he, hexpr,
    outcome_expect_cons hs]

end Declarations

theorem terminated_sound {ts rest : List Token} {e : Expr}
    (h : outcome (terminated ts) = .ok (e, rest)) :
    ∃ used stop, ts = used ++ stop :: rest ∧ e.Spelled used ∧ e.Canonical ∧
      stop.kind = .semicolon := by
  rw [outcome_terminated] at h
  obtain ⟨⟨value, ts₁⟩, hv, h⟩ := bind_eq_ok_iff.mp h
  obtain ⟨⟨stop, ts₂⟩, hstop, h⟩ := bind_eq_ok_iff.mp h
  cases h
  obtain ⟨hsk, rfl⟩ := outcome_expect_eq_ok_iff.mp hstop
  obtain ⟨used, rfl, hused, hcan⟩ := expression_sound hv
  exact ⟨used, stop, rfl, hused, hcan, hsk⟩

theorem terminated_complete {e : Expr} {ts rest : List Token} {stop : Token} (hs : e.Spelled ts)
    (hc : e.Canonical) (hk : stop.kind = .semicolon) :
    outcome (terminated (ts ++ stop :: rest)) = .ok (e, rest) := by
  rw [outcome_terminated, expression_complete hs hc (endsExpr_cons (.inl hk) rest)]
  simp only [bind, Except.bind, outcome_expect_cons hk]

theorem expressionStatement_sound {ts rest : List Token} {s : Stmt}
    (h : outcome (expressionStatement ts) = .ok (s, rest)) : ReadsStmt ts s rest := by
  rw [outcome_expressionStatement] at h
  obtain ⟨⟨value, ts₁⟩, hv, h⟩ := bind_eq_ok_iff.mp h
  cases h
  obtain ⟨used, stop, rfl, hused, hcan, hsk⟩ := terminated_sound hv
  exact ⟨used ++ [stop], by simp, .expr hused hsk, hcan⟩

theorem nameStatement_sound {name : Token} {ts rest : List Token} {s : Stmt}
    (hn : name.kind = .identifier) (h : outcome (nameStatement name ts) = .ok (s, rest)) :
    ReadsStmt (name :: ts) s rest := by
  cases ts with
  | nil =>
    rw [outcome_nameStatement_of_none name (by simp)] at h
    exact expressionStatement_sound h
  | cons mark ts =>
    cases hop : AssignOp.ofKind? mark.kind with
    | none =>
      rw [outcome_nameStatement_of_none name (by simp [hop])] at h
      exact expressionStatement_sound h
    | some op =>
      rw [outcome_nameStatement_of_some name hop] at h
      obtain ⟨⟨value, ts₁⟩, hv, h⟩ := bind_eq_ok_iff.mp h
      cases h
      obtain ⟨used, stop, rfl, hused, hcan, hsk⟩ := terminated_sound hv
      refine ⟨name :: mark :: (used ++ [stop]), by simp, ?_, hcan⟩
      exact .assign hn (AssignOp.ofKind?_eq_some_iff.mp hop) hused hsk

theorem condition_sound {ts rest : List Token} {e : Expr}
    (h : outcome (condition ts) = .ok (e, rest)) :
    ∃ opening used closing, ts = opening :: (used ++ closing :: rest) ∧
      opening.kind = .parenLeft ∧ e.Spelled used ∧ e.Canonical ∧ closing.kind = .parenRight := by
  rw [outcome_condition] at h
  obtain ⟨⟨opening, ts₁⟩, ho, h⟩ := bind_eq_ok_iff.mp h
  obtain ⟨⟨value, ts₂⟩, hv, h⟩ := bind_eq_ok_iff.mp h
  obtain ⟨⟨closing, ts₃⟩, hc, h⟩ := bind_eq_ok_iff.mp h
  cases h
  obtain ⟨hok, rfl⟩ := outcome_expect_eq_ok_iff.mp ho
  obtain ⟨hck, rfl⟩ := outcome_expect_eq_ok_iff.mp hc
  obtain ⟨used, rfl, hused, hcan⟩ := expression_sound hv
  exact ⟨opening, used, closing, rfl, hok, hused, hcan, hck⟩

theorem condition_complete {e : Expr} {ts rest : List Token} {opening closing : Token}
    (ho : opening.kind = .parenLeft) (hs : e.Spelled ts) (hc : e.Canonical)
    (hr : closing.kind = .parenRight) :
    outcome (condition (opening :: (ts ++ closing :: rest))) = .ok (e, rest) := by
  have he := expression_complete hs hc (endsExpr_cons (.inr hr) rest)
  rw [outcome_condition]
  simp only [bind, Except.bind, outcome_expect_cons ho, he, outcome_expect_cons hr]

mutual

theorem statement_sound {ts rest : List Token} {s : Stmt}
    (h : outcome (statement ts) = .ok (s, rest)) : ReadsStmt ts s rest := by
  cases ts with
  | nil =>
    rw [statement] at h
    exact expressionStatement_sound h
  | cons token ts₁ =>
    rw [outcome_statement_cons] at h
    split at h
    · exact declaration_sound h
    · exact declaration_sound h
    · exact declaration_sound h
    · obtain ⟨⟨b, ts₂⟩, hb, he⟩ := bind_eq_ok_iff.mp h
      cases he
      exact conditional_sound hb
    · rename_i hk
      obtain ⟨⟨test, ts₂⟩, ht, hbody⟩ := bind_eq_ok_iff.mp h
      obtain ⟨⟨body, ts₃⟩, hb, he⟩ := bind_eq_ok_iff.mp hbody
      cases he
      have hlt : ts₂.length < ts₁.length := outcome_property ht
      obtain ⟨opening, cs, closing, rfl, ho, hcs, hcan, hc⟩ := condition_sound ht
      obtain ⟨bs, rfl, hbs, hbcan⟩ := block_sound hb
      refine ⟨token :: opening :: (cs ++ closing :: bs), by simp, ?_, hcan, hbcan⟩
      exact .loop hk ho hcs hc hbs
    · rename_i hk
      exact nameStatement_sound hk h
    · exact expressionStatement_sound h
termination_by 3 * ts.length + 1

theorem conditional_sound {ts rest : List Token} {b : Branch}
    (h : outcome (conditional ts) = .ok (b, rest)) :
    ReadsStmt ts (.branch b.condition b.body b.otherwise) rest := by
  rw [outcome_conditional] at h
  obtain ⟨⟨word, ts₁⟩, hw, h₁⟩ := bind_eq_ok_iff.mp h
  obtain ⟨⟨test, ts₂⟩, ht, h₂⟩ := bind_eq_ok_iff.mp h₁
  obtain ⟨⟨body, ts₃⟩, hb, h₃⟩ := bind_eq_ok_iff.mp h₂
  obtain ⟨⟨otherwise, ts₄⟩, ho, he⟩ := bind_eq_ok_iff.mp h₃
  cases he
  rw [mapError_eq_ok_iff] at ho
  have hlt₁ : ts₁.length < ts.length := outcome_property hw
  have hlt₂ : ts₂.length < ts₁.length := outcome_property ht
  have hlt₃ : ts₃.length < ts₂.length := outcome_property hb
  obtain ⟨hwk, rfl⟩ := outcome_expect_eq_ok_iff.mp hw
  obtain ⟨opening, cs, closing, rfl, hop, hcs, hcan, hcl⟩ := condition_sound ht
  obtain ⟨bs, rfl, hbs, hbcan⟩ := block_sound hb
  obtain ⟨os, rfl, hos, hocan⟩ := elsePart_sound ho
  refine ⟨word :: opening :: (cs ++ closing :: (bs ++ os)), by simp, ?_, hcan, hbcan, hocan⟩
  exact .branch hwk hop hcs hcl hbs hos
termination_by 3 * ts.length

theorem elsePart_sound {ts rest : List Token} {otherwise : Else}
    (h : outcome (elsePart ts) = .ok (otherwise, rest)) :
    ∃ used, ts = used ++ rest ∧ otherwise.Spelled used ∧ otherwise.Canonical := by
  rw [outcome_elsePart] at h
  cases helse : behind? .elseWord ts with
  | none =>
    simp only [helse] at h
    cases h
    exact ⟨[], rfl, .none, trivial⟩
  | some ts₁ =>
    simp only [helse] at h
    obtain ⟨word, hw, rfl⟩ := behind?_eq_some_iff.mp helse
    cases hif : behind? .ifWord ts₁ with
    | some _ =>
      simp only [hif] at h
      obtain ⟨⟨b, ts₂⟩, hb, he⟩ := bind_eq_ok_iff.mp h
      cases he
      obtain ⟨used, rfl, hused, hcan⟩ := conditional_sound hb
      exact ⟨word :: used, rfl, .branch hw hused, hcan⟩
    | none =>
      simp only [hif] at h
      obtain ⟨⟨body, ts₂⟩, hb, he⟩ := bind_eq_ok_iff.mp h
      cases he
      obtain ⟨used, rfl, hused, hcan⟩ := block_sound hb
      exact ⟨word :: used, rfl, .block hw hused, hcan⟩
termination_by 3 * ts.length

theorem block_sound {ts rest : List Token} {body : List Stmt}
    (h : outcome (block ts) = .ok (body, rest)) :
    ∃ used, ts = used ++ rest ∧ Stmt.SpelledBlock body used ∧ Stmt.CanonicalAll body := by
  rw [outcome_block] at h
  obtain ⟨⟨opening, ts₁⟩, ho, h₁⟩ := bind_eq_ok_iff.mp h
  obtain ⟨⟨ss, ts₂⟩, hs, h₂⟩ := bind_eq_ok_iff.mp h₁
  obtain ⟨⟨closing, ts₃⟩, hc, he⟩ := bind_eq_ok_iff.mp h₂
  cases he
  rw [mapError_eq_ok_iff] at hc
  obtain ⟨hok, rfl⟩ := outcome_expect_eq_ok_iff.mp ho
  obtain ⟨hck, rfl⟩ := outcome_expect_eq_ok_iff.mp hc
  obtain ⟨used, rfl, hused, hcan⟩ := statements_sound hs
  exact ⟨opening :: (used ++ [closing]), by simp, .braces hok hused hck, hcan⟩
termination_by 3 * ts.length

theorem statements_sound {ts rest : List Token} {body : List Stmt}
    (h : outcome (statements ts) = .ok (body, rest)) :
    ∃ used, ts = used ++ rest ∧ Stmt.SpelledAll body used ∧ Stmt.CanonicalAll body := by
  by_cases hend : AtBlockEnd ts
  · rw [outcome_statements_of_end hend] at h
    cases h
    exact ⟨[], rfl, .nil, trivial⟩
  · rw [outcome_statements_cons hend] at h
    obtain ⟨⟨s, ts₁⟩, hs, h₁⟩ := bind_eq_ok_iff.mp h
    obtain ⟨⟨ss, ts₂⟩, hss, he⟩ := bind_eq_ok_iff.mp h₁
    cases he
    rw [mapError_eq_ok_iff] at hss
    have hlt : ts₁.length < ts.length := outcome_property hs
    obtain ⟨used, rfl, hused, hcan⟩ := statement_sound hs
    obtain ⟨more, rfl, hmore, hmcan⟩ := statements_sound hss
    exact ⟨used ++ more, by simp, .cons hused hmore, hcan, hmcan⟩
termination_by 3 * ts.length + 2

end

/-- What `program` reads is a spelling that reaches to the end of the input. -/
theorem program_sound {ts : List Token} {p : Program} (h : program ts = .ok p) :
    ∃ used rest, ts = used ++ rest ∧ AtEnd rest ∧ Stmt.SpelledAll p used ∧
      Stmt.CanonicalAll p := by
  by_cases hend : AtEnd ts
  · rw [program_of_end hend] at h
    cases h
    exact ⟨[], ts, rfl, hend, .nil, trivial⟩
  · rw [program_cons hend] at h
    obtain ⟨⟨s, ts₁⟩, hs, h₁⟩ := bind_eq_ok_iff.mp h
    obtain ⟨ss, hss, he⟩ := bind_eq_ok_iff.mp h₁
    cases he
    rw [mapError_eq_ok_iff] at hss
    have hlt : ts₁.length < ts.length := outcome_property hs
    obtain ⟨used, rfl, hused, hcan⟩ := statement_sound hs
    obtain ⟨more, rest, rfl, hrest, hmore, hmcan⟩ := program_sound hss
    exact ⟨used ++ more, rest, by simp, hrest, .cons hused hmore, hcan, hmcan⟩
termination_by ts.length

theorem statement_complete_expr {e : Expr} {ts rest : List Token} {stop : Token}
    (hs : e.Spelled ts) (hc : e.Canonical) (hk : stop.kind = .semicolon) :
    outcome (statement (ts ++ stop :: rest)) = .ok (.expr e, rest) := by
  have he : outcome (expressionStatement (ts ++ stop :: rest)) = .ok (.expr e, rest) := by
    rw [outcome_expressionStatement, terminated_complete hs hc hk]
    rfl
  obtain ⟨token, tail, rfl, hbegin⟩ := hs.head
  rw [List.cons_append] at he ⊢
  rw [outcome_statement_cons]
  by_cases hid : token.kind = .identifier
  · have hnext : ∀ next ∈ (tail ++ stop :: rest).head?, AssignOp.ofKind? next.kind = none := by
      cases tail with
      | nil => simp [hk, AssignOp.ofKind?]
      | cons second tail => simpa using hs.second rfl hid
    simp only [hid, outcome_nameStatement_of_none token hnext, he]
  · simp only [Kind.BeginsExpr, List.mem_cons, List.not_mem_nil, or_false, hid] at hbegin
    rcases hbegin with h | h | h | h | h | h | h | h <;> simp only [h, he]

theorem statement_complete_declaration {isConst : Bool} {mark ts : List Token} {type : Token}
    (hm : SpelledConst isConst mark) (ht : type.kind = .intWord ∨ type.kind = .floatWord) :
    outcome (statement (mark ++ type :: ts)) = outcome (declaration (mark ++ type :: ts)) := by
  cases hm with
  | absent =>
    rw [List.nil_append, outcome_statement_cons]
    rcases ht with ht | ht <;> simp only [ht]
  | present kind =>
    rw [List.singleton_append, outcome_statement_cons]
    simp only [kind]

theorem statement_complete_assign {op : AssignOp} {name mark stop : Token} {e : Expr}
    {ts rest : List Token} (hn : name.kind = .identifier) (hm : mark.kind = op.kind)
    (hs : e.Spelled ts) (hc : e.Canonical) (hk : stop.kind = .semicolon) :
    outcome (statement (name :: mark :: (ts ++ stop :: rest))) =
      .ok (.assign op name.lexeme e, rest) := by
  have hop := AssignOp.ofKind?_eq_some_iff.mpr hm
  rw [outcome_statement_cons]
  simp only [hn]
  rw [outcome_nameStatement_of_some name hop, terminated_complete hs hc hk]
  rfl

/-- A branch that is read as a statement is read as a branch. -/
theorem conditional_of_statement {word : Token} {ts rest : List Token} {test : Expr}
    {body : List Stmt} {otherwise : Else} (hw : word.kind = .ifWord)
    (h : outcome (statement (word :: ts)) = .ok (.branch test body otherwise, rest)) :
    outcome (conditional (word :: ts)) = .ok (⟨test, body, otherwise⟩, rest) := by
  rw [outcome_statement_cons] at h
  simp only [hw] at h
  obtain ⟨⟨b, ts₁⟩, hb, he⟩ := bind_eq_ok_iff.mp h
  cases he
  exact hb

/-- No `else` stands at the head of `ts`, so a branch ends before it. -/
def NoElse (ts : List Token) : Prop :=
  behind? .elseWord ts = none

theorem noElse_cons {token : Token} (h : token.kind ≠ .elseWord) (rest : List Token) :
    NoElse (token :: rest) := by
  simp [NoElse, behind?, h]

theorem noElse_of_blockEnd {ts : List Token} (h : AtBlockEnd ts) : NoElse ts := by
  cases ts with
  | nil => rfl
  | cons token ts =>
    apply noElse_cons
    rcases h with h | h <;> simp [h]

theorem noElse_of_end {ts : List Token} (h : AtEnd ts) : NoElse ts := by
  cases ts with
  | nil => rfl
  | cons token ts => exact noElse_cons (by simp [show token.kind = .endOfInput from h]) ts

theorem noElse_spelledAll {ss : List Stmt} {ts rest : List Token} (hs : Stmt.SpelledAll ss ts)
    (hr : NoElse rest) : NoElse (ts ++ rest) := by
  cases hs with
  | nil => exact hr
  | cons first _ =>
    obtain ⟨token, tail, rfl, hk⟩ := first.head
    refine noElse_cons ?_ _
    intro h
    simp [h, Kind.BeginsExpr] at hk

theorem not_blockEnd_of_spelled {s : Stmt} {ts : List Token} (hs : s.Spelled ts)
    (rest : List Token) : ¬ AtBlockEnd (ts ++ rest) := by
  obtain ⟨token, tail, rfl, hk⟩ := hs.head
  rintro (h | h) <;> simp [h, Kind.BeginsExpr] at hk

theorem not_end_of_spelled {s : Stmt} {ts : List Token} (hs : s.Spelled ts)
    (rest : List Token) : ¬ AtEnd (ts ++ rest) := by
  obtain ⟨token, tail, rfl, _⟩ := hs.head
  exact hs.not_end token List.mem_cons_self

mutual

theorem statement_complete : ∀ {s : Stmt} {ts rest : List Token}, s.Spelled ts → s.Canonical →
    NoElse rest → outcome (statement (ts ++ rest)) = .ok (s, rest)
  | _, _, rest, .expr value semicolon, hc, _ => by
    rw [List.append_assoc, List.singleton_append]
    exact statement_complete_expr value hc semicolon
  | _, _, rest, .declare const typeKind nameKind semicolon, _, _ => by
    rw [List.append_assoc, List.cons_append, statement_complete_declaration const typeKind]
    exact declaration_complete_declare const typeKind nameKind semicolon
  | _, _, rest, .define const typeKind nameKind equalKind value semicolon, hc, _ => by
    rw [List.append_assoc, List.cons_append, statement_complete_declaration const typeKind,
      List.cons_append, List.cons_append, List.append_assoc, List.singleton_append]
    exact declaration_complete_define const typeKind nameKind equalKind value hc semicolon
  | _, _, rest, .assign nameKind kind value semicolon, hc, _ => by
    rw [List.cons_append, List.cons_append, List.append_assoc, List.singleton_append]
    exact statement_complete_assign nameKind kind value hc semicolon
  | _, _, rest, @Stmt.Spelled.branch _ body _ _ _ _ _ bs os wordKind leftParen test rightParen block
      otherwise, ⟨hct, hcb, hco⟩, hr => by
    have hblock : outcome (Parser.block (bs ++ (os ++ rest))) = .ok (body, os ++ rest) :=
      block_complete block hcb
    have helse := elsePart_complete otherwise hco hr
    rw [List.cons_append, List.cons_append, List.append_assoc, List.cons_append,
      List.append_assoc, outcome_statement_cons]
    simp only [wordKind]
    rw [outcome_conditional, outcome_expect_cons wordKind]
    simp only [bind, Except.bind, condition_complete leftParen test hct rightParen, hblock, helse,
      mapError_ok]
  | _, _, rest, @Stmt.Spelled.loop _ body _ _ _ _ bs wordKind leftParen test rightParen block,
      ⟨hct, hcb⟩, _ => by
    have hblock : outcome (Parser.block (bs ++ rest)) = .ok (body, rest) :=
      block_complete block hcb
    rw [List.cons_append, List.cons_append, List.append_assoc, List.cons_append,
      outcome_statement_cons]
    simp only [wordKind, bind, Except.bind, condition_complete leftParen test hct rightParen, hblock]

theorem block_complete : ∀ {body : List Stmt} {ts rest : List Token}, Stmt.SpelledBlock body ts →
    Stmt.CanonicalAll body → outcome (block (ts ++ rest)) = .ok (body, rest)
  | _, _, rest, @Stmt.SpelledBlock.braces _ _ closing _ leftBrace inner rightBrace, hc => by
    have hend : AtBlockEnd (closing :: rest) := .inl rightBrace
    have hinner := statements_complete inner hc hend
    rw [List.cons_append, List.append_assoc, List.singleton_append, outcome_block,
      outcome_expect_cons leftBrace]
    simp only [bind, Except.bind, hinner, outcome_expect_cons rightBrace, mapError_ok]

theorem statements_complete : ∀ {ss : List Stmt} {ts rest : List Token}, Stmt.SpelledAll ss ts →
    Stmt.CanonicalAll ss → AtBlockEnd rest → outcome (statements (ts ++ rest)) = .ok (ss, rest)
  | _, _, rest, .nil, _, hr => outcome_statements_of_end hr
  | _, _, rest, .cons first others, hc, hr => by
    have hnext := noElse_spelledAll others (noElse_of_blockEnd hr)
    have hfirst := statement_complete first hc.1 hnext
    have hothers := statements_complete others hc.2 hr
    rw [List.append_assoc, outcome_statements_cons (not_blockEnd_of_spelled first _), hfirst]
    simp only [bind, Except.bind, hothers, mapError_ok]

theorem elsePart_complete : ∀ {otherwise : Else} {ts rest : List Token}, otherwise.Spelled ts →
    otherwise.Canonical → NoElse rest →
      outcome (elsePart (ts ++ rest)) = .ok (otherwise, rest)
  | _, _, rest, .none, _, hr => by
    rw [List.nil_append, outcome_elsePart, hr]
  | _, _, rest, @Else.Spelled.block body _ bs wordKind block, hc, _ => by
    have hblock : outcome (Parser.block (bs ++ rest)) = .ok (body, rest) := block_complete block hc
    cases block with
    | braces leftBrace _ _ =>
      rw [List.cons_append] at hblock
      rw [List.cons_append, List.cons_append, outcome_elsePart, behind?_cons wordKind]
      simp only [behind?, leftBrace, reduceCtorEq, if_false, hblock, bind, Except.bind]
  | _, _, rest, .branch wordKind branch, hc, hr => by
    have hbranch := statement_complete branch hc hr
    cases branch with
    | branch ifKind _ _ _ _ _ =>
      rw [List.cons_append] at hbranch
      have hcond := conditional_of_statement ifKind hbranch
      rw [List.cons_append, List.cons_append, outcome_elsePart, behind?_cons wordKind]
      simp only [behind?_cons ifKind, hcond, bind, Except.bind]

end

/-- Behind a spelling of a canonical program, the program of the other tokens is read. -/
theorem program_append {p : Program} {ts rest : List Token} (hp : Stmt.SpelledAll p ts)
    (hc : Stmt.CanonicalAll p) (hr : NoElse rest) : program (ts ++ rest) = (do
      let q ← (program rest).mapError (Failure.after p)
      return p ++ q) := by
  induction p generalizing ts with
  | nil =>
    cases hp
    rw [List.nil_append]
    cases program rest <;> rfl
  | cons s p ih =>
    cases hp with
    | cons first others =>
      have hfirst := statement_complete first hc.1 (noElse_spelledAll others hr)
      rw [List.append_assoc, program_cons (not_end_of_spelled first _), hfirst]
      simp only [bind, Except.bind, ih others hc.2]
      cases program rest <;> rfl

/-- A spelling of a canonical program is read back before the end of the input. -/
theorem program_complete {p : Program} {ts rest : List Token} (hp : Stmt.SpelledAll p ts)
    (hc : Stmt.CanonicalAll p) (hr : AtEnd rest) : program (ts ++ rest) = .ok p := by
  rw [program_append hp hc (noElse_of_end hr), program_of_end hr, mapError_ok]
  exact congrArg Except.ok (List.append_nil p)

theorem parse_of_spelledAll {p : Program} {ts : List Token} (hp : Stmt.SpelledAll p ts)
    (hc : Stmt.CanonicalAll p) : parse ts = .ok p := by
  have h := program_complete hp hc (show AtEnd [] from trivial)
  rw [List.append_nil] at h
  rw [parse, h, mapError_ok]

section TokensBeforeEnd

theorem takeWhile_of_not_end {used rest : List Token}
    (hu : ∀ token ∈ used, token.kind ≠ .endOfInput) (hr : AtEnd rest) :
    (used ++ rest).takeWhile (fun token => token.kind ≠ .endOfInput) = used := by
  have hrest : rest.takeWhile (fun token => token.kind ≠ .endOfInput) = [] := by
    cases rest with
    | nil => rfl
    | cons token rest => simp [show token.kind = .endOfInput from hr]
  rw [List.takeWhile_append_of_pos (by simpa using hu), hrest, List.append_nil]

theorem dropWhile_atEnd (ts : List Token) :
    AtEnd (ts.dropWhile fun token => token.kind ≠ .endOfInput) := by
  induction ts with
  | nil => trivial
  | cons token ts ih =>
    by_cases h : token.kind = .endOfInput
    · rw [List.dropWhile_cons_of_neg (by simp [h])]
      exact h
    · rw [List.dropWhile_cons_of_pos (by simp [h])]
      exact ih

end TokensBeforeEnd

end Parser

/-- The parser accepts exactly the spellings of canonical programs, and returns what is spelled. -/
theorem parse_eq_ok_iff_spelled (ts : List Token) (p : Program) :
    parse ts = .ok p ↔ Stmt.CanonicalAll p ∧
      Stmt.SpelledAll p (ts.takeWhile fun token => token.kind ≠ .endOfInput) := by
  unfold parse
  rw [mapError_eq_ok_iff]
  constructor
  · intro h
    obtain ⟨used, rest, rfl, hrest, hused, hcan⟩ := Parser.program_sound h
    rw [Parser.takeWhile_of_not_end hused.not_end hrest]
    exact ⟨hcan, hused⟩
  · rintro ⟨hcan, hused⟩
    have h := Parser.program_complete hused hcan (Parser.dropWhile_atEnd ts)
    rwa [List.takeWhile_append_dropWhile] at h

/-- `a + b * c;` -/
def sumWithProduct : List Token :=
  [⟨.identifier, 1, 0, 1, "a"⟩, ⟨.plus, 1, 2, 1, "+"⟩, ⟨.identifier, 1, 4, 1, "b"⟩,
    ⟨.star, 1, 6, 1, "*"⟩, ⟨.identifier, 1, 8, 1, "c"⟩, ⟨.semicolon, 1, 9, 1, ";"⟩,
    ⟨.endOfInput, 1, 10, 0, ""⟩]

/-- The tokens spell two trees, of which one is canonical: the product is read as an operand of the
sum. -/
theorem parse_eq_ok_iff_spelled_sumWithProduct :
    parse sumWithProduct =
      .ok [.expr (.binary .add (.name "a") (.binary .multiply (.name "b") (.name "c")))] ∧
    Stmt.SpelledAll
      [.expr (.binary .multiply (.binary .add (.name "a") (.name "b")) (.name "c"))]
      (sumWithProduct.take 6) ∧
    parse sumWithProduct ≠
      .ok [.expr (.binary .multiply (.binary .add (.name "a") (.name "b")) (.name "c"))] := by
  have ha : Expr.Spelled (.name "a") [⟨.identifier, 1, 0, 1, "a"⟩] :=
    @Expr.Spelled.name ⟨.identifier, 1, 0, 1, "a"⟩ rfl
  have hb : Expr.Spelled (.name "b") [⟨.identifier, 1, 4, 1, "b"⟩] :=
    @Expr.Spelled.name ⟨.identifier, 1, 4, 1, "b"⟩ rfl
  have hc : Expr.Spelled (.name "c") [⟨.identifier, 1, 8, 1, "c"⟩] :=
    @Expr.Spelled.name ⟨.identifier, 1, 8, 1, "c"⟩ rfl
  refine ⟨(parse_eq_ok_iff_spelled _ _).mpr ⟨?_, ?_⟩, ?_, ?_⟩
  · exact ⟨⟨trivial, (by decide : BinaryOp.add.level < BinaryOp.multiply.level), trivial,
      trivial, trivial, trivial, trivial⟩, trivial⟩
  · exact .cons (.expr (.binary ha rfl (.binary hb rfl hc)) rfl) .nil
  · exact .cons (.expr (.binary (.binary ha rfl hb) rfl hc) rfl) .nil
  · intro h
    obtain ⟨⟨hleft, _⟩, _⟩ := ((parse_eq_ok_iff_spelled _ _).mp h).1
    exact absurd hleft (by decide : ¬ BinaryOp.multiply.level ≤ BinaryOp.add.level)

end MiniC
