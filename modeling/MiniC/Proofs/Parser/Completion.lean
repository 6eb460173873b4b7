import MiniC.Proofs.Parser.Locality

/-!
# Failed parses can be completed

Where the parser misses something, the tokens before that place begin a spelling: with a token that
may stand there and some more tokens behind it they spell what was being read. A number that has no
value cannot be mended, but the tokens before it begin a spelling as well: a name may stand there.
-/

namespace MiniC.Parser

set_option autoImplicit false

/-- The kinds of tokens that may stand where something was missed. -/
def Cause.Allows : Cause → Kind → Prop
  | .token kind, found => found = kind
  | .expression, found => found = .identifier
  | .type, found => found = .intWord
  | .number .., _ => False

/-- The kinds of tokens that may stand where the parser stopped. A name may replace a number. -/
def Cause.Admits : Cause → Kind → Prop
  | .number .., found => found = .identifier
  | cause, found => cause.Allows found

/-- The tokens from the one that stopped the parser on. A number without a value was read before. -/
def Failure.place (f : Failure) : List Token :=
  match f.cause with
  | .number _ token => token :: f.rest
  | _ => f.rest

/-- The token is a literal that has no value. -/
def Refused : NumberKind → Token → Prop
  | .integer, token => token.kind = .integer ∧ Decimal.readInt64? token.lexeme.toList = none
  | .float, token => token.kind = .decimal ∧ Decimal.readFloat? token.lexeme.toList = none

def filler (kind : Kind) : Token :=
  ⟨kind, 0, 0, 0, ""⟩

section Completes

variable {P Q : List Token → Prop} {ts : List Token} {f : Failure}

/-- The tokens of `ts` before the place where `f` stopped, any token that may stand there and some
more tokens make up a list with the property `P`. -/
def Completes (P : List Token → Prop) (ts : List Token) (f : Failure) : Prop :=
  (∀ kind token, f.cause = .number kind token → Refused kind token) ∧
    ∃ used, ts = used ++ f.place ∧
      ∀ token, f.cause.Admits token.kind → ∃ more, P (used ++ token :: more)

theorem Completes.extend (h : Completes P ts f) (front : List Token)
    (hPQ : ∀ us, P us → ∃ more, Q (front ++ (us ++ more))) : Completes Q (front ++ ts) f := by
  obtain ⟨hrefused, used, rfl, hused⟩ := h
  refine ⟨hrefused, front ++ used, by rw [List.append_assoc], ?_⟩
  intro token htoken
  obtain ⟨more, hmore⟩ := hused token htoken
  obtain ⟨last, hlast⟩ := hPQ _ hmore
  refine ⟨more ++ last, ?_⟩
  simpa using hlast

theorem Completes.mono (h : Completes P ts f) (hPQ : ∀ us, P us → Q us) : Completes Q ts f :=
  h.extend [] fun us hus => ⟨[], by simpa using hPQ us hus⟩

theorem completes_at {cause : Cause} (hcause : ∀ kind token, cause ≠ .number kind token)
    (front : List Token)
    (hP : ∀ token : Token, cause.Allows token.kind → ∃ more, P (front ++ token :: more)) :
    Completes P (front ++ ts) (.at cause ts) := by
  refine ⟨fun kind token h => absurd h (hcause kind token), front, ?_⟩
  cases cause with
  | number kind token => exact absurd rfl (hcause kind token)
  | token | expression | type => exact ⟨rfl, hP⟩

theorem eq_of_expect_error {kind : Kind} (h : outcome (expect kind ts) = .error f) :
    f = .at (.token kind) ts := by
  cases ts with
  | nil =>
    cases h
    rfl
  | cons token ts =>
    by_cases hk : token.kind = kind
    · rw [outcome_expect_cons hk] at h
      cases h
    · rw [expect, if_neg hk] at h
      cases h
      rfl

theorem completes_expect {kind : Kind} (h : outcome (expect kind ts) = .error f)
    (front : List Token)
    (hP : ∀ token : Token, token.kind = kind → ∃ more, P (front ++ token :: more)) :
    Completes P (front ++ ts) f := by
  rw [eq_of_expect_error h]
  exact completes_at (by simp) front hP

end Completes

section Expressions

/-- The tokens spell a canonical expression with the property `shape`. -/
def SpellsExpr (shape : Expr → Prop) (ts : List Token) : Prop :=
  ∃ e : Expr, shape e ∧ e.Spelled ts ∧ e.Canonical

theorem spellsExpr_name {name : Token} (h : name.kind = .identifier) :
    SpellsExpr Expr.IsAtom [name] :=
  ⟨.name name.lexeme, trivial, .name h, trivial⟩

theorem spellsExpr_group {opening closing : Token} {ts : List Token}
    (ho : opening.kind = .parenLeft) (h : SpellsExpr (fun _ => True) ts)
    (hc : closing.kind = .parenRight) : SpellsExpr Expr.IsAtom (opening :: (ts ++ [closing])) := by
  obtain ⟨e, _, hs, hcan⟩ := h
  exact ⟨.group e, trivial, .group ho hs hc, hcan⟩

theorem eq_of_integer_error {token : Token} {ts : List Token} {f : Failure}
    (hk : token.kind = .integer) (h : integer token ts = .error f) :
    f = .at (.number .integer token) ts ∧ Refused .integer token := by
  unfold integer at h
  split at h
  · cases h
  · rename_i hread
    cases h
    exact ⟨rfl, hk, hread⟩

theorem eq_of_float_error {token : Token} {ts : List Token} {f : Failure}
    (hk : token.kind = .decimal) (h : float token ts = .error f) :
    f = .at (.number .float token) ts ∧ Refused .float token := by
  unfold float at h
  split at h
  · cases h
  · rename_i hread
    cases h
    exact ⟨rfl, hk, hread⟩

theorem number_completes {kind : NumberKind} {token : Token} {ts : List Token} {f : Failure}
    (h : f = .at (.number kind token) ts ∧ Refused kind token) :
    Completes (SpellsExpr Expr.IsAtom) (token :: ts) f := by
  obtain ⟨rfl, hrefused⟩ := h
  refine ⟨?_, [], rfl, fun name hname => ⟨[], spellsExpr_name hname⟩⟩
  intro kind' token' hcause
  cases hcause
  exact hrefused

mutual

theorem expression_completes {ts : List Token} {f : Failure}
    (h : outcome (expression ts) = .error f) : Completes (SpellsExpr fun _ => True) ts f := by
  rw [outcome_expression] at h
  rcases bind_eq_error_iff.mp h with ho | ⟨⟨first, ts₁⟩, ho, hc⟩
  · refine (operand_completes ho).mono ?_
    rintro us ⟨e, _, hs, hcan⟩
    exact ⟨e, trivial, hs, hcan⟩
  · have hlt : ts₁.length < ts.length := outcome_property ho
    obtain ⟨⟨fs, rfl, hfs, hfc⟩, _⟩ := operand_sound ho
    exact chain_completes hc hfc hfs
termination_by 3 * ts.length + 2

theorem chain_completes {left : Expr} {ls ts : List Token} {f : Failure}
    (h : outcome (chain left ts) = .error f) (hl : left.Canonical) (hs : left.Spelled ls) :
    Completes (SpellsExpr fun _ => True) (ls ++ ts) f := by
  cases ts with
  | nil =>
    rw [outcome_chain_nil] at h
    cases h
  | cons token ts₁ =>
    cases hop : BinaryOp.ofKind? token.kind with
    | none =>
      rw [outcome_chain_of_none hop] at h
      cases h
    | some op =>
      have hk := BinaryOp.ofKind?_eq_some_iff.mp hop
      rw [outcome_chain_of_some hop] at h
      rcases bind_eq_error_iff.mp h with ho | ⟨⟨right, ts₂⟩, ho, hc⟩
      · rw [List.append_cons]
        refine (operand_completes ho).extend (ls ++ [token]) ?_
        rintro us ⟨e, heo, hes, hec⟩
        refine ⟨[], left.attach op e, trivial, ?_, Expr.canonical_attach hl hec heo⟩
        simpa using Expr.spelled_attach hs hk hes
      · have hlt : ts₂.length < ts₁.length := outcome_property ho
        obtain ⟨⟨rs, rfl, hrs, hrc⟩, hro⟩ := operand_sound ho
        have hspelled := Expr.spelled_attach hs hk hrs
        simpa using chain_completes hc (Expr.canonical_attach hl hrc hro) hspelled
termination_by 3 * ts.length

theorem operand_completes {ts : List Token} {f : Failure}
    (h : outcome (operand ts) = .error f) : Completes (SpellsExpr Expr.IsOperand) ts f := by
  have hatom {us : List Token} (hus : SpellsExpr Expr.IsAtom us) :
      SpellsExpr Expr.IsOperand us := by
    obtain ⟨e, ha, hs, hc⟩ := hus
    exact ⟨e, ha.isOperand, hs, hc⟩
  cases ts with
  | nil =>
    rw [operand] at h
    exact (atom_completes h).mono fun us hus => hatom hus
  | cons token ts₁ =>
    cases hop : UnaryOp.ofKind? token.kind with
    | none =>
      rw [outcome_operand_of_none hop] at h
      exact (atom_completes h).mono fun us hus => hatom hus
    | some op =>
      rw [outcome_operand_of_some hop] at h
      rcases bind_eq_error_iff.mp h with ha | ⟨_, _, hok⟩
      · refine (atom_completes ha).extend [token] ?_
        rintro us ⟨e, hatom, hs, hc⟩
        refine ⟨[], .unary op e, trivial, ?_, hatom, hc⟩
        simpa using Expr.Spelled.unary (UnaryOp.ofKind?_eq_some_iff.mp hop) hs
      · cases hok
termination_by 3 * ts.length + 1

theorem atom_completes {ts : List Token} {f : Failure}
    (h : outcome (atom ts) = .error f) : Completes (SpellsExpr Expr.IsAtom) ts f := by
  cases ts with
  | nil =>
    rw [atom] at h
    cases h
    exact completes_at (by simp) [] fun token htoken => ⟨[], spellsExpr_name htoken⟩
  | cons token ts₁ =>
    rw [outcome_atom_cons] at h
    split at h
    · rename_i hk
      rcases bind_eq_error_iff.mp h with he | ⟨⟨e, ts₂⟩, he, hclose⟩
      · refine (expression_completes he).extend [token] ?_
        intro us hus
        exact ⟨[filler .parenRight], spellsExpr_group hk hus rfl⟩
      · obtain ⟨used, rfl, hs, hc⟩ := expression_sound he
        rcases bind_eq_error_iff.mp hclose with hp | ⟨_, _, hok⟩
        · refine completes_expect hp (token :: used) ?_
          intro closing hclosing
          exact ⟨[], spellsExpr_group hk ⟨e, trivial, hs, hc⟩ hclosing⟩
        · cases hok
    · rename_i hk
      rcases bind_eq_error_iff.mp h with hread | ⟨_, _, hok⟩
      · exact number_completes (eq_of_integer_error hk hread)
      · cases hok
    · rename_i hk
      rcases bind_eq_error_iff.mp h with hread | ⟨_, _, hok⟩
      · exact number_completes (eq_of_float_error hk hread)
      · cases hok
    · cases h
    · cases h
    · cases h
      exact completes_at (by simp) [] fun token htoken => ⟨[], spellsExpr_name htoken⟩
termination_by 3 * ts.length

end

end Expressions

section Statements

def SpellsStmt (ts : List Token) : Prop :=
  ∃ s : Stmt, s.Spelled ts ∧ s.Canonical

def SpellsTerminated (ts : List Token) : Prop :=
  ∃ us stop, ts = us ++ [stop] ∧ SpellsExpr (fun _ => True) us ∧ stop.kind = .semicolon

def SpellsCondition (ts : List Token) : Prop :=
  ∃ opening us closing, ts = opening :: (us ++ [closing]) ∧ opening.kind = .parenLeft ∧
    SpellsExpr (fun _ => True) us ∧ closing.kind = .parenRight

def SpellsBlock (ts : List Token) : Prop :=
  ∃ body, Stmt.SpelledBlock body ts ∧ Stmt.CanonicalAll body

def SpellsAll (ts : List Token) : Prop :=
  ∃ ss, Stmt.SpelledAll ss ts ∧ Stmt.CanonicalAll ss

def SpellsBranch (ts : List Token) : Prop :=
  ∃ test body otherwise, (Stmt.branch test body otherwise).Spelled ts ∧
    (Stmt.branch test body otherwise).Canonical

def SpellsElse (ts : List Token) : Prop :=
  ∃ otherwise : Else, otherwise.Spelled ts ∧ otherwise.Canonical

theorem terminated_completes {ts : List Token} {f : Failure}
    (h : outcome (terminated ts) = .error f) : Completes SpellsTerminated ts f := by
  rw [outcome_terminated] at h
  rcases bind_eq_error_iff.mp h with he | ⟨⟨e, ts₁⟩, he, hstop⟩
  · refine (expression_completes he).extend [] ?_
    intro us hus
    exact ⟨[filler .semicolon], us, filler .semicolon, rfl, hus, rfl⟩
  · obtain ⟨used, rfl, hs, hc⟩ := expression_sound he
    rcases bind_eq_error_iff.mp hstop with hp | ⟨_, _, hok⟩
    · refine completes_expect hp used ?_
      intro stop hk
      exact ⟨[], used, stop, rfl, ⟨e, trivial, hs, hc⟩, hk⟩
    · cases hok

theorem expressionStatement_completes {ts : List Token} {f : Failure}
    (h : outcome (expressionStatement ts) = .error f) : Completes SpellsStmt ts f := by
  rw [outcome_expressionStatement] at h
  rcases bind_eq_error_iff.mp h with ht | ⟨_, _, hok⟩
  · refine (terminated_completes ht).mono ?_
    rintro _ ⟨us, stop, rfl, ⟨e, _, hs, hc⟩, hk⟩
    exact ⟨.expr e, .expr hs hk, hc⟩
  · cases hok

theorem nameStatement_completes {name : Token} {ts : List Token} {f : Failure}
    (hn : name.kind = .identifier) (h : outcome (nameStatement name ts) = .error f) :
    Completes SpellsStmt (name :: ts) f := by
  cases ts with
  | nil =>
    rw [outcome_nameStatement_of_none name (by simp)] at h
    exact expressionStatement_completes h
  | cons mark ts =>
    cases hop : AssignOp.ofKind? mark.kind with
    | none =>
      rw [outcome_nameStatement_of_none name (by simp [hop])] at h
      exact expressionStatement_completes h
    | some op =>
      rw [outcome_nameStatement_of_some name hop] at h
      rcases bind_eq_error_iff.mp h with ht | ⟨_, _, hok⟩
      · refine (terminated_completes ht).extend [name, mark] ?_
        rintro _ ⟨us, stop, rfl, ⟨e, _, hs, hc⟩, hk⟩
        refine ⟨[], .assign op name.lexeme e, ?_, hc⟩
        rw [List.append_nil]
        exact .assign hn (AssignOp.ofKind?_eq_some_iff.mp hop) hs hk
      · cases hok

theorem eq_of_typeName_error {ts : List Token} {f : Failure}
    (h : outcome (typeName ts) = .error f) : f = .at .type ts := by
  cases ts with
  | nil =>
    cases h
    rfl
  | cons token ts =>
    by_cases hk : token.kind.isType
    · rw [typeName, if_pos hk] at h
      cases h
    · rw [typeName, if_neg hk] at h
      cases h
      rfl

theorem declaration_completes {ts : List Token} {f : Failure}
    (h : outcome (declaration ts) = .error f) : Completes SpellsStmt ts f := by
  rw [outcome_declaration] at h
  obtain ⟨mark, hts, hmark⟩ := constMark_sound ts
  generalize constMark ts = front at h hts hmark
  rw [hts]
  rcases bind_eq_error_iff.mp h with ht | ⟨⟨type, ts₂⟩, ht, h₂⟩
  · rw [eq_of_typeName_error ht]
    refine completes_at (by simp) mark ?_
    intro type hk
    exact ⟨[filler .identifier, filler .semicolon], _, .declare hmark (.inl hk) rfl rfl, trivial⟩
  · obtain ⟨typeToken, hts₁, htk, rfl⟩ := outcome_typeName_eq_ok_iff.mp ht
    rw [hts₁]
    rcases bind_eq_error_iff.mp h₂ with hn | ⟨⟨name, ts₃⟩, hn, h₃⟩
    · rw [List.append_cons]
      refine completes_expect hn (mark ++ [typeToken]) ?_
      intro name hk
      refine ⟨[filler .semicolon], .declare front.1 typeToken.lexeme name.lexeme, ?_, trivial⟩
      rw [← List.append_cons]
      exact .declare hmark htk hk rfl
    · obtain ⟨hnk, rfl⟩ := outcome_expect_eq_ok_iff.mp hn
      cases hequal : behind? .equal ts₃ with
      | some ts₄ =>
        simp only [hequal] at h₃
        obtain ⟨equal, hek, rfl⟩ := behind?_eq_some_iff.mp hequal
        have hvalue : outcome (terminated ts₄) = .error f := by
          rw [outcome_terminated]
          rcases bind_eq_error_iff.mp h₃ with he | ⟨value, he, hstop⟩
          · rw [he]
            rfl
          · rcases bind_eq_error_iff.mp hstop with hp | ⟨_, _, hok⟩
            · simp only [he, hp, bind, Except.bind]
            · cases hok
        have hfront : mark ++ typeToken :: name :: equal :: ts₄ =
            (mark ++ [typeToken, name, equal]) ++ ts₄ := by
          simp
        rw [hfront]
        refine (terminated_completes hvalue).extend (mark ++ [typeToken, name, equal]) ?_
        rintro _ ⟨us, stop, rfl, ⟨e, _, hs, hc⟩, hk⟩
        refine ⟨[], .define front.1 typeToken.lexeme name.lexeme e, ?_, hc⟩
        simpa using Stmt.Spelled.define hmark htk hnk hek hs hk
      | none =>
        simp only [hequal] at h₃
        rcases bind_eq_error_iff.mp h₃ with hp | ⟨_, _, hok⟩
        · have hfront : mark ++ typeToken :: name :: ts₃ = (mark ++ [typeToken, name]) ++ ts₃ := by
            simp
          rw [hfront]
          refine completes_expect hp (mark ++ [typeToken, name]) ?_
          intro stop hk
          refine ⟨[], .declare front.1 typeToken.lexeme name.lexeme, ?_, trivial⟩
          simpa using Stmt.Spelled.declare hmark htk hnk hk
        · cases hok

theorem condition_completes {ts : List Token} {f : Failure}
    (h : outcome (condition ts) = .error f) : Completes SpellsCondition ts f := by
  rw [outcome_condition] at h
  rcases bind_eq_error_iff.mp h with ho | ⟨⟨opening, ts₁⟩, ho, h₁⟩
  · refine completes_expect ho [] ?_
    intro opening hk
    exact ⟨[filler .identifier, filler .parenRight], opening, [filler .identifier],
      filler .parenRight, rfl, hk, ⟨_, trivial, .name rfl, trivial⟩, rfl⟩
  · obtain ⟨hok, rfl⟩ := outcome_expect_eq_ok_iff.mp ho
    rcases bind_eq_error_iff.mp h₁ with he | ⟨⟨e, ts₂⟩, he, h₂⟩
    · refine (expression_completes he).extend [opening] ?_
      intro us hus
      exact ⟨[filler .parenRight], opening, us, filler .parenRight, rfl, hok, hus, rfl⟩
    · obtain ⟨used, rfl, hs, hc⟩ := expression_sound he
      rcases bind_eq_error_iff.mp h₂ with hp | ⟨_, _, hend⟩
      · refine completes_expect hp (opening :: used) ?_
        intro closing hk
        exact ⟨[], opening, used, closing, rfl, hok, ⟨e, trivial, hs, hc⟩, hk⟩
      · cases hend

/-- A block without statements. -/
theorem spellsBlock_empty {opening closing : Token} (ho : opening.kind = .braceLeft)
    (hc : closing.kind = .braceRight) : SpellsBlock [opening, closing] :=
  ⟨[], .braces ho .nil hc, trivial⟩

theorem spellsBlock_filler : SpellsBlock [filler .braceLeft, filler .braceRight] :=
  spellsBlock_empty rfl rfl

theorem spellsStmt_loop {word : Token} {cs bs : List Token} (hw : word.kind = .whileWord)
    (hcs : SpellsCondition cs) (hbs : SpellsBlock bs) : SpellsStmt (word :: (cs ++ bs)) := by
  obtain ⟨opening, us, closing, rfl, ho, ⟨test, _, hs, hc⟩, hk⟩ := hcs
  obtain ⟨body, hbody, hcan⟩ := hbs
  refine ⟨.loop test body, ?_, hc, hcan⟩
  rw [List.cons_append, List.append_assoc, List.singleton_append]
  exact .loop hw ho hs hk hbody

theorem spellsBranch_parts {word : Token} {cs bs os : List Token} (hw : word.kind = .ifWord)
    (hcs : SpellsCondition cs) (hbs : SpellsBlock bs) (hos : SpellsElse os) :
    SpellsBranch (word :: (cs ++ (bs ++ os))) := by
  obtain ⟨opening, us, closing, rfl, ho, ⟨test, _, hs, hc⟩, hk⟩ := hcs
  obtain ⟨body, hbody, hcan⟩ := hbs
  obtain ⟨otherwise, hother, hocan⟩ := hos
  refine ⟨test, body, otherwise, ?_, hc, hcan, hocan⟩
  rw [List.cons_append, List.append_assoc, List.singleton_append]
  exact .branch hw ho hs hk hbody hother

theorem spellsElse_none : SpellsElse [] :=
  ⟨.none, .none, trivial⟩

theorem spellsCondition_of_ok {ts rest : List Token} {e : Expr}
    (h : outcome (condition ts) = .ok (e, rest)) : ∃ cs, ts = cs ++ rest ∧ SpellsCondition cs := by
  obtain ⟨opening, used, closing, rfl, ho, hs, hc, hk⟩ := condition_sound h
  exact ⟨opening :: (used ++ [closing]), by simp, opening, used, closing, rfl, ho,
    ⟨e, trivial, hs, hc⟩, hk⟩

theorem SpellsStmt.spellsAll {ts : List Token} (h : SpellsStmt ts) : SpellsAll ts := by
  obtain ⟨s, hs, hc⟩ := h
  refine ⟨[s], ?_, hc, trivial⟩
  simpa using Stmt.SpelledAll.cons hs .nil

theorem SpellsAll.cons {s : Stmt} {us ts : List Token} (hs : s.Spelled us) (hc : s.Canonical)
    (h : SpellsAll ts) : SpellsAll (us ++ ts) := by
  obtain ⟨ss, hss, hcan⟩ := h
  exact ⟨s :: ss, .cons hs hss, hc, hcan⟩

mutual

theorem statement_completes {ts : List Token} {f : Failure}
    (h : outcome (statement ts) = .error f) : Completes SpellsStmt ts f := by
  cases ts with
  | nil =>
    rw [statement] at h
    exact expressionStatement_completes h
  | cons token ts₁ =>
    rw [outcome_statement_cons] at h
    split at h
    · exact declaration_completes h
    · exact declaration_completes h
    · exact declaration_completes h
    · rcases bind_eq_error_iff.mp h with hb | ⟨_, _, hok⟩
      · refine (conditional_completes hb).mono ?_
        rintro us ⟨test, body, otherwise, hs, hc⟩
        exact ⟨.branch test body otherwise, hs, hc⟩
      · cases hok
    · rename_i hk
      rcases bind_eq_error_iff.mp h with ht | ⟨⟨test, ts₂⟩, ht, h₂⟩
      · refine (condition_completes ht).extend [token] ?_
        intro us hus
        have hloop := spellsStmt_loop hk hus spellsBlock_filler
        exact ⟨_, hloop⟩
      · have hlt : ts₂.length < ts₁.length := outcome_property ht
        obtain ⟨cs, rfl, hcs⟩ := spellsCondition_of_ok ht
        rcases bind_eq_error_iff.mp h₂ with hb | ⟨_, _, hok⟩
        · refine (block_completes hb).extend (token :: cs) ?_
          intro us hus
          exact ⟨[], by simpa using spellsStmt_loop hk hcs hus⟩
        · cases hok
    · rename_i hk
      exact nameStatement_completes hk h
    · exact expressionStatement_completes h
termination_by 3 * ts.length + 1

theorem conditional_completes {ts : List Token} {f : Failure}
    (h : outcome (conditional ts) = .error f) : Completes SpellsBranch ts f := by
  rw [outcome_conditional] at h
  rcases bind_eq_error_iff.mp h with hw | ⟨⟨word, ts₁⟩, hw, h₁⟩
  · refine completes_expect hw [] ?_
    intro word hk
    have hcondition : SpellsCondition
        [filler .parenLeft, filler .identifier, filler .parenRight] :=
      ⟨_, [filler .identifier], _, rfl, rfl, ⟨_, trivial, .name rfl, trivial⟩, rfl⟩
    exact ⟨_, spellsBranch_parts hk hcondition spellsBlock_filler spellsElse_none⟩
  · have hlt₁ : ts₁.length < ts.length := outcome_property hw
    obtain ⟨hk, rfl⟩ := outcome_expect_eq_ok_iff.mp hw
    rcases bind_eq_error_iff.mp h₁ with ht | ⟨⟨test, ts₂⟩, ht, h₂⟩
    · refine (condition_completes ht).extend [word] ?_
      intro us hus
      have hbranch := spellsBranch_parts hk hus spellsBlock_filler spellsElse_none
      exact ⟨_, hbranch⟩
    · have hlt₂ : ts₂.length < ts₁.length := outcome_property ht
      obtain ⟨cs, rfl, hcs⟩ := spellsCondition_of_ok ht
      rcases bind_eq_error_iff.mp h₂ with hb | ⟨⟨body, ts₃⟩, hb, h₃⟩
      · refine (block_completes hb).extend (word :: cs) ?_
        intro us hus
        exact ⟨[], spellsBranch_parts hk hcs hus spellsElse_none⟩
      · have hlt₃ : ts₃.length < ts₂.length := outcome_property hb
        obtain ⟨bs, rfl, hbs, hcan⟩ := block_sound hb
        rcases bind_eq_error_iff.mp h₃ with ho | ⟨_, _, hok⟩
        · obtain ⟨g, hg, rfl⟩ := mapError_eq_error_iff.mp ho
          have hfront : word :: (cs ++ (bs ++ ts₃)) = (word :: (cs ++ bs)) ++ ts₃ := by simp
          rw [hfront]
          refine (elsePart_completes hg).extend (word :: (cs ++ bs)) ?_
          intro us hus
          exact ⟨[], by simpa using spellsBranch_parts hk hcs ⟨body, hbs, hcan⟩ hus⟩
        · cases hok
termination_by 3 * ts.length

theorem elsePart_completes {ts : List Token} {f : Failure}
    (h : outcome (elsePart ts) = .error f) : Completes SpellsElse ts f := by
  rw [outcome_elsePart] at h
  cases helse : behind? .elseWord ts with
  | none =>
    simp only [helse] at h
    cases h
  | some ts₁ =>
    simp only [helse] at h
    obtain ⟨word, hw, rfl⟩ := behind?_eq_some_iff.mp helse
    cases hif : behind? .ifWord ts₁ with
    | some _ =>
      simp only [hif] at h
      rcases bind_eq_error_iff.mp h with hb | ⟨_, _, hok⟩
      · refine (conditional_completes hb).extend [word] ?_
        rintro us ⟨test, body, otherwise, hs, hc⟩
        exact ⟨[], .branch test body otherwise, by simpa using Else.Spelled.branch hw hs, hc⟩
      · cases hok
    | none =>
      simp only [hif] at h
      rcases bind_eq_error_iff.mp h with hb | ⟨_, _, hok⟩
      · refine (block_completes hb).extend [word] ?_
        rintro us ⟨body, hs, hc⟩
        exact ⟨[], .block body, by simpa using Else.Spelled.block hw hs, hc⟩
      · cases hok
termination_by 3 * ts.length

theorem block_completes {ts : List Token} {f : Failure}
    (h : outcome (block ts) = .error f) : Completes SpellsBlock ts f := by
  rw [outcome_block] at h
  rcases bind_eq_error_iff.mp h with ho | ⟨⟨opening, ts₁⟩, ho, h₁⟩
  · refine completes_expect ho [] ?_
    intro opening hk
    exact ⟨[filler .braceRight], spellsBlock_empty hk rfl⟩
  · have hlt : ts₁.length < ts.length := outcome_property ho
    obtain ⟨hk, rfl⟩ := outcome_expect_eq_ok_iff.mp ho
    rcases bind_eq_error_iff.mp h₁ with hs | ⟨⟨body, ts₂⟩, hs, h₂⟩
    · refine (statements_completes hs).extend [opening] ?_
      rintro us ⟨ss, hss, hc⟩
      exact ⟨[filler .braceRight], ss, .braces hk hss rfl, hc⟩
    · obtain ⟨used, rfl, hused, hc⟩ := statements_sound hs
      rcases bind_eq_error_iff.mp h₂ with hp | ⟨_, _, hok⟩
      · obtain ⟨g, hg, rfl⟩ := mapError_eq_error_iff.mp hp
        refine completes_expect hg (opening :: used) ?_
        intro closing hclosing
        exact ⟨[], body, .braces hk hused hclosing, hc⟩
      · cases hok
termination_by 3 * ts.length

theorem statements_completes {ts : List Token} {f : Failure}
    (h : outcome (statements ts) = .error f) : Completes SpellsAll ts f := by
  by_cases hend : AtBlockEnd ts
  · rw [outcome_statements_of_end hend] at h
    cases h
  · rw [outcome_statements_cons hend] at h
    rcases bind_eq_error_iff.mp h with hs | ⟨⟨s, ts₁⟩, hs, h₁⟩
    · exact (statement_completes hs).mono fun us hus => hus.spellsAll
    · have hlt : ts₁.length < ts.length := outcome_property hs
      obtain ⟨used, rfl, hused, hc⟩ := statement_sound hs
      rcases bind_eq_error_iff.mp h₁ with hss | ⟨_, _, hok⟩
      · obtain ⟨g, hg, rfl⟩ := mapError_eq_error_iff.mp hss
        refine (statements_completes hg).extend used ?_
        intro us hus
        exact ⟨[], by simpa using hus.cons hused hc⟩
      · cases hok
termination_by 3 * ts.length + 2

end

/-- Where a program fails, its tokens up to there begin a program. -/
theorem program_stops {ts : List Token} {f : Failure} (h : program ts = .error f) :
    Completes SpellsAll ts f := by
  by_cases hend : AtEnd ts
  · rw [program_of_end hend] at h
    cases h
  · rw [program_cons hend] at h
    rcases bind_eq_error_iff.mp h with hs | ⟨⟨s, ts₁⟩, hs, h₁⟩
    · exact (statement_completes hs).mono fun us hus => hus.spellsAll
    · have hlt : ts₁.length < ts.length := outcome_property hs
      obtain ⟨used, rfl, hused, hc⟩ := statement_sound hs
      rcases bind_eq_error_iff.mp h₁ with hss | ⟨_, _, hok⟩
      · obtain ⟨g, hg, rfl⟩ := mapError_eq_error_iff.mp hss
        refine (program_stops hg).extend used ?_
        intro us hus
        exact ⟨[], by simpa using hus.cons hused hc⟩
      · cases hok
termination_by ts.length

theorem program_completes {ts : List Token} {f : Failure} (h : program ts = .error f) :
    ∃ used, ts = used ++ f.rest ∧
      ∀ token, f.cause.Allows token.kind → ∃ more, SpellsAll (used ++ token :: more) := by
  obtain ⟨_, used, hts, hused⟩ := program_stops h
  cases hcause : f.cause with
  | number kind token =>
    rw [Failure.place, hcause] at hts
    exact ⟨used ++ [token], by simpa using hts, fun _ hallows => absurd hallows id⟩
  | token | expression | type =>
    rw [Failure.place, hcause] at hts
    rw [hcause] at hused
    exact ⟨used, hts, hused⟩

end Statements

end MiniC.Parser
