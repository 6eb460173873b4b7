import MiniC.Proofs.Parser.Locality

/-!
# The end of the input

A token list may simply stop, or an end token may stand behind its tokens. The parser takes no end
token and looks at nothing behind one, so a tail that begins with an end token changes no answer:
the same is read or missed before it. Only the line of an error at the end of the input is that of
another token.
-/

namespace MiniC

set_option autoImplicit false

namespace Parser

section Tail

variable {α β : Type} {tail : List Token}

/-- The failure `f`, with the tokens `tail` behind those that it leaves. -/
def Failure.before (tail : List Token) (f : Failure) : Failure :=
  { f with rest := f.rest ++ tail }

/-- An answer, with the tokens `tail` behind those that it leaves. -/
def withTail (tail : List Token) :
    Except Failure (α × List Token) → Except Failure (α × List Token)
  | .ok (a, rest) => .ok (a, rest ++ tail)
  | .error f => .error (f.before tail)

theorem bind_withTail {r r' : Except Failure (α × List Token)}
    {k : α × List Token → Except Failure (β × List Token)} (hr : r' = withTail tail r)
    (hk : ∀ a rest, r = .ok (a, rest) → k (a, rest ++ tail) = withTail tail (k (a, rest))) :
    r' >>= k = withTail tail (r >>= k) := by
  subst hr
  cases r with
  | error f => rfl
  | ok x => exact hk x.1 x.2 rfl

theorem mapError_withTail {r r' : Except Failure (α × List Token)} (hr : r' = withTail tail r)
    (block : List Stmt) :
    r'.mapError (Failure.after block) = withTail tail (r.mapError (Failure.after block)) := by
  subst hr
  cases r <;> rfl

end Tail

section AtEnd

variable {us : List Token} (h : AtEnd us)
include h

theorem kind_of_end : ∀ token ∈ us.head?, token.kind = .endOfInput := by
  intro token htoken
  obtain ⟨rest, rfl⟩ := List.head?_eq_some_iff.mp htoken
  exact h

theorem expect_of_end {kind : Kind} (hk : kind ≠ .endOfInput) :
    outcome (expect kind us) = .error (.at (.token kind) us) := by
  cases us with
  | nil => rfl
  | cons token us =>
    have htoken : token.kind = .endOfInput := h
    rw [expect, if_neg (by rw [htoken]; exact hk.symm)]
    rfl

theorem behind?_of_end {kind : Kind} (hk : kind ≠ .endOfInput) : behind? kind us = none := by
  cases us with
  | nil => rfl
  | cons token us =>
    have htoken : token.kind = .endOfInput := h
    rw [behind?, if_neg (by rw [htoken]; exact hk.symm)]

theorem typeName_of_end : outcome (typeName us) = .error (.at .type us) := by
  cases us with
  | nil => rfl
  | cons token us =>
    have htoken : token.kind = .endOfInput := h
    rw [typeName, if_neg (by rw [htoken]; decide)]
    rfl

theorem constMark_of_end : (constMark us).1 = false ∧ (constMark us).2.val = us := by
  cases us with
  | nil => exact ⟨rfl, rfl⟩
  | cons token us =>
    have htoken : token.kind = .endOfInput := h
    simp [constMark, accept?, htoken]

theorem named_of_end (name : String) :
    (named name us).1 = .name name ∧ (named name us).2.val = us := by
  apply named_of_none
  intro token htoken
  rw [kind_of_end h token htoken]
  rfl

theorem chain_of_end (left : Expr) : outcome (chain left us) = .ok (left, us) := by
  cases us with
  | nil => exact outcome_chain_nil left
  | cons token us =>
    have htoken : token.kind = .endOfInput := h
    exact outcome_chain_of_none (by rw [htoken]; rfl) left us

theorem atom_of_end : outcome (atom us) = .error (.at .expression us) := by
  cases us with
  | nil =>
    rw [atom]
    rfl
  | cons token us =>
    have htoken : token.kind = .endOfInput := h
    rw [outcome_atom_cons, htoken]

theorem operand_of_end : outcome (operand us) = .error (.at .expression us) := by
  rw [← atom_of_end h]
  cases us with
  | nil => rw [operand]
  | cons token us =>
    have htoken : token.kind = .endOfInput := h
    exact outcome_operand_of_none (by rw [htoken]; rfl) us

theorem statement_of_end : outcome (statement us) = outcome (expressionStatement us) := by
  cases us with
  | nil => rw [statement]
  | cons token us =>
    have htoken : token.kind = .endOfInput := h
    rw [outcome_statement_cons, htoken]

end AtEnd

section Tokens

variable {tail : List Token} (htail : AtEnd tail)
include htail

theorem atEnd_append_iff (ts : List Token) : AtEnd (ts ++ tail) ↔ AtEnd ts := by
  cases ts with
  | nil => exact iff_of_true htail trivial
  | cons token ts => exact Iff.rfl

theorem atBlockEnd_append_iff (ts : List Token) : AtBlockEnd (ts ++ tail) ↔ AtBlockEnd ts := by
  cases ts with
  | nil =>
    cases tail with
    | nil => exact Iff.rfl
    | cons last more => exact iff_of_true (.inr htail) trivial
  | cons token ts => exact Iff.rfl

theorem expect_withTail {kind : Kind} (hk : kind ≠ .endOfInput) (ts : List Token) :
    outcome (expect kind (ts ++ tail)) = withTail tail (outcome (expect kind ts)) := by
  cases ts with
  | nil =>
    rw [List.nil_append, expect_of_end htail hk]
    rfl
  | cons token ts =>
    rw [List.cons_append, expect, expect]
    split <;> rfl

theorem behind?_withTail {kind : Kind} (hk : kind ≠ .endOfInput) (ts : List Token) :
    behind? kind (ts ++ tail) = (behind? kind ts).map (· ++ tail) := by
  cases ts with
  | nil =>
    rw [List.nil_append, behind?_of_end htail hk]
    rfl
  | cons token ts =>
    rw [List.cons_append, behind?, behind?]
    split <;> rfl

theorem typeName_withTail (ts : List Token) :
    outcome (typeName (ts ++ tail)) = withTail tail (outcome (typeName ts)) := by
  cases ts with
  | nil =>
    rw [List.nil_append, typeName_of_end htail]
    rfl
  | cons token ts =>
    rw [List.cons_append, typeName, typeName]
    split <;> rfl

theorem constMark_withTail (ts : List Token) :
    (constMark (ts ++ tail)).1 = (constMark ts).1 ∧
      (constMark (ts ++ tail)).2.val = (constMark ts).2.val ++ tail := by
  cases ts with
  | nil => exact constMark_of_end htail
  | cons token ts =>
    by_cases hk : token.kind = .constWord
    · simp [constMark, accept?, hk]
    · simp [constMark, accept?, hk]

theorem named_withTail (name : String) (ts : List Token) :
    (named name (ts ++ tail)).1 = (named name ts).1 ∧
      (named name (ts ++ tail)).2.val = (named name ts).2.val ++ tail := by
  cases ts with
  | nil => exact named_of_end htail name
  | cons token ts =>
    cases hop : StepOp.ofKind? token.kind with
    | none => simp [named, hop]
    | some op => simp [named, hop]

omit htail in
theorem literal_withTail {read : List Token → Except Failure Expr} {cause : Cause}
    (h : (∃ e, ∀ us, read us = .ok e) ∨ ∀ us, read us = .error (.at cause us)) (ts : List Token) :
    (read (ts ++ tail) >>= fun e => .ok (e, ts ++ tail)) =
      withTail tail (read ts >>= fun e => .ok (e, ts)) := by
  rcases h with ⟨e, he⟩ | hfail
  · rw [he, he]
    rfl
  · rw [hfail, hfail]
    rfl

end Tokens

section Expressions

variable {tail : List Token}

mutual

theorem expression_withTail (htail : AtEnd tail) (ts : List Token) :
    outcome (expression (ts ++ tail)) = withTail tail (outcome (expression ts)) := by
  rw [outcome_expression, outcome_expression]
  apply bind_withTail (operand_withTail htail ts)
  intro first rest h
  have hlt : rest.length < ts.length := outcome_property h
  exact chain_withTail htail first rest
termination_by 3 * ts.length + 2

theorem chain_withTail (htail : AtEnd tail) (left : Expr) (ts : List Token) :
    outcome (chain left (ts ++ tail)) = withTail tail (outcome (chain left ts)) := by
  cases ts with
  | nil =>
    rw [List.nil_append, chain_of_end htail, outcome_chain_nil]
    rfl
  | cons token ts =>
    rw [List.cons_append]
    cases hop : BinaryOp.ofKind? token.kind with
    | none =>
      rw [outcome_chain_of_none hop, outcome_chain_of_none hop]
      rfl
    | some op =>
      rw [outcome_chain_of_some hop, outcome_chain_of_some hop]
      apply bind_withTail (operand_withTail htail ts)
      intro right rest h
      have hlt : rest.length < ts.length := outcome_property h
      exact chain_withTail htail (left.attach op right) rest
termination_by 3 * ts.length

theorem operand_withTail (htail : AtEnd tail) (ts : List Token) :
    outcome (operand (ts ++ tail)) = withTail tail (outcome (operand ts)) := by
  cases ts with
  | nil =>
    rw [List.nil_append, operand_of_end htail, @operand_of_end [] trivial]
    rfl
  | cons token ts =>
    rw [List.cons_append]
    cases hop : UnaryOp.ofKind? token.kind with
    | none =>
      rw [outcome_operand_of_none hop, outcome_operand_of_none hop]
      exact atom_withTail htail (token :: ts)
    | some op =>
      rw [outcome_operand_of_some hop, outcome_operand_of_some hop]
      apply bind_withTail (atom_withTail htail ts)
      intro e rest _
      rfl
termination_by 3 * ts.length + 1

theorem atom_withTail (htail : AtEnd tail) (ts : List Token) :
    outcome (atom (ts ++ tail)) = withTail tail (outcome (atom ts)) := by
  cases ts with
  | nil =>
    rw [List.nil_append, atom_of_end htail, @atom_of_end [] trivial]
    rfl
  | cons token ts =>
    rw [List.cons_append, outcome_atom_cons, outcome_atom_cons]
    cases hk : token.kind with
    | parenLeft =>
      apply bind_withTail (expression_withTail htail ts)
      intro e rest _
      apply bind_withTail (expect_withTail htail (by decide) rest)
      intro _ rest _
      rfl
    | integer => exact literal_withTail (integer_cases token) ts
    | decimal => exact literal_withTail (float_cases token) ts
    | identifier =>
      obtain ⟨hvalue, hrest⟩ := named_withTail htail token.lexeme ts
      simp only [hvalue, hrest]
      rfl
    | _ => rfl
termination_by 3 * ts.length

end

end Expressions

section Statements

variable {tail : List Token} (htail : AtEnd tail)
include htail

theorem terminated_withTail (ts : List Token) :
    outcome (terminated (ts ++ tail)) = withTail tail (outcome (terminated ts)) := by
  rw [outcome_terminated, outcome_terminated]
  apply bind_withTail (expression_withTail htail ts)
  intro value rest _
  apply bind_withTail (expect_withTail htail (by decide) rest)
  intro _ rest _
  rfl

theorem expressionStatement_withTail (ts : List Token) :
    outcome (expressionStatement (ts ++ tail)) =
      withTail tail (outcome (expressionStatement ts)) := by
  rw [outcome_expressionStatement, outcome_expressionStatement]
  apply bind_withTail (terminated_withTail htail ts)
  intro value rest _
  rfl

theorem nameStatement_withTail (name : Token) (ts : List Token) :
    outcome (nameStatement name (ts ++ tail)) =
      withTail tail (outcome (nameStatement name ts)) := by
  have hexpr (hts : ∀ token ∈ ts.head?, AssignOp.ofKind? token.kind = none)
      (hall : ∀ token ∈ (ts ++ tail).head?, AssignOp.ofKind? token.kind = none) :
      outcome (nameStatement name (ts ++ tail)) =
        withTail tail (outcome (nameStatement name ts)) := by
    rw [outcome_nameStatement_of_none name hts, outcome_nameStatement_of_none name hall]
    exact expressionStatement_withTail htail (name :: ts)
  cases ts with
  | nil =>
    apply hexpr (by simp)
    intro token htoken
    rw [kind_of_end htail token htoken]
    rfl
  | cons token ts =>
    cases hop : AssignOp.ofKind? token.kind with
    | none => exact hexpr (by simp [hop]) (by simp [hop])
    | some op =>
      rw [List.cons_append, outcome_nameStatement_of_some name hop,
        outcome_nameStatement_of_some name hop]
      apply bind_withTail (terminated_withTail htail ts)
      intro value rest _
      rfl

theorem condition_withTail (ts : List Token) :
    outcome (condition (ts ++ tail)) = withTail tail (outcome (condition ts)) := by
  rw [outcome_condition, outcome_condition]
  apply bind_withTail (expect_withTail htail (by decide) ts)
  intro _ rest _
  apply bind_withTail (expression_withTail htail rest)
  intro value rest _
  apply bind_withTail (expect_withTail htail (by decide) rest)
  intro _ rest _
  rfl

theorem declared_withTail (isConst : Bool) (ts : List Token) :
    declared isConst (ts ++ tail) = withTail tail (declared isConst ts) := by
  apply bind_withTail (typeName_withTail htail ts)
  intro type rest _
  apply bind_withTail (expect_withTail htail (by decide) rest)
  intro name rest _
  dsimp only
  rw [behind?_withTail htail (by decide) rest]
  cases behind? .equal rest with
  | none =>
    apply bind_withTail (expect_withTail htail (by decide) rest)
    intro _ rest _
    rfl
  | some rest =>
    apply bind_withTail (expression_withTail htail rest)
    intro value rest _
    apply bind_withTail (expect_withTail htail (by decide) rest)
    intro _ rest _
    rfl

theorem declaration_withTail (ts : List Token) :
    outcome (declaration (ts ++ tail)) = withTail tail (outcome (declaration ts)) := by
  have heq : ∀ us, outcome (declaration us) = declared (constMark us).1 (constMark us).2.val :=
    outcome_declaration
  obtain ⟨hmark, hrest⟩ := constMark_withTail htail ts
  rw [heq, heq, hmark, hrest]
  exact declared_withTail htail _ _

mutual

theorem statement_withTail (ts : List Token) :
    outcome (statement (ts ++ tail)) = withTail tail (outcome (statement ts)) := by
  cases ts with
  | nil =>
    rw [List.nil_append, statement_of_end htail, @statement_of_end [] trivial]
    exact expressionStatement_withTail htail []
  | cons token ts =>
    rw [List.cons_append, outcome_statement_cons, outcome_statement_cons]
    cases hk : token.kind with
    | constWord | intWord | floatWord => exact declaration_withTail htail (token :: ts)
    | ifWord =>
      apply bind_withTail (conditional_withTail (token :: ts))
      intro b rest _
      rfl
    | whileWord =>
      apply bind_withTail (condition_withTail htail ts)
      intro test rest h
      have hlt : rest.length < ts.length := outcome_property h
      apply bind_withTail (block_withTail rest)
      intro body rest _
      rfl
    | identifier => exact nameStatement_withTail htail token ts
    | _ => exact expressionStatement_withTail htail (token :: ts)
termination_by 3 * ts.length + 1

theorem conditional_withTail (ts : List Token) :
    outcome (conditional (ts ++ tail)) = withTail tail (outcome (conditional ts)) := by
  rw [outcome_conditional, outcome_conditional]
  apply bind_withTail (expect_withTail htail (by decide) ts)
  intro _ ts₁ h₁
  have hlt₁ : ts₁.length < ts.length := outcome_property h₁
  apply bind_withTail (condition_withTail htail ts₁)
  intro test ts₂ h₂
  have hlt₂ : ts₂.length < ts₁.length := outcome_property h₂
  apply bind_withTail (block_withTail ts₂)
  intro body ts₃ h₃
  have hlt₃ : ts₃.length < ts₂.length := outcome_property h₃
  apply bind_withTail (mapError_withTail (elsePart_withTail ts₃) body)
  intro otherwise rest _
  rfl
termination_by 3 * ts.length

theorem elsePart_withTail (ts : List Token) :
    outcome (elsePart (ts ++ tail)) = withTail tail (outcome (elsePart ts)) := by
  rw [outcome_elsePart, outcome_elsePart, behind?_withTail htail (by decide) ts]
  cases helse : behind? .elseWord ts with
  | none => rfl
  | some ts₁ =>
    obtain ⟨word, _, rfl⟩ := behind?_eq_some_iff.mp helse
    dsimp only [Option.map]
    rw [behind?_withTail htail (by decide) ts₁]
    cases behind? .ifWord ts₁ with
    | none =>
      apply bind_withTail (block_withTail ts₁)
      intro body rest _
      rfl
    | some ts₂ =>
      apply bind_withTail (conditional_withTail ts₁)
      intro b rest _
      rfl
termination_by 3 * ts.length

theorem block_withTail (ts : List Token) :
    outcome (block (ts ++ tail)) = withTail tail (outcome (block ts)) := by
  rw [outcome_block, outcome_block]
  apply bind_withTail (expect_withTail htail (by decide) ts)
  intro _ ts₁ h₁
  have hlt : ts₁.length < ts.length := outcome_property h₁
  apply bind_withTail (statements_withTail ts₁)
  intro body ts₂ _
  apply bind_withTail (mapError_withTail (expect_withTail htail (by decide) ts₂) body)
  intro _ rest _
  rfl
termination_by 3 * ts.length

theorem statements_withTail (ts : List Token) :
    outcome (statements (ts ++ tail)) = withTail tail (outcome (statements ts)) := by
  by_cases hend : AtBlockEnd ts
  · have hall : AtBlockEnd (ts ++ tail) := (atBlockEnd_append_iff htail ts).mpr hend
    rw [outcome_statements_of_end hend, outcome_statements_of_end hall]
    rfl
  · have hgo : ¬ AtBlockEnd (ts ++ tail) := mt (atBlockEnd_append_iff htail ts).mp hend
    rw [outcome_statements_cons hend, outcome_statements_cons hgo]
    apply bind_withTail (statement_withTail ts)
    intro s ts₁ h₁
    have hlt : ts₁.length < ts.length := outcome_property h₁
    apply bind_withTail (mapError_withTail (statements_withTail ts₁) [s])
    intro ss rest _
    rfl
termination_by 3 * ts.length + 2

end

/-- Behind a tail that begins with an end token nothing is read, and it mends no failure. -/
theorem program_withTail (ts : List Token) :
    program (ts ++ tail) = (program ts).mapError (Failure.before tail) := by
  by_cases hend : AtEnd ts
  · have hall : AtEnd (ts ++ tail) := (atEnd_append_iff htail ts).mpr hend
    rw [program_of_end hend, program_of_end hall]
    rfl
  · have hgo : ¬ AtEnd (ts ++ tail) := mt (atEnd_append_iff htail ts).mp hend
    rw [program_cons hend, program_cons hgo, statement_withTail htail ts]
    cases hs : outcome (statement ts) with
    | error f => rfl
    | ok x =>
      have hlt : x.2.length < ts.length := outcome_property hs
      dsimp only [withTail, bind, Except.bind]
      rw [program_withTail x.2]
      cases program x.2 <;> rfl
termination_by ts.length

end Statements

section Errors

variable {tail : List Token}

theorem current?_append (htail : AtEnd tail) (rest : List Token) :
    current? (rest ++ tail) = current? rest := by
  cases rest with
  | nil =>
    cases tail with
    | nil => rfl
    | cons last more => exact if_pos htail
  | cons token rest => rfl

/-- An end token on the line of the token before it leaves every line as it is. -/
theorem currentLine_concat {ts : List Token} {last : Token} (hne : ts ≠ [])
    (hline : ∀ token ∈ ts.getLast?, last.line = token.line) (rest : List Token) :
    currentLine (ts ++ [last]) (rest ++ [last]) = currentLine ts rest := by
  cases rest with
  | nil =>
    have hlast := List.getLast?_eq_some_getLast hne
    rw [currentLine, hlast]
    exact hline _ hlast
  | cons token rest => rfl

-- beside what was missed, an error shows the place through `current?` and `currentLine` only
theorem Failure.error_congr {ts us : List Token} {f g : Failure} (hcause : f.cause = g.cause)
    (hfound : current? f.rest = current? g.rest)
    (hline : currentLine ts f.rest = currentLine us g.rest) : f.error ts = g.error us := by
  rw [Failure.error, Failure.error, hcause, hfound, hline]

end Errors

end Parser

theorem parse_withTail {tail : List Token} (htail : Parser.AtEnd tail) (ts : List Token) :
    parse (ts ++ tail) =
      (Parser.program ts).mapError fun f => (f.before tail).error (ts ++ tail) := by
  rw [parse, Parser.program_withTail htail ts]
  cases Parser.program ts <;> rfl

/-- No token behind the first end token is looked at. An end token is not needed, either: without
it the same program is read, and the same error is found if the end token stands on the line of the
token before it. -/
theorem parse_stops_at_end {ts rest : List Token} {last : Token} (hlast : last.kind = .endOfInput) :
    parse (ts ++ [last] ++ rest) = parse (ts ++ [last]) ∧
    (∀ p, parse (ts ++ [last]) = .ok p ↔ parse ts = .ok p) ∧
    ((∀ token ∈ ts.getLast?, last.line = token.line) → parse (ts ++ [last]) = parse ts) := by
  have hend : Parser.AtEnd [last] := hlast
  refine ⟨?_, ?_, ?_⟩
  · rw [List.append_assoc, parse_withTail hend, @parse_withTail ([last] ++ rest) hlast]
    cases Parser.program ts with
    | ok p => rfl
    | error f =>
      apply congrArg Except.error
      refine Parser.Failure.error_congr ?_ ?_ ?_
      · rfl
      · exact (@Parser.current?_append ([last] ++ rest) hlast f.rest).trans
          (Parser.current?_append hend f.rest).symm
      · simp only [Parser.Failure.before]
        cases f.rest <;> rfl
  · intro p
    rw [parse_withTail hend, parse, mapError_eq_ok_iff, mapError_eq_ok_iff]
  · intro hline
    rw [parse_withTail hend, parse]
    cases hp : Parser.program ts with
    | ok p => rfl
    | error f =>
      apply congrArg Except.error
      have hne : ts ≠ [] := by
        rintro rfl
        rw [@Parser.program_of_end [] trivial] at hp
        cases hp
      exact Parser.Failure.error_congr rfl (Parser.current?_append hend f.rest)
        (Parser.currentLine_concat hne hline f.rest)

/-- `x = (y`, where the parenthesis is missed. -/
def openValue : List Token :=
  [⟨.identifier, 1, 0, 1, "x"⟩, ⟨.equal, 1, 2, 1, "="⟩, ⟨.parenLeft, 1, 4, 1, "("⟩,
    ⟨.identifier, 2, 6, 1, "y"⟩]

/-- What is missed stands behind the end token. -/
theorem parse_stops_at_end_openValue :
    parse (openValue ++ [⟨.endOfInput, 2, 7, 0, ""⟩] ++
        [⟨.parenRight, 2, 7, 1, ")"⟩, ⟨.semicolon, 2, 8, 1, ";"⟩]) =
      .error (.expectedToken .parenRight none 2) ∧
    parse (openValue ++ [⟨.endOfInput, 2, 7, 0, ""⟩]) = parse openValue ∧
    ∀ p, parse (openValue ++ [⟨.endOfInput, 5, 7, 0, ""⟩]) ≠ .ok p := by
  have hprogram : Parser.program openValue = .error (.at (.token .parenRight) []) := by cbv
  have hopen : parse openValue = .error (.expectedToken .parenRight none 2) := by
    rw [parse, hprogram]
    rfl
  obtain ⟨hbehind, _, hline⟩ := @parse_stops_at_end openValue
    [⟨.parenRight, 2, 7, 1, ")"⟩, ⟨.semicolon, 2, 8, 1, ";"⟩] ⟨.endOfInput, 2, 7, 0, ""⟩ rfl
  obtain ⟨_, hok, _⟩ := @parse_stops_at_end openValue [] ⟨.endOfInput, 5, 7, 0, ""⟩ rfl
  have hsame := hline (by decide)
  refine ⟨hbehind.trans (hsame.trans hopen), hsame, ?_⟩
  intro p hp
  rw [(hok p).mp hp] at hopen
  cases hopen

end MiniC
