import MiniC.Proofs.Parser.Completion
import MiniC.Proofs.Parser.LongestExpression

/-!
# The parser goes forward and stops

The tokens that a parser function passes begin a spelling, whether it succeeds or fails, and no
spelling has an end token. So a call at a cursor, which always has an answer, stops there or behind
it, and in front of the first end token. Where it succeeds, it has passed a token; so the loop that
reads a program makes at most as many calls as there are tokens.
-/

namespace MiniC.Parser

set_option autoImplicit false

section Functions

variable {α : Type} {ts : List Token} {f : Failure}

def NoEnd (ts : List Token) : Prop :=
  ∀ token ∈ ts, token.kind ≠ .endOfInput

/-- The tokens `rest` are left of `ts` behind some tokens that are no end tokens. -/
def Passes (ts rest : List Token) : Prop :=
  ∃ used, ts = used ++ rest ∧ NoEnd used

/-- Whether it succeeds or fails, the parser function only goes forward, and not over an end
token. -/
structure GoesForward (p : (ts : List Token) → Reply α ts) : Prop where
  of_ok : ∀ {ts a rest}, outcome (p ts) = .ok (a, rest) → Passes ts rest
  of_error : ∀ {ts f}, outcome (p ts) = .error f → Passes ts f.rest

theorem Cause.exists_admitted (cause : Cause) : ∃ kind, cause.Admits kind := by
  cases cause <;> exact ⟨_, rfl⟩

theorem Refused.not_end {kind : NumberKind} {token : Token} (h : Refused kind token) :
    token.kind ≠ .endOfInput := by
  cases kind <;> simp [h.1]

/-- A failing function stops behind the tokens that can be completed, or behind the number that it
refuses. -/
theorem Completes.passes (h : Completes NoEnd ts f) : Passes ts f.rest := by
  obtain ⟨hrefused, used, hts, hused⟩ := h
  obtain ⟨kind, hkind⟩ := f.cause.exists_admitted
  obtain ⟨more, hmore⟩ := hused (filler kind) hkind
  have hnoend : NoEnd used := fun token htoken => hmore token (List.mem_append_left _ htoken)
  cases hcause : f.cause with
  | number kind token =>
    rw [Failure.place, hcause] at hts
    refine ⟨used ++ [token], by simpa using hts, ?_⟩
    intro other hother
    rcases List.mem_append.mp hother with hother | hother
    · exact hnoend other hother
    · rw [List.mem_singleton.mp hother]
      exact (hrefused kind token hcause).not_end
  | token | expression | type =>
    rw [Failure.place, hcause] at hts
    exact ⟨used, hts, hnoend⟩

/-- A function that reads spellings, and has begun one where it fails, goes forward. -/
theorem goesForward_of_spells {p : (ts : List Token) → Reply α ts} {P : List Token → Prop}
    (hP : ∀ us, P us → NoEnd us)
    (hok : ∀ ts a rest, outcome (p ts) = .ok (a, rest) → ∃ used, ts = used ++ rest ∧ P used)
    (herror : ∀ ts f, outcome (p ts) = .error f → Completes P ts f) : GoesForward p := by
  constructor
  · intro ts a rest h
    obtain ⟨used, hts, hused⟩ := hok ts a rest h
    exact ⟨used, hts, hP used hused⟩
  · intro ts f h
    exact ((herror ts f h).mono hP).passes

theorem expression_goesForward : GoesForward expression := by
  apply goesForward_of_spells _ _ fun ts f h => expression_completes h
  · rintro us ⟨e, _, hspelled, _⟩
    exact hspelled.not_end
  · intro ts e rest h
    obtain ⟨used, hts, hspelled, hcanonical⟩ := expression_sound h
    exact ⟨used, hts, e, trivial, hspelled, hcanonical⟩

theorem statement_goesForward : GoesForward statement := by
  apply goesForward_of_spells _ _ fun ts f h => statement_completes h
  · rintro us ⟨s, hspelled, _⟩
    exact hspelled.not_end
  · intro ts s rest h
    obtain ⟨used, hts, hspelled, hcanonical⟩ := statement_sound h
    exact ⟨used, hts, s, hspelled, hcanonical⟩

theorem conditional_goesForward : GoesForward conditional := by
  apply goesForward_of_spells _ _ fun ts f h => conditional_completes h
  · rintro us ⟨test, body, otherwise, hspelled, _⟩
    exact hspelled.not_end
  · intro ts b rest h
    obtain ⟨used, hts, hspelled, hcanonical⟩ := conditional_sound h
    exact ⟨used, hts, b.condition, b.body, b.otherwise, hspelled, hcanonical⟩

theorem block_goesForward : GoesForward block := by
  apply goesForward_of_spells _ _ fun ts f h => block_completes h
  · rintro us ⟨body, hspelled, _⟩
    exact hspelled.not_end
  · intro ts body rest h
    obtain ⟨used, hts, hspelled, hcanonical⟩ := block_sound h
    exact ⟨used, hts, body, hspelled, hcanonical⟩

end Functions

namespace Reader

variable {α : Type} {p : (ts : List Token) → Reply α ts} {r r' r'' : Reader}

theorem reading_of_ok {a : α} {left : List Token} (h : outcome (p r.rest) = .ok (a, left)) :
    r.reading p = (.ok a, r.leaving left) := by
  obtain ⟨⟨a', left'⟩, hok, heq⟩ := map_eq_ok_iff.mp h
  cases heq
  rw [reading, hok]

theorem reading_of_error {f : Failure} (h : outcome (p r.rest) = .error f) :
    r.reading p = (.error (f.error r.tokens), r.leaving f.rest) := by
  cases hp : p r.rest with
  | ok x =>
    rw [hp] at h
    cases h
  | error g =>
    rw [hp] at h
    cases h
    rw [reading, hp]

/-- The reader `r'` stands in the tokens of `r`, not before it, and no token from `r` to `r'` is an
end token. -/
structure Ahead (r r' : Reader) : Prop where
  tokens_eq : r'.tokens = r.tokens
  le : r.cursor ≤ r'.cursor
  inside : r'.cursor ≤ r.tokens.length
  not_end : NoEnd (r.tokens.extract r.cursor r'.cursor)

/-- A call of `p` leaves the reader ahead, and if it succeeds, it takes at least one token. -/
structure Progresses (p : (ts : List Token) → Reply α ts) (r : Reader) : Prop where
  ahead : r.Ahead (r.reading p).2
  takes : ∀ a, (r.reading p).1 = .ok a → r.cursor < (r.reading p).2.cursor

theorem extract_append {tokens : List Token} {start middle stop : Nat} (h : start ≤ middle)
    (h' : middle ≤ stop) :
    tokens.extract start stop = tokens.extract start middle ++ tokens.extract middle stop := by
  have hlength : stop - start = (middle - start) + (stop - middle) := by omega
  rw [List.extract_eq_take_drop, hlength, List.take_add, List.drop_drop, Nat.add_sub_cancel' h]

theorem Ahead.refl (h : r.cursor ≤ r.tokens.length) : r.Ahead r := by
  refine ⟨rfl, Nat.le_refl _, h, ?_⟩
  intro token htoken
  simp at htoken

theorem Ahead.trans (h : r.Ahead r') (h' : r'.Ahead r'') : r.Ahead r'' := by
  obtain ⟨htokens, hle, _, hnoend⟩ := h
  obtain ⟨htokens', hle', hinside', hnoend'⟩ := h'
  rw [htokens] at htokens' hinside' hnoend'
  refine ⟨htokens', Nat.le_trans hle hle', hinside', ?_⟩
  rw [extract_append hle hle']
  intro token htoken
  rcases List.mem_append.mp htoken with htoken | htoken
  · exact hnoend token htoken
  · exact hnoend' token htoken

theorem rest_leaving {left : List Token} (h : Passes r.rest left) :
    (r.leaving left).rest = left := by
  obtain ⟨used, hrest, _⟩ := h
  rw [leaving_of_rest hrest, rest, ← List.drop_drop]
  exact (congrArg (List.drop used.length) hrest).trans List.drop_left

theorem ahead_leaving {left : List Token} (hr : r.cursor ≤ r.tokens.length)
    (h : Passes r.rest left) : r.Ahead (r.leaving left) := by
  obtain ⟨used, hrest, hnoend⟩ := h
  have hlength := congrArg List.length hrest
  rw [rest, List.length_drop, List.length_append] at hlength
  rw [leaving_of_rest hrest]
  refine ⟨rfl, Nat.le_add_right _ _, ?_, ?_⟩
  · simp only
    omega
  · rw [extract_of_drop hrest]
    exact hnoend

theorem progresses (hp : GoesForward p) (hr : r.cursor ≤ r.tokens.length) : Progresses p r := by
  cases h : outcome (p r.rest) with
  | error f =>
    have hreading := reading_of_error h
    refine ⟨?_, ?_⟩
    · rw [hreading]
      exact ahead_leaving hr (hp.of_error h)
    · intro a ha
      rw [hreading] at ha
      cases ha
  | ok x =>
    have hreading := reading_of_ok h
    have hlt : x.2.length < r.rest.length := outcome_property h
    refine ⟨?_, ?_⟩
    · rw [hreading]
      exact ahead_leaving hr (hp.of_ok h)
    · intro a _
      rw [hreading]
      simp only [leaving]
      omega

/-- The loop that reads a program, from the reader `r` on: it makes `calls` calls, has the given
answer in the end and leaves the reader `last`. -/
inductive Loop : Reader → Nat → Except ParseError Program → Reader → Prop where
  | finished {r : Reader} (hend : AtEnd r.rest) : Loop r 0 (.ok []) r
  | failed {r last : Reader} {e : ParseError} (hend : ¬ AtEnd r.rest)
    (hread : r.reading statement = (.error e, last)) : Loop r 1 (.error e) last
  | next {r r' last : Reader} {s : Stmt} {calls : Nat} {answer : Except ParseError Program}
    (hend : ¬ AtEnd r.rest) (hread : r.reading statement = (.ok s, r'))
    (hloop : Loop r' calls answer last) : Loop r (calls + 1) (answer.map (s :: ·)) last

variable {calls : Nat} {answer : Except ParseError Program} {last : Reader}

theorem cursor_lt (h : ¬ AtEnd r.rest) : r.cursor < r.tokens.length := by
  apply Nat.lt_of_not_le
  intro hle
  apply h
  rw [rest, List.drop_eq_nil_of_le hle]
  trivial

/-- Every call of the loop begins at a token of its own. -/
theorem Loop.calls_le (h : Loop r calls answer last) (hr : r.cursor ≤ r.tokens.length) :
    r.Ahead last ∧ r.cursor + calls ≤ r.tokens.length := by
  induction h with
  | finished _ => exact ⟨.refl hr, hr⟩
  | failed hend hs =>
    have hahead := (progresses statement_goesForward hr).ahead
    rw [hs] at hahead
    exact ⟨hahead, cursor_lt hend⟩
  | @next r r' last s calls answer hend hs _ ih =>
    obtain ⟨hahead, htakes⟩ := progresses statement_goesForward hr
    rw [hs] at hahead htakes
    have hlt : r.cursor < r'.cursor := htakes s rfl
    obtain ⟨hlast, hle⟩ := ih (by rw [hahead.tokens_eq]; exact hahead.inside)
    rw [hahead.tokens_eq] at hle
    exact ⟨hahead.trans hlast, by omega⟩

theorem Loop.length_eq (h : Loop r calls answer last) {p : Program} (hp : answer = .ok p) :
    p.length = calls ∧ AtEnd last.rest := by
  induction h generalizing p with
  | finished hend =>
    cases hp
    exact ⟨rfl, hend⟩
  | failed _ _ => cases hp
  | next _ _ _ ih =>
    obtain ⟨ss, hss, rfl⟩ := map_eq_ok_iff.mp hp
    obtain ⟨hlength, hend⟩ := ih hss
    exact ⟨congrArg Nat.succ hlength, hend⟩

/-- The loop ends with the answer of `program`, as every statement leaves fewer tokens. -/
theorem exists_loop (r : Reader) :
    ∃ calls last, Loop r calls ((program r.rest).mapError (Failure.error r.tokens)) last := by
  by_cases hend : AtEnd r.rest
  · rw [program_of_end hend]
    exact ⟨0, r, .finished hend⟩
  · rw [program_cons hend]
    cases hs : outcome (statement r.rest) with
    | error f => exact ⟨1, _, .failed hend (reading_of_error hs)⟩
    | ok x =>
      obtain ⟨s, left⟩ := x
      have hlt : left.length < r.rest.length := outcome_property hs
      have hleft := rest_leaving (statement_goesForward.of_ok hs)
      obtain ⟨calls, last, hloop⟩ := exists_loop (r.leaving left)
      rw [hleft] at hloop
      refine ⟨calls + 1, last, ?_⟩
      have hanswer : (do
          let ss ← (program left).mapError (Failure.after [s])
          .ok (s :: ss) : Except Failure Program).mapError (Failure.error r.tokens) =
            ((program left).mapError (Failure.error r.tokens)).map (s :: ·) := by
        cases program left <;> rfl
      exact hanswer ▸ Loop.next hend (reading_of_ok hs) hloop
termination_by r.rest.length
decreasing_by
  rw [hleft]
  exact hlt

/-- From every place in a token list, each of the four functions stops at that place or behind it,
within the list and not behind an end token, and has taken a token if it succeeds. The loop that
reads a program ends for every token list, with the answer of `parse` and after at most as many
statements as there are tokens. -/
theorem parser_progresses (tokens : List Token) :
    (∀ cursor ≤ tokens.length,
      Progresses statement ⟨tokens, cursor⟩ ∧ Progresses block ⟨tokens, cursor⟩ ∧
      Progresses conditional ⟨tokens, cursor⟩ ∧ Progresses Parser.expression ⟨tokens, cursor⟩) ∧
    ∃ calls last, Loop ⟨tokens, 0⟩ calls (parse tokens) last ∧ Ahead ⟨tokens, 0⟩ last ∧
      calls ≤ tokens.length ∧
      ∀ p, parse tokens = .ok p → p.length = calls ∧ AtEnd last.rest := by
  refine ⟨?_, ?_⟩
  · intro cursor hcursor
    exact ⟨progresses statement_goesForward hcursor, progresses block_goesForward hcursor,
      progresses conditional_goesForward hcursor, progresses expression_goesForward hcursor⟩
  · obtain ⟨calls, last, hloop⟩ := exists_loop ⟨tokens, 0⟩
    obtain ⟨hahead, hcalls⟩ := hloop.calls_le (Nat.zero_le _)
    rw [Nat.zero_add] at hcalls
    exact ⟨calls, last, hloop, hahead, hcalls, fun p hp => hloop.length_eq hp⟩

/-- `a; b`, without an end token. -/
def unfinished : List Token :=
  [⟨.identifier, 1, 0, 1, "a"⟩, ⟨.semicolon, 1, 1, 1, ";"⟩, ⟨.identifier, 1, 3, 1, "b"⟩]

/-- The second statement is read to the end of the list, where a semicolon is missed. -/
theorem parser_progresses_unfinished :
    parse unfinished = .error (.expectedToken .semicolon none 1) ∧
    (Reader.mk unfinished 2).reading statement =
      (.error (.expectedToken .semicolon none 1), ⟨unfinished, 3⟩) ∧
    Progresses statement ⟨unfinished, 2⟩ ∧
    ∃ calls last, Loop ⟨unfinished, 0⟩ calls (parse unfinished) last ∧ calls ≤ 3 := by
  obtain ⟨hprogresses, calls, last, hloop, _, hcalls, _⟩ := parser_progresses unfinished
  have hfirst : outcome (statement unfinished) = .ok (.expr (.name "a"), unfinished.drop 2) :=
    statement_complete (.expr (@Expr.Spelled.name ⟨.identifier, 1, 0, 1, "a"⟩ rfl) rfl) trivial
      (noElse_cons (by simp) _)
  have hname : outcome (Parser.expression (unfinished.drop 2)) = .ok (.name "b", []) :=
    expression_complete (@Expr.Spelled.name ⟨.identifier, 1, 3, 1, "b"⟩ rfl) trivial
      ⟨by simp [NoStep], by simp⟩
  have hsecond : outcome (statement (unfinished.drop 2)) = .error (.at (.token .semicolon) []) := by
    calc
      outcome (statement (unfinished.drop 2)) =
          outcome (expressionStatement (unfinished.drop 2)) :=
        (outcome_statement_cons _ _).trans (outcome_nameStatement_of_none _ (by simp))
      _ = .error (.at (.token .semicolon) []) := by
        rw [outcome_expressionStatement, outcome_terminated, hname]
        rfl
  have hparse : parse unfinished = .error (.expectedToken .semicolon none 1) := by
    rw [parse, program_cons (by simp [unfinished, AtEnd]), hfirst]
    simp only [bind, Except.bind]
    rw [program_cons (by simp [unfinished, AtEnd]), hsecond]
    rfl
  have hreading : (Reader.mk unfinished 2).reading statement =
      (.error (.expectedToken .semicolon none 1), ⟨unfinished, 3⟩) := by
    rw [reading_of_error (show outcome (statement (Reader.mk unfinished 2).rest) = _ from hsecond)]
    rfl
  exact ⟨hparse, hreading, (hprogresses 2 (by decide)).1, calls, last, hloop, hcalls⟩

end Reader

end MiniC.Parser
