import MiniC.Proofs.Decimal.Denotation
import MiniC.Proofs.Parser.FirstOffence
import MiniC.Proofs.Token.Rewriting

/-!
# Integer literals

The integers in a program are the values of the integer literals among its tokens, in the same
order. An integer literal is refused only if its value is no 64-bit integer, and then it is the first
such literal. In a source text no literal has a sign, and no floating-point literal is refused.
-/

namespace MiniC

set_option autoImplicit false

section Integers

def Expr.integers : Expr → List Int64
  | .int n => [n]
  | .binary _ left right => left.integers ++ right.integers
  | .unary _ e => e.integers
  | .group e => e.integers
  | _ => []

mutual

def Stmt.integers : Stmt → List Int64
  | .expr value => value.integers
  | .declare .. => []
  | .define _ _ _ value => value.integers
  | .assign _ _ value => value.integers
  | .branch condition body otherwise =>
    condition.integers ++ (Stmt.integersAll body ++ otherwise.integers)
  | .loop condition body => condition.integers ++ Stmt.integersAll body

def Stmt.integersAll : List Stmt → List Int64
  | [] => []
  | s :: block => s.integers ++ Stmt.integersAll block

def Else.integers : Else → List Int64
  | .none => []
  | .block body => Stmt.integersAll body
  | .branch condition body otherwise =>
    condition.integers ++ (Stmt.integersAll body ++ otherwise.integers)

end

end Integers

def integerTokens (ts : List Token) : List Token :=
  ts.filter fun t => t.kind = .integer

/-- The integer literals among `ts` denote the integers `ns`, one by one. -/
def Denote (ts : List Token) (ns : List Int64) : Prop :=
  List.Forall₂ (fun t n => Decimal.Denotes t.lexeme.toList (Int64.toInt n)) (integerTokens ts) ns

section Denote

variable {token : Token} {ts us : List Token} {n : Int64} {ns ms : List Int64}

theorem integerTokens_append (ts us : List Token) :
    integerTokens (ts ++ us) = integerTokens ts ++ integerTokens us :=
  List.filter_append ..

theorem denote_nil : Denote [] [] :=
  .nil

theorem denote_singleton (hk : token.kind = .integer)
    (h : Decimal.readInt64? token.lexeme.toList = some n) : Denote [token] [n] := by
  have hfilter : integerTokens [token] = [token] := by simp [integerTokens, hk]
  rw [Denote, hfilter]
  exact .cons (Decimal.readInt64?_eq_some_iff.mp h) .nil

theorem Denote.cons {kind : Kind} (h : Denote ts ns) (hk : token.kind = kind)
    (hkind : kind ≠ .integer) : Denote (token :: ts) ns := by
  have hfilter : integerTokens (token :: ts) = integerTokens ts := by
    simp [integerTokens, hk, hkind]
  rw [Denote, hfilter]
  exact h

theorem Denote.append (h : Denote ts ns) (h' : Denote us ms) : Denote (ts ++ us) (ns ++ ms) := by
  rw [Denote, integerTokens_append]
  exact List.rel_append h h'

theorem Denote.concat {kind : Kind} (h : Denote ts ns) (hk : token.kind = kind)
    (hkind : kind ≠ .integer) : Denote (ts ++ [token]) ns := by
  have happend := h.append (denote_nil.cons hk hkind)
  rwa [List.append_nil] at happend

theorem Expr.Spelled.denote {e : Expr} (h : e.Spelled ts) : Denote ts e.integers := by
  induction h with
  | int kind value => exact denote_singleton kind value
  | float kind => exact denote_nil.cons kind (by decide)
  | string kind => exact denote_nil.cons kind (by decide)
  | name kind => exact denote_nil.cons kind (by decide)
  | @step op _ _ kind step =>
    have hstep := denote_nil.cons step (by cases op <;> decide)
    exact hstep.cons kind (by decide)
  | @unary op _ _ _ kind _ ih => exact ih.cons kind (by cases op <;> decide)
  | @binary op _ _ _ _ _ _ kind _ ihl ihr =>
    exact ihl.append (ihr.cons kind (by cases op <;> decide))
  | group leftParen _ rightParen ih =>
    exact (ih.concat rightParen (by decide)).cons leftParen (by decide)

theorem SpelledConst.denote {isConst : Bool} (h : SpelledConst isConst ts) : Denote ts [] := by
  cases h with
  | absent => exact denote_nil
  | present kind => exact denote_nil.cons kind (by decide)

theorem Denote.typed (h : Denote ts ns)
    (htype : token.kind = .intWord ∨ token.kind = .floatWord) : Denote (token :: ts) ns := by
  rcases htype with hint | hfloat
  · exact h.cons hint (by decide)
  · exact h.cons hfloat (by decide)

mutual

theorem Stmt.Spelled.denote : ∀ {s : Stmt} {ts : List Token}, s.Spelled ts → Denote ts s.integers
  | _, _, .expr value semicolon => by
    rw [Stmt.integers]
    exact value.denote.concat semicolon (by decide)
  | _, _, .declare const typeKind nameKind semicolon => by
    rw [Stmt.integers]
    have hname := (denote_nil.cons semicolon (by decide)).cons nameKind (by decide)
    exact const.denote.append (hname.typed typeKind)
  | _, _, .define const typeKind nameKind equalKind value semicolon => by
    rw [Stmt.integers]
    have hvalue := (value.denote.concat semicolon (by decide)).cons equalKind (by decide)
    exact const.denote.append ((hvalue.cons nameKind (by decide)).typed typeKind)
  | _, _, @Stmt.Spelled.assign op _ _ _ _ _ nameKind kind value semicolon => by
    rw [Stmt.integers]
    have hvalue := value.denote.concat semicolon (by decide)
    exact (hvalue.cons kind (by cases op <;> decide)).cons nameKind (by decide)
  | _, _, .branch wordKind leftParen condition rightParen block rest => by
    rw [Stmt.integers]
    have hbody := (block.denote.append rest.denote).cons rightParen (by decide)
    exact ((condition.denote.append hbody).cons leftParen (by decide)).cons wordKind (by decide)
  | _, _, .loop wordKind leftParen condition rightParen block => by
    rw [Stmt.integers]
    have hbody := block.denote.cons rightParen (by decide)
    exact ((condition.denote.append hbody).cons leftParen (by decide)).cons wordKind (by decide)

theorem Stmt.SpelledBlock.denote : ∀ {body : List Stmt} {ts : List Token},
    Stmt.SpelledBlock body ts → Denote ts (Stmt.integersAll body)
  | _, _, .braces leftBrace inner rightBrace =>
    (inner.denote.concat rightBrace (by decide)).cons leftBrace (by decide)

theorem Stmt.SpelledAll.denote : ∀ {body : List Stmt} {ts : List Token},
    Stmt.SpelledAll body ts → Denote ts (Stmt.integersAll body)
  | _, _, .nil => by
    rw [Stmt.integersAll]
    exact denote_nil
  | _, _, .cons first others => by
    rw [Stmt.integersAll]
    exact first.denote.append others.denote

theorem Else.Spelled.denote : ∀ {otherwise : Else} {ts : List Token}, otherwise.Spelled ts →
    Denote ts otherwise.integers
  | _, _, .none => by
    rw [Else.integers]
    exact denote_nil
  | _, _, .block wordKind block => by
    rw [Else.integers]
    exact block.denote.cons wordKind (by decide)
  | _, _, .branch wordKind branch => by
    have hbranch := branch.denote
    rw [Stmt.integers] at hbranch
    rw [Else.integers]
    exact hbranch.cons wordKind (by decide)

end

end Denote

/-- The literal denotes an integer of 64 bits. -/
def Token.Representable (t : Token) : Prop :=
  ∃ i, Decimal.Denotes t.lexeme.toList i ∧ Word.Fits i

/-- What the digits of a literal without a sign amount to. -/
def Token.value (t : Token) : Nat :=
  Decimal.placeValue t.lexeme.toList

section Values

variable {token : Token} {ts : List Token} {ns : List Int64}

theorem Token.representable_iff_readInt64? :
    token.Representable ↔ ∃ n, Decimal.readInt64? token.lexeme.toList = some n := by
  constructor
  · rintro ⟨i, hi, hfits⟩
    obtain ⟨n, _, rfl⟩ := Word.ofInt?_of_fits hfits
    exact ⟨n, Decimal.readInt64?_eq_some_iff.mpr hi⟩
  · rintro ⟨n, hn⟩
    exact ⟨n.toInt, Decimal.readInt64?_eq_some_iff.mp hn, Word.fits_toInt n⟩

theorem Token.representable_iff_value_lt (h : Decimal.IsNumeral token.lexeme.toList) :
    token.Representable ↔ token.value < 2 ^ 63 := by
  have hfits : Word.Fits token.value ↔ token.value < 2 ^ 63 := by
    unfold Word.Fits
    omega
  rw [← hfits]
  constructor
  · rintro ⟨i, hi, hfit⟩
    rwa [h.denotes_iff.mp hi] at hfit
  · intro hfit
    exact ⟨token.value, h.denotes_iff.mpr rfl, hfit⟩

theorem Denote.representable (h : Denote ts ns) : ∀ t ∈ integerTokens ts, t.Representable := by
  unfold Denote at h
  generalize integerTokens ts = literals at h
  induction h with
  | nil => simp
  | cons hvalue _ ih => exact List.forall_mem_cons.mpr ⟨⟨_, hvalue, Word.fits_toInt _⟩, ih⟩

theorem Denote.map_toInt (h : Denote ts ns)
    (hnumeral : ∀ t ∈ integerTokens ts, Decimal.IsNumeral t.lexeme.toList) :
    ns.map Int64.toInt = (integerTokens ts).map fun t => (t.value : Int) := by
  unfold Denote at h
  generalize integerTokens ts = literals at h hnumeral
  induction h with
  | nil => rfl
  | cons hvalue _ ih =>
    obtain ⟨hhead, htail⟩ := List.forall_mem_cons.mp hnumeral
    rw [List.map_cons, List.map_cons, ih htail, hhead.denotes_iff.mp hvalue]
    rfl

end Values

section Parsed

variable {tokens : List Token}

theorem denote_of_parse {p : Program} (h : parse tokens = .ok p) :
    Denote (tokens.takeWhile fun t => t.kind ≠ .endOfInput) (Stmt.integersAll p) := by
  obtain ⟨used, rest, rfl, hrest, hused, _⟩ := Parser.program_sound (mapError_eq_ok_iff.mp h)
  rw [Parser.takeWhile_of_not_end hused.not_end hrest]
  exact hused.denote

/-- With a name in place of the refused literal the tokens up to it begin a program, so that the
integer literals before it have values. -/
theorem refused_of_parse {kind : NumberKind} {lexeme : String} {line : Nat}
    (h : parse tokens = .error (.invalidLiteral kind lexeme line)) :
    ∃ before token after, tokens = before ++ token :: after ∧ Parser.Refused kind token ∧
      token.lexeme = lexeme ∧ token.line = line ∧
      ∀ t ∈ integerTokens before, t.Representable := by
  obtain ⟨f, hf, herror⟩ := mapError_eq_error_iff.mp h
  obtain ⟨hrefused, before, htokens, hbefore⟩ := Parser.program_stops hf
  cases hcause : f.cause with
  | token | expression | type =>
    rw [Parser.Failure.error, hcause] at herror
    cases herror
  | number kind token =>
    rw [Parser.Failure.error, hcause] at herror
    cases herror
    rw [Parser.Failure.place, hcause] at htokens
    refine ⟨before, token, f.rest, htokens, hrefused _ _ hcause, rfl, rfl, ?_⟩
    rw [hcause] at hbefore
    obtain ⟨more, p, hspelled, _⟩ := hbefore (Parser.filler .identifier) rfl
    intro t ht
    refine hspelled.denote.representable t ?_
    rw [integerTokens_append]
    exact List.mem_append_left _ ht

end Parsed

theorem Parser.not_representable_of_refused {token : Token} (h : Refused .integer token) :
    ¬ token.Representable := by
  rw [Token.representable_iff_readInt64?, h.2]
  simp

section Scanned

theorem Token.Lexical.isNumeral {text lexeme : List Char} (h : Lexical .integer text lexeme) :
    Decimal.IsNumeral lexeme := by
  cases h with
  | symbol h => cases h
  | keyword h => cases h
  | integer hne h => exact ⟨hne, h⟩

theorem Token.Lexical.readFloat? {text lexeme : List Char} (h : Lexical .decimal text lexeme) :
    ∃ x, Decimal.readFloat? lexeme = some x := by
  cases h with
  | symbol h => cases h
  | keyword h => cases h
  | decimal hwhole hw _ hf => exact Decimal.readFloat?_of_point hwhole hw hf

variable {source : String} {tokens : List Token}

theorem exists_end_of_tokenize (h : tokenize source = .ok tokens) :
    ∃ front last, tokens = front ++ [last] ∧ last.kind = .endOfInput ∧
      ∀ t ∈ front, t.written.IsToken := by
  obtain ⟨ws, hws, hwritten⟩ := Token.isToken_of_tokenize h
  obtain ⟨front, back, rfl, rfl, hback⟩ := List.map_eq_append_iff.mp hwritten
  obtain ⟨last, rfl, hlast⟩ := List.map_eq_singleton_iff.mp hback
  refine ⟨front, last, rfl, congrArg Token.Written.kind hlast, ?_⟩
  intro t ht
  exact hws _ (List.mem_map_of_mem ht)

theorem lexical_of_tokenize {t : Token} (h : tokenize source = .ok tokens) (ht : t ∈ tokens)
    (hkind : t.kind ≠ .endOfInput) : ∃ text, Token.Lexical t.kind text t.lexeme.toList := by
  obtain ⟨front, last, rfl, hlast, hfront⟩ := exists_end_of_tokenize h
  rcases List.mem_append.mp ht with ht | ht
  · exact ⟨_, hfront t ht⟩
  · rw [List.mem_singleton.mp ht] at hkind
    exact absurd hlast hkind

theorem isNumeral_of_tokenize {t : Token} (h : tokenize source = .ok tokens) (ht : t ∈ tokens)
    (hkind : t.kind = .integer) : Decimal.IsNumeral t.lexeme.toList := by
  obtain ⟨text, htext⟩ := lexical_of_tokenize h ht (by simp [hkind])
  rw [hkind] at htext
  exact htext.isNumeral

theorem isNumeral_of_mem_integerTokens {t : Token} (h : tokenize source = .ok tokens)
    (ht : t ∈ integerTokens tokens) : Decimal.IsNumeral t.lexeme.toList := by
  obtain ⟨hmem, hkind⟩ := List.mem_filter.mp ht
  exact isNumeral_of_tokenize h hmem (of_decide_eq_true hkind)

theorem takeWhile_of_tokenize (h : tokenize source = .ok tokens) :
    integerTokens (tokens.takeWhile fun t => t.kind ≠ .endOfInput) = integerTokens tokens := by
  obtain ⟨front, last, rfl, hlast, hfront⟩ := exists_end_of_tokenize h
  have hnot : ∀ t ∈ front, t.kind ≠ .endOfInput := fun t ht => (hfront t ht).not_endOfInput
  rw [Parser.takeWhile_of_not_end hnot (show Parser.AtEnd [last] from hlast),
    integerTokens_append]
  simp [integerTokens, hlast]

theorem not_refused_float_of_tokenize {t : Token} (h : tokenize source = .ok tokens)
    (ht : t ∈ tokens) : ¬ Parser.Refused .float t := by
  rintro ⟨hkind, hread⟩
  obtain ⟨text, htext⟩ := lexical_of_tokenize h ht (by simp [hkind])
  rw [hkind] at htext
  obtain ⟨x, hx⟩ := htext.readFloat?
  rw [hread] at hx
  cases hx

/-- The integers in a program are the values of the literals in its source. -/
theorem values_of_source {p : Program} (h : tokenize source = .ok tokens)
    (hp : parse tokens = .ok p) :
    (Stmt.integersAll p).map Int64.toInt =
        (integerTokens tokens).map (fun t => (t.value : Int)) ∧
      ∀ t ∈ integerTokens tokens, t.value < 2 ^ 63 := by
  have hdenote := denote_of_parse hp
  have hall := takeWhile_of_tokenize h
  constructor
  · rw [← hall]
    apply hdenote.map_toInt
    rw [hall]
    exact fun t ht => isNumeral_of_mem_integerTokens h ht
  · intro t ht
    rw [← Token.representable_iff_value_lt (isNumeral_of_mem_integerTokens h ht)]
    apply hdenote.representable
    rwa [hall]

/-- The literal that is refused in a source is the first integer literal that is too great. -/
theorem refused_of_source {kind : NumberKind} {lexeme : String} {line : Nat}
    (h : tokenize source = .ok tokens)
    (herror : parse tokens = .error (.invalidLiteral kind lexeme line)) :
    kind = .integer ∧ ∃ before token after, tokens = before ++ token :: after ∧
      token.kind = .integer ∧ token.lexeme = lexeme ∧ token.line = line ∧
      2 ^ 63 ≤ token.value ∧ ∀ t ∈ integerTokens before, t.value < 2 ^ 63 := by
  obtain ⟨before, token, after, rfl, hrefused, rfl, rfl, hbefore⟩ := refused_of_parse herror
  have hmem : token ∈ before ++ token :: after := by simp
  cases kind with
  | float => exact absurd hrefused (not_refused_float_of_tokenize h hmem)
  | integer =>
    refine ⟨rfl, before, token, after, rfl, hrefused.1, rfl, rfl, ?_, ?_⟩
    · have hvalue := Parser.not_representable_of_refused hrefused
      rwa [Token.representable_iff_value_lt (isNumeral_of_tokenize h hmem hrefused.1),
        Nat.not_lt] at hvalue
    · intro t ht
      have htokens : t ∈ integerTokens (before ++ token :: after) := by
        rw [integerTokens_append]
        exact List.mem_append_left _ ht
      have hnumeral := isNumeral_of_mem_integerTokens h htokens
      exact (Token.representable_iff_value_lt hnumeral).mp (hbefore t ht)

end Scanned

theorem Parser.outcome_atom_integer {token : Token} (hkind : token.kind = .integer)
    (rest : List Token) (e : Expr × List Token) :
    outcome (atom (token :: rest)) = .ok e ↔
      ∃ n, Decimal.readInt64? token.lexeme.toList = some n ∧ e = (.int n, rest) := by
  rw [outcome_atom_cons, hkind]
  cases hread : Decimal.readInt64? token.lexeme.toList with
  | none => simp [integer, hread, bind, Except.bind]
  | some n => simp [integer, hread, bind, Except.bind, eq_comm]

/-- The integers in a program that was read from a source are the values of its integer literals, and
all are below `2 ^ 63`. Only an integer literal is refused, and it is the first that is not below. In
other tokens an integer literal may have a sign: it is read as the 64-bit integer that it denotes,
and it is refused if there is none. -/
theorem integers_exact_or_refused :
    (∀ (source : String) (tokens : List Token), tokenize source = .ok tokens →
      (∀ t ∈ integerTokens tokens, Decimal.IsNumeral t.lexeme.toList) ∧
      (∀ p, parse tokens = .ok p →
        (Stmt.integersAll p).map Int64.toInt =
          (integerTokens tokens).map (fun t => (t.value : Int)) ∧
        ∀ t ∈ integerTokens tokens, t.value < 2 ^ 63) ∧
      ∀ kind lexeme line, parse tokens = .error (.invalidLiteral kind lexeme line) →
        kind = .integer ∧ ∃ before token after, tokens = before ++ token :: after ∧
          token.kind = .integer ∧ token.lexeme = lexeme ∧ token.line = line ∧
          2 ^ 63 ≤ token.value ∧ ∀ t ∈ integerTokens before, t.value < 2 ^ 63) ∧
    (∀ tokens : List Token,
      (∀ p, parse tokens = .ok p →
        Denote (tokens.takeWhile fun t => t.kind ≠ .endOfInput) (Stmt.integersAll p)) ∧
      ∀ lexeme line, parse tokens = .error (.invalidLiteral .integer lexeme line) →
        ∃ before token after, tokens = before ++ token :: after ∧ token.kind = .integer ∧
          token.lexeme = lexeme ∧ token.line = line ∧ ¬ token.Representable ∧
          ∀ t ∈ integerTokens before, t.Representable) ∧
    ∀ (token : Token) (rest : List Token), token.kind = .integer →
      (∀ n, Parser.outcome (Parser.atom (token :: rest)) = .ok (.int n, rest) ↔
        Decimal.Denotes token.lexeme.toList n.toInt) ∧
      ((∃ e, Parser.outcome (Parser.atom (token :: rest)) = .ok e) ↔ token.Representable) := by
  refine ⟨?_, ?_, ?_⟩
  · intro source tokens h
    refine ⟨fun t ht => isNumeral_of_mem_integerTokens h ht, ?_, ?_⟩
    · intro p hp
      exact values_of_source h hp
    · intro kind lexeme line herror
      exact refused_of_source h herror
  · intro tokens
    refine ⟨fun p hp => denote_of_parse hp, ?_⟩
    intro lexeme line herror
    obtain ⟨before, token, after, htokens, hrefused, hlexeme, hline, hbefore⟩ :=
      refused_of_parse herror
    exact ⟨before, token, after, htokens, hrefused.1, hlexeme, hline,
      Parser.not_representable_of_refused hrefused, hbefore⟩
  · intro token rest hkind
    constructor
    · intro n
      rw [Parser.outcome_atom_integer hkind, ← Decimal.readInt64?_eq_some_iff]
      simp
    · simp [Parser.outcome_atom_integer hkind, Token.representable_iff_readInt64?]

/-- The tokens of `007;`. -/
def paddedSeven : List Token :=
  [⟨.integer, 0, 0, 3, "007"⟩, ⟨.semicolon, 0, 3, 1, ";"⟩, ⟨.endOfInput, 0, 4, 0, ""⟩]

/-- The tokens of `007 + 9223372036854775808`. -/
def pastLimit : List Token :=
  [⟨.integer, 0, 0, 3, "007"⟩, ⟨.plus, 0, 4, 1, "+"⟩, ⟨.integer, 0, 6, 19, "9223372036854775808"⟩,
    ⟨.endOfInput, 0, 25, 0, ""⟩]

theorem tokenize_pastLimit : tokenize "007 + 9223372036854775808" = .ok pastLimit := by
  have hdigits : ∀ c ∈ "9223372036854775808".toList, c.isDigit := List.all_eq_true.mp rfl
  have hzeros : ∀ c ∈ "007".toList, c.isDigit := List.all_eq_true.mp rfl
  have hblank : ∀ rest, Token.Begins .blank [' '] rest := fun rest => .blank (by decide)
  have hsplit : "007 + 9223372036854775808".toList =
      "007".toList ++ ([' '] ++ (['+'] ++ ([' '] ++ ("9223372036854775808".toList ++ [])))) := by
    decide
  have hlast := Token.Tiling.cons
    (Token.Lexical.begins (.integer (by decide) hdigits) (by simp)) .nil
  have hplus := Token.Tiling.cons (Token.Lexical.begins (@Token.Lexical.symbol .plus ['+'] rfl)
    (by simp [Token.isBlank])) (.cons (hblank _) hlast)
  have htiling := Token.Tiling.cons (Token.Lexical.begins (.integer (by decide) hzeros)
    (by simp [Token.isBlank])) (.cons (hblank _) hplus)
  rw [← hsplit] at htiling
  exact Token.tokensFrom_tiling htiling []

/-- `007` is read as seven, the integer behind the greatest of 64 bits is refused, and the least one
is read if it has its sign. -/
theorem integers_exact_or_refused_limits :
    (∃ p, parse paddedSeven = .ok p ∧ (Stmt.integersAll p).map Int64.toInt = [7]) ∧
    (∃ before token after, pastLimit = before ++ token :: after ∧
      token.lexeme = "9223372036854775808" ∧ 2 ^ 63 ≤ token.value ∧
      ∀ t ∈ integerTokens before, t.value < 2 ^ 63) ∧
    Parser.outcome (Parser.atom [⟨.integer, 0, 0, 20, "-9223372036854775808"⟩]) =
      .ok (.int Int64.minValue, []) := by
  obtain ⟨hsource, _, hatom⟩ := integers_exact_or_refused
  refine ⟨?_, ?_, ?_⟩
  · have htokens : tokenize "007;" = .ok paddedSeven := by cbv
    have hparse : parse paddedSeven = .ok [.expr (.int 7)] := by cbv
    exact ⟨_, hparse, ((hsource _ _ htokens).2.1 _ hparse).1⟩
  · have hparse : parse pastLimit =
        .error (.invalidLiteral .integer "9223372036854775808" 0) := by cbv
    obtain ⟨_, before, token, after, hsplit, _, hlexeme, _, hvalue, hbefore⟩ :=
      (hsource _ _ tokenize_pastLimit).2.2 _ _ _ hparse
    exact ⟨before, token, after, hsplit, hlexeme, hvalue, hbefore⟩
  · have hdigits : Decimal.IsNumeral "9223372036854775808".toList :=
      ⟨by decide, List.all_eq_true.mp rfl⟩
    have hvalue : Int64.minValue.toInt = -Decimal.placeValue "9223372036854775808".toList := by
      decide
    have hlexeme : "-9223372036854775808".toList = '-' :: "9223372036854775808".toList := by decide
    refine ((hatom _ [] rfl).1 _).mpr ?_
    rw [hlexeme, hvalue]
    exact .minus hdigits

end MiniC
