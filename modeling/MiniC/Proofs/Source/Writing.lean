import MiniC.Proofs.Parser.Spelling
import MiniC.Proofs.Token.Separation

/-!
# Programs as source text

A program is written token by token, with parentheses around every operation and every group and
spaces between the tokens. How a floating-point number is written is left open. A program is
writable when its leaves have a text: names are words, strings hold no quote, integers are not
negative, and the digits of a number are read back as that number.
-/

namespace MiniC

set_option autoImplicit false

open Token (Written)

/-- The text of a kind all of whose tokens are written alike. -/
def Kind.fixed? (kind : Kind) : Option (List Char) :=
  kind.symbol?.or kind.word?

def Kind.mark (kind : Kind) : Written :=
  ⟨kind, kind.fixed?.getD []⟩

def Token.word (s : String) : Written :=
  ⟨(Kind.keyword? s.toList).getD .identifier, s.toList⟩

def Token.within (opening closing : Kind) (ws : List Written) : List Written :=
  opening.mark :: (ws ++ [closing.mark])

def Token.conditional (test body otherwise : List Written) : List Written :=
  Kind.ifWord.mark :: (within .parenLeft .parenRight test ++
    (within .braceLeft .braceRight body ++ otherwise))

def IsName (s : String) : Prop :=
  s.toList ≠ [] ∧ (∀ c ∈ s.toList, c.isAlpha ∨ c = '_') ∧ Kind.keyword? s.toList = none

def IsTypeName (s : String) : Prop :=
  s = "int" ∨ s = "float"

def IsDecimal (text : List Char) : Prop :=
  ∃ whole fraction, text = whole ++ '.' :: fraction ∧ whole ≠ [] ∧ (∀ c ∈ whole, c.isDigit) ∧
    fraction ≠ [] ∧ ∀ c ∈ fraction, c.isDigit

section

variable (digits : Float → List Char)

/-- The tokens of an expression; `digits` writes floating-point numbers. -/
def Expr.written : Expr → List Written
  | .int n => [⟨.integer, Nat.toDigits 10 n.toInt.toNat⟩]
  | .float x => [⟨.decimal, digits x⟩]
  | .string s => [⟨.string, s.toList⟩]
  | .name x => [Token.word x]
  | .step op x => [Token.word x, op.kind.mark]
  | .unary op e => Token.within .parenLeft .parenRight (op.kind.mark :: e.written)
  | .binary op l r =>
    Token.within .parenLeft .parenRight (l.written ++ op.kind.mark :: r.written)
  | .group e => Token.within .parenLeft .parenRight e.written

def constWritten (isConst : Bool) : List Written :=
  if isConst then [Kind.constWord.mark] else []

mutual

def Stmt.written : Stmt → List Written
  | .expr value => value.written digits ++ [Kind.semicolon.mark]
  | .declare isConst type name =>
    constWritten isConst ++ [Token.word type, Token.word name, Kind.semicolon.mark]
  | .define isConst type name value =>
    constWritten isConst ++ Token.word type :: Token.word name :: Kind.equal.mark ::
      (value.written digits ++ [Kind.semicolon.mark])
  | .assign op name value =>
    Token.word name :: op.kind.mark :: (value.written digits ++ [Kind.semicolon.mark])
  | .branch test body otherwise =>
    Token.conditional (test.written digits) (Stmt.writtenAll body) otherwise.written
  | .loop test body =>
    Kind.whileWord.mark :: (Token.within .parenLeft .parenRight (test.written digits) ++
      Token.within .braceLeft .braceRight (Stmt.writtenAll body))

def Stmt.writtenAll : List Stmt → List Written
  | [] => []
  | s :: ss => s.written ++ Stmt.writtenAll ss

def Else.written : Else → List Written
  | .none => []
  | .block body =>
    Kind.elseWord.mark :: Token.within .braceLeft .braceRight (Stmt.writtenAll body)
  | .branch test body otherwise =>
    Kind.elseWord.mark ::
      Token.conditional (test.written digits) (Stmt.writtenAll body) otherwise.written

end

def source (p : Program) : String :=
  String.ofList (Token.spaced (Stmt.writtenAll digits p))

/-- The leaves of an expression have a text. -/
def Expr.Writable : Expr → Prop
  | .int n => 0 ≤ n.toInt
  | .float x => IsDecimal (digits x) ∧ Decimal.readFloat? (digits x) = some x
  | .string s => '"' ∉ s.toList
  | .name x => IsName x
  | .step _ x => IsName x
  | .unary _ e => e.Writable
  | .binary _ l r => l.Writable ∧ r.Writable
  | .group e => e.Writable

mutual

def Stmt.Writable : Stmt → Prop
  | .expr value => value.Writable digits
  | .declare _ type name => IsTypeName type ∧ IsName name
  | .define _ type name value => IsTypeName type ∧ IsName name ∧ value.Writable digits
  | .assign _ name value => IsName name ∧ value.Writable digits
  | .branch test body otherwise =>
    test.Writable digits ∧ Stmt.WritableAll body ∧ otherwise.Writable
  | .loop test body => test.Writable digits ∧ Stmt.WritableAll body

def Stmt.WritableAll : List Stmt → Prop
  | [] => True
  | s :: ss => s.Writable ∧ Stmt.WritableAll ss

def Else.Writable : Else → Prop
  | .none => True
  | .block body => Stmt.WritableAll body
  | .branch test body otherwise =>
    test.Writable digits ∧ Stmt.WritableAll body ∧ otherwise.Writable

end

end

theorem Kind.isToken_mark {kind : Kind} (h : kind.fixed?.isSome) :
    kind.mark.IsToken := by
  have hkind : kind ≠ .string := by
    rintro rfl
    cases h
  rw [Written.IsToken, Written.text, if_neg (show kind.mark.kind ≠ .string from hkind)]
  obtain ⟨text, htext⟩ := Option.isSome_iff_exists.mp h
  have hlexeme : kind.mark.lexeme = text := by rw [Kind.mark, htext, Option.getD_some]
  rw [hlexeme]
  rcases Option.or_eq_some_iff.mp htext with hsymbol | ⟨_, hword⟩
  · exact .symbol hsymbol
  · exact .keyword hword

namespace Token

theorem word_of_isName {s : String} (h : IsName s) : word s = ⟨.identifier, s.toList⟩ := by
  rw [word, h.2.2]
  rfl

theorem isToken_name {s : String} (h : IsName s) : (word s).IsToken := by
  rw [word_of_isName h]
  refine .identifier h.1 h.2.1 ?_
  intro kind hkind
  have hkey : Kind.keyword? s.toList = some kind := Kind.keyword?_eq_some_iff.mpr hkind
  rw [h.2.2] at hkey
  cases hkey

theorem isToken_typeName {s : String} (h : IsTypeName s) : (word s).IsToken := by
  rcases h with rfl | rfl
  · exact @Lexical.keyword .intWord _ rfl
  · exact @Lexical.keyword .floatWord _ rfl

theorem isToken_toDigits (n : Nat) : Written.IsToken ⟨.integer, Nat.toDigits 10 n⟩ := by
  refine .integer Nat.toDigits_ne_nil ?_
  intro c hc
  exact Nat.isDigit_of_mem_toDigits (by decide) (by decide) hc

theorem isToken_decimal {text : List Char} (h : IsDecimal text) :
    Written.IsToken ⟨.decimal, text⟩ := by
  obtain ⟨whole, fraction, rfl, hwhole, hw, hfraction, hf⟩ := h
  exact .decimal hwhole hw hfraction hf

theorem isToken_within {opening closing : Kind} {ws : List Written}
    (hopening : opening.fixed?.isSome)
    (hclosing : closing.fixed?.isSome) (h : ∀ w ∈ ws, w.IsToken) :
    ∀ w ∈ within opening closing ws, w.IsToken := by
  simp only [within, List.forall_mem_cons, List.forall_mem_append]
  exact ⟨Kind.isToken_mark hopening, h, Kind.isToken_mark hclosing, by simp⟩

theorem isToken_conditional {test body otherwise : List Written} (htest : ∀ w ∈ test, w.IsToken)
    (hbody : ∀ w ∈ body, w.IsToken) (hotherwise : ∀ w ∈ otherwise, w.IsToken) :
    ∀ w ∈ conditional test body otherwise, w.IsToken := by
  simp only [conditional, List.forall_mem_append, List.forall_mem_cons]
  exact ⟨Kind.isToken_mark rfl, isToken_within rfl rfl htest, isToken_within rfl rfl hbody,
    hotherwise⟩

theorem isToken_const (isConst : Bool) : ∀ w ∈ constWritten isConst, w.IsToken := by
  cases isConst with
  | false => simp [constWritten]
  | true =>
    rw [constWritten, if_pos rfl, List.forall_mem_singleton]
    exact Kind.isToken_mark rfl

end Token

section

variable {digits : Float → List Char}

theorem Expr.isToken_written {e : Expr} (h : e.Writable digits) :
    ∀ w ∈ e.written digits, w.IsToken := by
  induction e with
  | int n => exact List.forall_mem_singleton.mpr (Token.isToken_toDigits _)
  | float x => exact List.forall_mem_singleton.mpr (Token.isToken_decimal h.1)
  | string s => exact List.forall_mem_singleton.mpr (.string h)
  | name x => exact List.forall_mem_singleton.mpr (Token.isToken_name h)
  | step op x =>
    have hmark : op.kind.mark.IsToken := Kind.isToken_mark (by cases op <;> rfl)
    simp only [written, List.forall_mem_cons]
    exact ⟨Token.isToken_name h, hmark, by simp⟩
  | unary op e ih =>
    have hmark : op.kind.mark.IsToken := Kind.isToken_mark (by cases op <;> rfl)
    exact Token.isToken_within rfl rfl (List.forall_mem_cons.mpr ⟨hmark, ih h⟩)
  | binary op l r ihl ihr =>
    have hmark : op.kind.mark.IsToken := Kind.isToken_mark (by cases op <;> rfl)
    refine Token.isToken_within rfl rfl (List.forall_mem_append.mpr ⟨ihl h.1, ?_⟩)
    exact List.forall_mem_cons.mpr ⟨hmark, ihr h.2⟩
  | group e ih => exact Token.isToken_within rfl rfl (ih h)

theorem Expr.isToken_terminated {e : Expr} (h : e.Writable digits) :
    ∀ w ∈ e.written digits ++ [Kind.semicolon.mark], w.IsToken := by
  rw [List.forall_mem_append, List.forall_mem_singleton]
  exact ⟨Expr.isToken_written h, Kind.isToken_mark rfl⟩

mutual

theorem Stmt.isToken_written : ∀ {s : Stmt}, s.Writable digits →
    ∀ w ∈ s.written digits, w.IsToken
  | .expr value, h => Expr.isToken_terminated h
  | .declare isConst type name, h => by
    simp only [Stmt.written, List.forall_mem_append, List.forall_mem_cons]
    exact ⟨Token.isToken_const isConst, Token.isToken_typeName h.1, Token.isToken_name h.2,
      Kind.isToken_mark rfl, by simp⟩
  | .define isConst type name value, h => by
    refine List.forall_mem_append.mpr ⟨Token.isToken_const isConst, ?_⟩
    simp only [List.forall_mem_cons]
    exact ⟨Token.isToken_typeName h.1, Token.isToken_name h.2.1, Kind.isToken_mark rfl,
      Expr.isToken_terminated h.2.2⟩
  | .assign op name value, h => by
    have hmark : op.kind.mark.IsToken := Kind.isToken_mark (by cases op <;> rfl)
    simp only [Stmt.written, List.forall_mem_cons]
    exact ⟨Token.isToken_name h.1, hmark, Expr.isToken_terminated h.2⟩
  | .branch test body otherwise, h =>
    Token.isToken_conditional (Expr.isToken_written h.1) (Stmt.isToken_writtenAll h.2.1)
      (Else.isToken_written h.2.2)
  | .loop test body, h => by
    simp only [Stmt.written, List.forall_mem_append, List.forall_mem_cons]
    exact ⟨Kind.isToken_mark rfl, Token.isToken_within rfl rfl (Expr.isToken_written h.1),
      Token.isToken_within rfl rfl (Stmt.isToken_writtenAll h.2)⟩

theorem Stmt.isToken_writtenAll : ∀ {ss : List Stmt}, Stmt.WritableAll digits ss →
    ∀ w ∈ Stmt.writtenAll digits ss, w.IsToken
  | [], _ => by simp [Stmt.writtenAll]
  | s :: ss, h =>
    List.forall_mem_append.mpr ⟨Stmt.isToken_written h.1, Stmt.isToken_writtenAll h.2⟩

theorem Else.isToken_written : ∀ {otherwise : Else}, otherwise.Writable digits →
    ∀ w ∈ otherwise.written digits, w.IsToken
  | .none, _ => by simp [Else.written]
  | .block body, h =>
    List.forall_mem_cons.mpr
      ⟨Kind.isToken_mark rfl, Token.isToken_within rfl rfl (Stmt.isToken_writtenAll h)⟩
  | .branch test body otherwise, h => by
    have hbranch := Token.isToken_conditional (Expr.isToken_written h.1)
      (Stmt.isToken_writtenAll h.2.1) (Else.isToken_written h.2.2)
    exact List.forall_mem_cons.mpr ⟨Kind.isToken_mark rfl, hbranch⟩

end

/-- The source text of a writable program is tokenized into the tokens it was written with. -/
theorem tokenize_source {p : Program} (h : Stmt.WritableAll digits p) :
    ∃ tokens, tokenize (source digits p) = .ok tokens ∧
      tokens.map Token.written = Stmt.writtenAll digits p ++ [⟨.endOfInput, []⟩] :=
  Token.tokenize_spaced (Stmt.isToken_writtenAll h)

end

end MiniC
