import MiniC.Proofs.Decimal.Integers
import MiniC.Proofs.Parser.Grammar
import MiniC.Proofs.Source.Grouping
import MiniC.Proofs.Source.Writing

/-!
# Written programs are read back

Tokens written for a program spell the program with a group around every operation. So the source
text of any writable program is tokenized and parsed, and what comes back is that program up to
groups, with the same register code.
-/

namespace MiniC

set_option autoImplicit false

open Token (Written)

namespace Decimal

theorem readInt64?_toDigits {n : Int64} (h : 0 ≤ n.toInt) :
    readInt64? (Nat.toDigits 10 n.toInt.toNat) = some n := by
  rw [readInt64?, readInt?_toDigits, Int.toNat_of_nonneg h, Option.bind_some, Word.ofInt?,
    if_pos ⟨n.minValue_le_toInt, n.toInt_le⟩, Int64.ofInt_toInt]

end Decimal

namespace Token

variable {t : Token} {ts : List Token} {s : String}

theorem kind_of_written {kind : Kind} (h : t.written = kind.mark) : t.kind = kind :=
  congrArg Written.kind h

theorem lexeme_of_written {w : Written} (h : t.written = w) (hw : w.lexeme = s.toList) :
    t.lexeme = s :=
  String.toList_inj.mp ((congrArg Written.lexeme h).trans hw)

theorem name_of_written (hs : IsName s) (h : t.written = word s) :
    t.kind = .identifier ∧ t.lexeme = s := by
  refine ⟨?_, lexeme_of_written h rfl⟩
  rw [word_of_isName hs] at h
  exact congrArg Written.kind h

theorem typeName_of_written (hs : IsTypeName s) (h : t.written = word s) :
    (t.kind = .intWord ∨ t.kind = .floatWord) ∧ t.lexeme = s := by
  refine ⟨?_, lexeme_of_written h rfl⟩
  rcases hs with rfl | rfl
  · exact .inl (congrArg Written.kind h)
  · exact .inr (congrArg Written.kind h)

theorem within_of_written {left right : Kind} {ws : List Written}
    (h : ts.map written = within left right ws) :
    ∃ opening us closing, ts = opening :: (us ++ [closing]) ∧ opening.kind = left ∧
      us.map written = ws ∧ closing.kind = right := by
  obtain ⟨opening, tail, rfl, hopening, htail⟩ := List.map_eq_cons_iff.mp h
  obtain ⟨us, last, rfl, hus, hlast⟩ := List.map_eq_append_iff.mp htail
  obtain ⟨closing, rfl, hclosing⟩ := List.map_eq_singleton_iff.mp hlast
  exact ⟨opening, us, closing, rfl, kind_of_written hopening, hus, kind_of_written hclosing⟩

theorem const_of_written {isConst : Bool} (h : ts.map written = constWritten isConst) :
    SpelledConst isConst ts := by
  cases isConst with
  | false =>
    obtain rfl := List.map_eq_nil_iff.mp h
    exact .absent
  | true =>
    obtain ⟨mark, rfl, hmark⟩ := List.map_eq_singleton_iff.mp h
    exact .present (kind_of_written hmark)

end Token

section

variable {digits : Float → List Char}

open Token

theorem Expr.spelled_of_written {e : Expr} (h : e.Writable digits) {ts : List Token}
    (hts : ts.map Token.written = e.written digits) : e.enclosed.Spelled ts := by
  induction e generalizing ts with
  | int n =>
    obtain ⟨t, rfl, ht⟩ := List.map_eq_singleton_iff.mp hts
    have hlexeme : t.lexeme.toList = Nat.toDigits 10 n.toInt.toNat := congrArg Written.lexeme ht
    refine .int (congrArg Written.kind ht) ?_
    rw [hlexeme, Decimal.readInt64?_toDigits h]
  | float x =>
    obtain ⟨t, rfl, ht⟩ := List.map_eq_singleton_iff.mp hts
    have hlexeme : t.lexeme.toList = digits x := congrArg Written.lexeme ht
    refine .float (congrArg Written.kind ht) ?_
    rw [hlexeme, h.2]
  | string s =>
    obtain ⟨t, rfl, ht⟩ := List.map_eq_singleton_iff.mp hts
    obtain rfl := lexeme_of_written ht rfl
    exact .string (congrArg Written.kind ht)
  | name x =>
    obtain ⟨t, rfl, ht⟩ := List.map_eq_singleton_iff.mp hts
    obtain ⟨hkind, rfl⟩ := name_of_written h ht
    exact .name hkind
  | step op x =>
    obtain ⟨t, tail, rfl, ht, htail⟩ := List.map_eq_cons_iff.mp hts
    obtain ⟨mark, rfl, hmark⟩ := List.map_eq_singleton_iff.mp htail
    obtain ⟨hkind, rfl⟩ := name_of_written h ht
    exact .step hkind (kind_of_written hmark)
  | unary op e ih =>
    obtain ⟨opening, us, closing, rfl, hopening, hus, hclosing⟩ := within_of_written hts
    obtain ⟨mark, us, rfl, hmark, hus⟩ := List.map_eq_cons_iff.mp hus
    exact .group hopening (.unary (kind_of_written hmark) (ih h hus)) hclosing
  | binary op l r ihl ihr =>
    obtain ⟨opening, us, closing, rfl, hopening, hus, hclosing⟩ := within_of_written hts
    obtain ⟨ls, us, rfl, hls, hus⟩ := List.map_eq_append_iff.mp hus
    obtain ⟨mark, rs, rfl, hmark, hrs⟩ := List.map_eq_cons_iff.mp hus
    exact .group hopening (.binary (ihl h.1 hls) (kind_of_written hmark) (ihr h.2 hrs)) hclosing
  | group e ih =>
    obtain ⟨opening, us, closing, rfl, hopening, hus, hclosing⟩ := within_of_written hts
    exact .group hopening (ih h hus) hclosing

theorem Expr.terminated_of_written {e : Expr} (h : e.Writable digits) {ts : List Token}
    (hts : ts.map Token.written = e.written digits ++ [Kind.semicolon.mark]) :
    ∃ us stop, ts = us ++ [stop] ∧ e.enclosed.Spelled us ∧ stop.kind = .semicolon := by
  obtain ⟨us, last, rfl, hus, hlast⟩ := List.map_eq_append_iff.mp hts
  obtain ⟨stop, rfl, hstop⟩ := List.map_eq_singleton_iff.mp hlast
  exact ⟨us, stop, rfl, Expr.spelled_of_written h hus, kind_of_written hstop⟩

theorem Stmt.block_of_written {body : List Stmt} {ws : List Written}
    (h : ∀ {us : List Token}, us.map Token.written = ws → Stmt.SpelledAll body us)
    {ts : List Token} (hts : ts.map Token.written = within .braceLeft .braceRight ws) :
    Stmt.SpelledBlock body ts := by
  obtain ⟨opening, us, closing, rfl, hopening, hus, hclosing⟩ := within_of_written hts
  exact .braces hopening (h hus) hclosing

/-- A branch is written alike at the beginning of a statement and behind `else`. -/
theorem Stmt.branch_of_written {test : Expr} {body : List Stmt} {otherwise : Else}
    {bodyWords otherwiseWords : List Written} (htest : test.Writable digits)
    (hbody : ∀ {us : List Token}, us.map Token.written = bodyWords → Stmt.SpelledAll body us)
    (hotherwise : ∀ {us : List Token}, us.map Token.written = otherwiseWords →
      otherwise.Spelled us) {ts : List Token}
    (hts : ts.map Token.written = conditional (test.written digits) bodyWords otherwiseWords) :
    (Stmt.branch test.enclosed body otherwise).Spelled ts := by
  obtain ⟨word, tail, rfl, hword, htail⟩ := List.map_eq_cons_iff.mp hts
  obtain ⟨cs, tail, rfl, hcs, htail⟩ := List.map_eq_append_iff.mp htail
  obtain ⟨bs, os, rfl, hbs, hos⟩ := List.map_eq_append_iff.mp htail
  obtain ⟨opening, cs, closing, rfl, hopening, hcs, hclosing⟩ := within_of_written hcs
  rw [List.cons_append, List.append_assoc, List.singleton_append]
  exact .branch (kind_of_written hword) hopening (Expr.spelled_of_written htest hcs) hclosing
    (Stmt.block_of_written hbody hbs) (hotherwise hos)

mutual

theorem Stmt.spelled_of_written : ∀ {s : Stmt}, s.Writable digits → ∀ {ts : List Token},
    ts.map Token.written = s.written digits → (s.mapExpr Expr.enclosed).Spelled ts
  | .expr value, h, ts, hts => by
    obtain ⟨us, stop, rfl, hvalue, hstop⟩ := Expr.terminated_of_written h hts
    exact .expr hvalue hstop
  | .declare isConst type name, h, ts, hts => by
    obtain ⟨mark, tail, rfl, hmark, htail⟩ := List.map_eq_append_iff.mp hts
    obtain ⟨t, tail, rfl, ht, htail⟩ := List.map_eq_cons_iff.mp htail
    obtain ⟨x, tail, rfl, hx, htail⟩ := List.map_eq_cons_iff.mp htail
    obtain ⟨stop, rfl, hstop⟩ := List.map_eq_singleton_iff.mp htail
    obtain ⟨htype, rfl⟩ := typeName_of_written h.1 ht
    obtain ⟨hname, rfl⟩ := name_of_written h.2 hx
    exact .declare (const_of_written hmark) htype hname (kind_of_written hstop)
  | .define isConst type name value, h, ts, hts => by
    obtain ⟨mark, tail, rfl, hmark, htail⟩ := List.map_eq_append_iff.mp hts
    obtain ⟨t, tail, rfl, ht, htail⟩ := List.map_eq_cons_iff.mp htail
    obtain ⟨x, tail, rfl, hx, htail⟩ := List.map_eq_cons_iff.mp htail
    obtain ⟨equal, tail, rfl, hequal, htail⟩ := List.map_eq_cons_iff.mp htail
    obtain ⟨us, stop, rfl, hvalue, hstop⟩ := Expr.terminated_of_written h.2.2 htail
    obtain ⟨htype, rfl⟩ := typeName_of_written h.1 ht
    obtain ⟨hname, rfl⟩ := name_of_written h.2.1 hx
    exact .define (const_of_written hmark) htype hname (kind_of_written hequal) hvalue hstop
  | .assign op name value, h, ts, hts => by
    obtain ⟨x, tail, rfl, hx, htail⟩ := List.map_eq_cons_iff.mp hts
    obtain ⟨mark, tail, rfl, hmark, htail⟩ := List.map_eq_cons_iff.mp htail
    obtain ⟨us, stop, rfl, hvalue, hstop⟩ := Expr.terminated_of_written h.2 htail
    obtain ⟨hname, rfl⟩ := name_of_written h.1 hx
    exact .assign hname (kind_of_written hmark) hvalue hstop
  | .branch test body otherwise, h, ts, hts =>
    Stmt.branch_of_written h.1 (Stmt.spelledAll_of_written h.2.1)
      (Else.spelled_of_written h.2.2) hts
  | .loop test body, h, ts, hts => by
    obtain ⟨word, tail, rfl, hword, htail⟩ := List.map_eq_cons_iff.mp hts
    obtain ⟨cs, bs, rfl, hcs, hbs⟩ := List.map_eq_append_iff.mp htail
    obtain ⟨opening, cs, closing, rfl, hopening, hcs, hclosing⟩ := within_of_written hcs
    have htest := Expr.spelled_of_written h.1 hcs
    have hbody := Stmt.block_of_written (Stmt.spelledAll_of_written h.2) hbs
    rw [List.cons_append, List.append_assoc, List.singleton_append]
    exact .loop (kind_of_written hword) hopening htest hclosing hbody

theorem Stmt.spelledAll_of_written : ∀ {ss : List Stmt}, Stmt.WritableAll digits ss →
    ∀ {ts : List Token}, ts.map Token.written = Stmt.writtenAll digits ss →
      Stmt.SpelledAll (Stmt.mapAll Expr.enclosed ss) ts
  | [], _, ts, hts => by
    obtain rfl := List.map_eq_nil_iff.mp hts
    exact .nil
  | s :: ss, h, ts, hts => by
    obtain ⟨us, vs, rfl, hus, hvs⟩ := List.map_eq_append_iff.mp hts
    exact .cons (Stmt.spelled_of_written h.1 hus) (Stmt.spelledAll_of_written h.2 hvs)

theorem Else.spelled_of_written : ∀ {otherwise : Else}, otherwise.Writable digits →
    ∀ {ts : List Token}, ts.map Token.written = otherwise.written digits →
      (otherwise.mapExpr Expr.enclosed).Spelled ts
  | .none, _, ts, hts => by
    obtain rfl := List.map_eq_nil_iff.mp hts
    exact .none
  | .block body, h, ts, hts => by
    obtain ⟨word, bs, rfl, hword, hbs⟩ := List.map_eq_cons_iff.mp hts
    have hbody := Stmt.block_of_written (Stmt.spelledAll_of_written h) hbs
    exact .block (kind_of_written hword) hbody
  | .branch test body otherwise, h, ts, hts => by
    obtain ⟨word, bs, rfl, hword, hbs⟩ := List.map_eq_cons_iff.mp hts
    have hbranch := Stmt.branch_of_written h.1 (Stmt.spelledAll_of_written h.2.1)
      (Else.spelled_of_written h.2.2) hbs
    exact .branch (kind_of_written hword) hbranch

end

/-- The source text of a writable program is tokenized and parsed. What comes back differs from the
program in groups only and has the same register code, or is refused with the same error. -/
theorem parse_source {p : Program} (h : Stmt.WritableAll digits p) :
    ∃ tokens p', tokenize (source digits p) = .ok tokens ∧ parse tokens = .ok p' ∧
      Stmt.mapAll Expr.ungrouped p' = Stmt.mapAll Expr.ungrouped p ∧
      Register.lower p' = Register.lower p := by
  obtain ⟨tokens, htokens, hwritten⟩ := tokenize_source h
  obtain ⟨ts, last, rfl, hts, hlast⟩ := List.map_eq_append_iff.mp hwritten
  obtain ⟨stop, rfl, hstop⟩ := List.map_eq_singleton_iff.mp hlast
  have hkind : stop.kind = .endOfInput := congrArg Written.kind hstop
  have hend : Parser.AtEnd [stop] := by simp [Parser.AtEnd, hkind]
  have hspelled := Stmt.spelledAll_of_written h hts
  have hcanonical := Stmt.canonical_mapAll Expr.enclosed_canonical p
  have hparse : parse (ts ++ [stop]) = .ok (Stmt.mapAll Expr.enclosed p) := by
    rw [parse, Parser.program_complete hspelled hcanonical hend]
    rfl
  refine ⟨_, _, htokens, hparse, ?_, Register.lower_enclosed p⟩
  exact Stmt.mapAll_comp Expr.ungrouped_enclosed p

end

/-- `float x = (1 + a) * --1.5;`, without a group in the tree. -/
def nestedProduct : Program :=
  [.define false "float" "x" (.binary .multiply (.binary .add (.int 1) (.name "a"))
    (.unary .arithmeticNegate (.unary .arithmeticNegate (.float 1.5))))]

theorem parse_source_nestedProduct :
    Stmt.WritableAll Decimal.Layout.marked.write nestedProduct ∧
      ∃ tokens p', tokenize (source Decimal.Layout.marked.write nestedProduct) = .ok tokens ∧
        parse tokens = .ok p' ∧
        Stmt.mapAll Expr.ungrouped p' = Stmt.mapAll Expr.ungrouped nestedProduct ∧
        Register.lower p' = Register.lower nestedProduct := by
  have htext : Decimal.Layout.marked.write 1.5 = ['1', '.', '5'] := by decide +kernel
  have hdecimal : IsDecimal ['1', '.', '5'] :=
    ⟨['1'], ['5'], rfl, by simp, by simp, by simp, by simp⟩
  have hvalue : Decimal.readFloat? ['1', '.', '5'] = some 1.5 := by decide +kernel
  have hfloat : (Expr.float 1.5).Writable Decimal.Layout.marked.write := by
    rw [Expr.Writable, htext]
    exact ⟨hdecimal, hvalue⟩
  have hx : IsName "x" := ⟨by simp, by simp, by decide⟩
  have ha : IsName "a" := ⟨by simp, by simp, by decide⟩
  have hone : (Expr.int 1).Writable Decimal.Layout.marked.write := by
    rw [Expr.Writable]
    decide
  have h : Stmt.WritableAll Decimal.Layout.marked.write nestedProduct :=
    ⟨⟨.inr rfl, hx, ⟨hone, ha⟩, hfloat⟩, trivial⟩
  exact ⟨h, parse_source h⟩

end MiniC
