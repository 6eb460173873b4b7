import MiniC.Proofs.Parser.Grammar
import MiniC.Proofs.Token.Separation

/-!
# Programs do not depend on places

Lines, offsets and lengths of tokens do not matter for what a token list spells, so two lists that
are written alike are parsed to the same program. Places show in the errors only.
-/

namespace MiniC

set_option autoImplicit false

namespace Token

variable {t : Token} {ts us : List Token}

theorem nil_of_written (h : us.map written = ([] : List Token).map written) : us = [] :=
  List.map_eq_nil_iff.mp h

theorem cons_of_written (h : us.map written = (t :: ts).map written) :
    ∃ u vs, us = u :: vs ∧ u.kind = t.kind ∧ u.lexeme = t.lexeme ∧
      vs.map written = ts.map written := by
  obtain ⟨u, vs, rfl, hu, hvs⟩ := List.map_eq_cons_iff.mp h
  have hlexeme : u.lexeme.toList = t.lexeme.toList := congrArg Written.lexeme hu
  exact ⟨u, vs, rfl, congrArg Written.kind hu, String.toList_inj.mp hlexeme, hvs⟩

theorem single_of_written (h : us.map written = [t].map written) :
    ∃ u, us = [u] ∧ u.kind = t.kind ∧ u.lexeme = t.lexeme := by
  obtain ⟨u, vs, rfl, hkind, hlexeme, hvs⟩ := cons_of_written h
  obtain rfl := nil_of_written hvs
  exact ⟨u, rfl, hkind, hlexeme⟩

theorem append_of_written {ts' : List Token} (h : us.map written = (ts ++ ts').map written) :
    ∃ vs ws, us = vs ++ ws ∧ vs.map written = ts.map written ∧
      ws.map written = ts'.map written := by
  rw [List.map_append] at h
  exact List.map_eq_append_iff.mp h

end Token

open Token

theorem Expr.Spelled.congr {e : Expr} {ts us : List Token} (h : e.Spelled ts)
    (hus : us.map written = ts.map written) : e.Spelled us := by
  induction h generalizing us with
  | int kind value =>
    obtain ⟨u, rfl, hkind, hlexeme⟩ := single_of_written hus
    rw [← hlexeme] at value
    exact .int (hkind.trans kind) value
  | float kind value =>
    obtain ⟨u, rfl, hkind, hlexeme⟩ := single_of_written hus
    rw [← hlexeme] at value
    exact .float (hkind.trans kind) value
  | string kind =>
    obtain ⟨u, rfl, hkind, hlexeme⟩ := single_of_written hus
    rw [← hlexeme]
    exact .string (hkind.trans kind)
  | name kind =>
    obtain ⟨u, rfl, hkind, hlexeme⟩ := single_of_written hus
    rw [← hlexeme]
    exact .name (hkind.trans kind)
  | step kind step =>
    obtain ⟨u, vs, rfl, hkind, hlexeme, hvs⟩ := cons_of_written hus
    obtain ⟨mark, rfl, hmark, _⟩ := single_of_written hvs
    rw [← hlexeme]
    exact .step (hkind.trans kind) (hmark.trans step)
  | unary kind _ ih =>
    obtain ⟨mark, vs, rfl, hmark, _, hvs⟩ := cons_of_written hus
    exact .unary (hmark.trans kind) (ih hvs)
  | binary _ kind _ ihl ihr =>
    obtain ⟨ls, tail, rfl, hls, htail⟩ := append_of_written hus
    obtain ⟨mark, rs, rfl, hmark, _, hrs⟩ := cons_of_written htail
    exact .binary (ihl hls) (hmark.trans kind) (ihr hrs)
  | group leftParen _ rightParen ih =>
    obtain ⟨opening, tail, rfl, hopening, _, htail⟩ := cons_of_written hus
    obtain ⟨vs, last, rfl, hvs, hlast⟩ := append_of_written htail
    obtain ⟨closing, rfl, hclosing, _⟩ := single_of_written hlast
    exact .group (hopening.trans leftParen) (ih hvs) (hclosing.trans rightParen)

theorem SpelledConst.congr {isConst : Bool} {ts us : List Token} (h : SpelledConst isConst ts)
    (hus : us.map written = ts.map written) : SpelledConst isConst us := by
  cases h with
  | absent =>
    obtain rfl := nil_of_written hus
    exact .absent
  | present kind =>
    obtain ⟨mark, rfl, hmark, _⟩ := single_of_written hus
    exact .present (hmark.trans kind)

mutual

theorem Stmt.Spelled.congr : ∀ {s : Stmt} {ts us : List Token}, s.Spelled ts →
    us.map written = ts.map written → s.Spelled us
  | _, _, _, .expr value semicolon, hus => by
    obtain ⟨vs, last, rfl, hvs, hlast⟩ := append_of_written hus
    obtain ⟨stop, rfl, hstop, _⟩ := single_of_written hlast
    exact .expr (value.congr hvs) (hstop.trans semicolon)
  | _, _, _, .declare const typeKind nameKind semicolon, hus => by
    obtain ⟨mark, tail, rfl, hmark, htail⟩ := append_of_written hus
    obtain ⟨type, tail, rfl, htype, htypeName, htail⟩ := cons_of_written htail
    obtain ⟨name, tail, rfl, hname, hlexeme, htail⟩ := cons_of_written htail
    obtain ⟨stop, rfl, hstop, _⟩ := single_of_written htail
    rw [← htype] at typeKind
    rw [← htypeName, ← hlexeme]
    exact .declare (const.congr hmark) typeKind (hname.trans nameKind) (hstop.trans semicolon)
  | _, _, _, .define const typeKind nameKind equalKind value semicolon, hus => by
    obtain ⟨mark, tail, rfl, hmark, htail⟩ := append_of_written hus
    obtain ⟨type, tail, rfl, htype, htypeName, htail⟩ := cons_of_written htail
    obtain ⟨name, tail, rfl, hname, hlexeme, htail⟩ := cons_of_written htail
    obtain ⟨equal, tail, rfl, hequal, _, htail⟩ := cons_of_written htail
    obtain ⟨vs, last, rfl, hvs, hlast⟩ := append_of_written htail
    obtain ⟨stop, rfl, hstop, _⟩ := single_of_written hlast
    rw [← htype] at typeKind
    rw [← htypeName, ← hlexeme]
    exact .define (const.congr hmark) typeKind (hname.trans nameKind) (hequal.trans equalKind)
      (value.congr hvs) (hstop.trans semicolon)
  | _, _, _, .assign nameKind kind value semicolon, hus => by
    obtain ⟨name, tail, rfl, hname, hlexeme, htail⟩ := cons_of_written hus
    obtain ⟨mark, tail, rfl, hmark, _, htail⟩ := cons_of_written htail
    obtain ⟨vs, last, rfl, hvs, hlast⟩ := append_of_written htail
    obtain ⟨stop, rfl, hstop, _⟩ := single_of_written hlast
    rw [← hlexeme]
    exact .assign (hname.trans nameKind) (hmark.trans kind) (value.congr hvs)
      (hstop.trans semicolon)
  | _, _, _, .branch wordKind leftParen condition rightParen block rest, hus => by
    obtain ⟨word, tail, rfl, hword, _, htail⟩ := cons_of_written hus
    obtain ⟨opening, tail, rfl, hopening, _, htail⟩ := cons_of_written htail
    obtain ⟨cs, tail, rfl, hcs, htail⟩ := append_of_written htail
    obtain ⟨closing, tail, rfl, hclosing, _, htail⟩ := cons_of_written htail
    obtain ⟨bs, os, rfl, hbs, hos⟩ := append_of_written htail
    exact .branch (hword.trans wordKind) (hopening.trans leftParen) (condition.congr hcs)
      (hclosing.trans rightParen) (block.congr hbs) (rest.congr hos)
  | _, _, _, .loop wordKind leftParen condition rightParen block, hus => by
    obtain ⟨word, tail, rfl, hword, _, htail⟩ := cons_of_written hus
    obtain ⟨opening, tail, rfl, hopening, _, htail⟩ := cons_of_written htail
    obtain ⟨cs, tail, rfl, hcs, htail⟩ := append_of_written htail
    obtain ⟨closing, bs, rfl, hclosing, _, hbs⟩ := cons_of_written htail
    exact .loop (hword.trans wordKind) (hopening.trans leftParen) (condition.congr hcs)
      (hclosing.trans rightParen) (block.congr hbs)

theorem Stmt.SpelledBlock.congr : ∀ {body : List Stmt} {ts us : List Token},
    Stmt.SpelledBlock body ts → us.map written = ts.map written → Stmt.SpelledBlock body us
  | _, _, _, .braces leftBrace inner rightBrace, hus => by
    obtain ⟨opening, tail, rfl, hopening, _, htail⟩ := cons_of_written hus
    obtain ⟨vs, last, rfl, hvs, hlast⟩ := append_of_written htail
    obtain ⟨closing, rfl, hclosing, _⟩ := single_of_written hlast
    exact .braces (hopening.trans leftBrace) (inner.congr hvs) (hclosing.trans rightBrace)

theorem Stmt.SpelledAll.congr : ∀ {body : List Stmt} {ts us : List Token},
    Stmt.SpelledAll body ts → us.map written = ts.map written → Stmt.SpelledAll body us
  | _, _, _, .nil, hus => by
    obtain rfl := nil_of_written hus
    exact .nil
  | _, _, _, .cons first others, hus => by
    obtain ⟨vs, ws, rfl, hvs, hws⟩ := append_of_written hus
    exact .cons (first.congr hvs) (others.congr hws)

theorem Else.Spelled.congr : ∀ {otherwise : Else} {ts us : List Token}, otherwise.Spelled ts →
    us.map written = ts.map written → otherwise.Spelled us
  | _, _, _, .none, hus => by
    obtain rfl := nil_of_written hus
    exact .none
  | _, _, _, .block wordKind block, hus => by
    obtain ⟨word, bs, rfl, hword, _, hbs⟩ := cons_of_written hus
    exact .block (hword.trans wordKind) (block.congr hbs)
  | _, _, _, .branch wordKind branch, hus => by
    obtain ⟨word, bs, rfl, hword, _, hbs⟩ := cons_of_written hus
    exact .branch (hword.trans wordKind) (branch.congr hbs)

end

namespace Parser

theorem atEnd_congr {ts us : List Token} (h : AtEnd ts) (hus : us.map written = ts.map written) :
    AtEnd us := by
  cases ts with
  | nil =>
    obtain rfl := nil_of_written hus
    exact h
  | cons t ts =>
    obtain ⟨u, vs, rfl, hkind, _⟩ := cons_of_written hus
    exact hkind.trans h

/-- A program is read from every list that is written like a list from which it is read. -/
theorem program_congr {p : Program} {ts us : List Token} (h : program ts = .ok p)
    (hus : us.map written = ts.map written) : program us = .ok p := by
  obtain ⟨used, rest, rfl, hrest, hused, hcanonical⟩ := program_sound h
  obtain ⟨vs, ws, rfl, hvs, hws⟩ := append_of_written hus
  exact program_complete (hused.congr hvs) hcanonical (atEnd_congr hrest hws)

end Parser

theorem parse_eq_ok_congr {p : Program} {ts us : List Token}
    (hus : us.map written = ts.map written) : parse us = .ok p ↔ parse ts = .ok p := by
  unfold parse
  rw [mapError_eq_ok_iff, mapError_eq_ok_iff]
  constructor
  · intro h
    exact Parser.program_congr h hus.symm
  · intro h
    exact Parser.program_congr h hus

end MiniC
