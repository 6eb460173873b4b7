import MiniC.Proofs.Parser.Completion
import MiniC.Proofs.Parser.Locality

/-!
# Errors are reported at the first offending token

The tokens before the place of a parse error begin a program, and no program begins with them and
the token at that place. Where a token is said to be missed, a token of that kind may really stand
there.
-/

namespace MiniC

set_option autoImplicit false

namespace Parser

theorem parse_of_spellsAll {ts : List Token} (h : SpellsAll ts) : ∃ p, parse ts = .ok p := by
  obtain ⟨p, hs, hc⟩ := h
  exact ⟨p, parse_of_spelledAll hs hc⟩

/-- Some token may stand wherever no number was refused. -/
theorem Failure.exists_allowed {ts : List Token} {f : Failure}
    (h : ∀ kind lexeme line, f.error ts ≠ .invalidLiteral kind lexeme line) :
    ∃ token : Token, f.cause.Allows token.kind := by
  cases hcause : f.cause with
  | token kind => exact ⟨filler kind, rfl⟩
  | expression => exact ⟨filler .identifier, rfl⟩
  | type => exact ⟨filler .intWord, rfl⟩
  | number kind token =>
    refine absurd ?_ (h kind token.lexeme token.line)
    rw [Failure.error, hcause]

end Parser

/-- A parse error that is not about a number is reported at the first offending token: the `k`
tokens before it begin a program, no program begins with the `k + 1` tokens up to it, and a token
that is said to be missed may stand in its place. -/
theorem parse_error_earliest {ts : List Token} {e : ParseError} (h : parse ts = .error e)
    (he : ∀ kind lexeme line, e ≠ .invalidLiteral kind lexeme line) :
    ∃ f k, Parser.program ts = .error f ∧ e = f.error ts ∧ k ≤ ts.length ∧ f.rest = ts.drop k ∧
      (∃ more p, parse (ts.take k ++ more) = .ok p) ∧
      (∀ token, ts[k]? = some token → ∀ more p, parse (ts.take (k + 1) ++ more) ≠ .ok p) ∧
      ∀ kind found line, e = .expectedToken kind found line → ∀ token : Token, token.kind = kind →
        ∃ more p, parse (ts.take k ++ token :: more) = .ok p := by
  obtain ⟨f, hf, rfl⟩ := mapError_eq_error_iff.mp h
  obtain ⟨used, hts, hlocal⟩ := Parser.program_error_local hf
  have hcomplete : ∀ token : Token, f.cause.Allows token.kind →
      ∃ more p, parse (used ++ token :: more) = .ok p := by
    intro token htoken
    obtain ⟨used', hts', hused⟩ := Parser.program_completes hf
    obtain rfl : used = used' := List.append_cancel_right (hts.symm.trans hts')
    obtain ⟨more, hmore⟩ := hused token htoken
    exact ⟨more, Parser.parse_of_spellsAll hmore⟩
  have htake : ts.take used.length = used := by rw [hts, List.take_left]
  refine ⟨f, used.length, hf, rfl, by simp [hts], by rw [hts, List.drop_left], ?_, ?_, ?_⟩
  · obtain ⟨token, htoken⟩ := Parser.Failure.exists_allowed he
    obtain ⟨more, hmore⟩ := hcomplete token htoken
    exact ⟨token :: more, by rwa [htake]⟩
  · intro token htoken more p hok
    have hhead : f.rest.head? = some token := by
      rwa [hts, List.getElem?_append_right (Nat.le_refl _), Nat.sub_self,
        ← List.head?_eq_getElem?] at htoken
    rw [List.take_add_one, htake, htoken, Option.toList_some, List.append_assoc] at hok
    rw [parse, hlocal ([token] ++ more) hhead.symm] at hok
    cases hok
  · intro kind found line hkind token htoken
    rw [htake]
    refine hcomplete token ?_
    cases hcause : f.cause with
    | token expected =>
      rw [Parser.Failure.error, hcause] at hkind
      cases hkind
      exact htoken
    | _ =>
      rw [Parser.Failure.error, hcause] at hkind
      cases hkind

/-- `x = (y;`, where a parenthesis is missed before the semicolon. -/
def openGroup : List Token :=
  [⟨.identifier, 1, 0, 1, "x"⟩, ⟨.equal, 1, 2, 1, "="⟩, ⟨.parenLeft, 1, 4, 1, "("⟩,
    ⟨.identifier, 1, 5, 1, "y"⟩, ⟨.semicolon, 1, 6, 1, ";"⟩, ⟨.endOfInput, 1, 7, 0, ""⟩]

theorem parse_error_openGroup :
    parse openGroup =
        .error (.expectedToken .parenRight (some ⟨.semicolon, 1, 6, 1, ";"⟩) 1) ∧
      ∃ f k, Parser.program openGroup = .error f ∧
        .expectedToken .parenRight (some ⟨.semicolon, 1, 6, 1, ";"⟩) 1 = f.error openGroup ∧
        k ≤ openGroup.length ∧ f.rest = openGroup.drop k ∧
        (∃ more p, parse (openGroup.take k ++ more) = .ok p) ∧
        (∀ token, openGroup[k]? = some token →
          ∀ more p, parse (openGroup.take (k + 1) ++ more) ≠ .ok p) ∧
        ∃ more p, parse (openGroup.take k ++ Parser.filler .parenRight :: more) = .ok p := by
  have hprogram : Parser.program openGroup =
      .error (.at (.token .parenRight) (openGroup.drop 4)) := by
    cbv
  have herror : parse openGroup =
      .error (.expectedToken .parenRight (some ⟨.semicolon, 1, 6, 1, ";"⟩) 1) := by
    rw [parse, hprogram]
    rfl
  refine ⟨herror, ?_⟩
  obtain ⟨f, k, hf, he, hk, hrest, hprefix, hoffence, hmissed⟩ :=
    parse_error_earliest herror (by simp)
  have hparen := hmissed _ _ _ rfl (Parser.filler .parenRight) rfl
  exact ⟨f, k, hf, he, hk, hrest, hprefix, hoffence, hparen⟩

end MiniC
