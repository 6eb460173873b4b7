import MiniC.Proofs.Parser.Placement
import MiniC.Proofs.Token.Layout
import MiniC.Stage

/-!
# Layout

Blanks, comments and characters of no token may be put into a source text at its front and wherever
a token ends. The tokens stay as they are written, and so do the program and its code: lines and
offsets go into messages only.
-/

namespace MiniC

set_option autoImplicit false

open Token (Separates written tokenize_insert)

/-- Behind the tokens, a stage depends on how they are written only. -/
theorem render_eq_ok_congr {stage : Stage} (hstage : stage ≠ .tokens) {source source' : String}
    {ts us : List Token} (hts : tokenize source = .ok ts) (hus : tokenize source' = .ok us)
    (hwritten : us.map written = ts.map written) (text : String) :
    render stage source' = .ok text ↔ render stage source = .ok text := by
  have hparsed : ∀ p, parsed us = .ok p ↔ parsed ts = .ok p := by
    intro p
    unfold parsed
    rw [mapError_eq_ok_iff, mapError_eq_ok_iff]
    exact parse_eq_ok_congr hwritten
  unfold render scanned
  rw [hts, hus, mapError_ok, mapError_ok]
  cases stage with
  | tokens => exact absurd rfl hstage
  | ast =>
    change (parsed us >>= _) = _ ↔ (parsed ts >>= _) = _
    simp only [bind_eq_ok_iff, hparsed]
  | bytecode =>
    change (parsed us >>= _) = _ ↔ (parsed ts >>= _) = _
    simp only [bind_eq_ok_iff, hparsed]

/-- A source text that is tokenized may be parted at its front or where a token ends, by a blank and
any blanks, whole comments and inert characters behind it. It is tokenized again, to tokens of the
same kinds and lexemes. The program and its code can be written if and only if they could before,
and then as the same text. -/
theorem render_insert {a b w : String} {tokens : List Token}
    (htokens : tokenize (a ++ b) = .ok tokens)
    (ha : a = "" ∨ ∃ t ∈ tokens, t.start + t.length = a.utf8ByteSize)
    (hw : Separates w.toList) :
    (∃ tokens', tokenize (a ++ w ++ b) = .ok tokens' ∧
      tokens'.map written = tokens.map written) ∧
    ∀ stage, stage ≠ .tokens → ∀ text,
      render stage (a ++ w ++ b) = .ok text ↔ render stage (a ++ b) = .ok text := by
  obtain ⟨tokens', htokens', hwritten⟩ := tokenize_insert htokens ha hw
  refine ⟨⟨tokens', htokens', hwritten⟩, ?_⟩
  intro stage hstage text
  exact render_eq_ok_congr hstage htokens htokens' hwritten text

/-- A comment and a stray character behind the slash of a quotient. -/
theorem render_insert_quotient :
    (∃ tokens', tokenize ("6/" ++ " // half\n@" ++ "2;") = .ok tokens' ∧ tokens'.map written =
      [⟨.integer, ['6']⟩, ⟨.slash, ['/']⟩, ⟨.integer, ['2']⟩, ⟨.semicolon, [';']⟩,
        ⟨.endOfInput, []⟩]) ∧
    render .bytecode ("6/" ++ " // half\n@" ++ "2;") = .ok
      ("0000 load_int 6\n0001 store_reg r0\n0002 load_int 2\n0003 store_reg r1\n" ++
        "0004 load_reg r0\n0005 div_reg r1\n0006 store_reg r0\n") := by
  have htokens : tokenize ("6/" ++ "2;") = .ok
      [⟨.integer, 0, 0, 1, "6"⟩, ⟨.slash, 0, 1, 1, "/"⟩, ⟨.integer, 0, 2, 1, "2"⟩,
        ⟨.semicolon, 0, 3, 1, ";"⟩, ⟨.endOfInput, 0, 4, 0, ""⟩] := by cbv
  have hw : Separates " // half\n@".toList := by
    have hchars : " // half\n@".toList =
        ' ' :: '/' :: '/' :: ([' ', 'h', 'a', 'l', 'f'] ++ '\n' :: ['@']) := by cbv
    rw [hchars]
    exact ⟨rfl, .comment (by decide) (.char (.inr rfl) .nil)⟩
  have hrender : render .bytecode ("6/" ++ "2;") = .ok
      ("0000 load_int 6\n0001 store_reg r0\n0002 load_int 2\n0003 store_reg r1\n" ++
        "0004 load_reg r0\n0005 div_reg r1\n0006 store_reg r0\n") := by cbv
  obtain ⟨⟨tokens', htokens', hwritten⟩, hstages⟩ :=
    render_insert htokens (.inr ⟨⟨.slash, 0, 1, 1, "/"⟩, by simp, rfl⟩) hw
  refine ⟨⟨tokens', htokens', ?_⟩, (hstages .bytecode (by decide) _).mpr hrender⟩
  rw [hwritten]
  simp [written]

end MiniC
