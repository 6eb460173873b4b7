import MiniC.Proofs.Text.Runs
import MiniC.Text.Output

/-!
# Texts that can be taken apart

Lines that hold no line feed can be told from the text that they make up. So can the characters of a
quoted text: every escape says where it ends and which character it stands for.
-/

namespace MiniC.Text

set_option autoImplicit false

/-- Lines one after another, each with a line feed behind it. -/
def unlines (lines : List (List Char)) : List Char :=
  lines.flatMap fun line => line ++ ['\n']

theorem unlines_cons (line : List Char) (lines : List (List Char)) :
    unlines (line :: lines) = line ++ '\n' :: unlines lines := by
  simp [unlines]

theorem line_inj {a b s t : List Char} (ha : '\n' ∉ a) (hb : '\n' ∉ b)
    (h : a ++ '\n' :: s = b ++ '\n' :: t) : a = b ∧ s = t := by
  obtain ⟨hline, hrest⟩ := run_unique (run_of_not_mem ha) (by simp) (run_of_not_mem hb) (by simp) h
  exact ⟨hline, (List.cons.inj hrest).2⟩

theorem unlines_inj {as bs : List (List Char)} (ha : ∀ a ∈ as, '\n' ∉ a) (hb : ∀ b ∈ bs, '\n' ∉ b)
    (h : unlines as = unlines bs) : as = bs := by
  induction as generalizing bs with
  | nil =>
    cases bs with
    | nil => rfl
    | cons b bs => simp [unlines] at h
  | cons a as ih =>
    cases bs with
    | nil => simp [unlines] at h
    | cons b bs =>
      rw [List.forall_mem_cons] at ha hb
      rw [unlines_cons, unlines_cons] at h
      obtain ⟨rfl, hrest⟩ := line_inj ha.1 hb.1 h
      rw [ih ha.2 hb.2 hrest]

def hexDigit (c : Char) : Nat :=
  if c.isDigit then c.toNat - '0'.toNat else c.toNat - 'a'.toNat + 10

def hexValue (cs : List Char) : Nat :=
  cs.foldl (fun value c => 16 * value + hexDigit c) 0

theorem hexValue_toDigits (n : Nat) : hexValue (Nat.toDigits 16 n) = n := by
  have hdigit : ∀ k < 16, hexDigit k.digitChar = k := by decide
  induction n using Nat.base_induction 16 (by decide) with
  | single m hm =>
    rw [Nat.toDigits_of_lt_base hm]
    exact (Nat.zero_add _).trans (hdigit m hm)
  | digit m k hk hm ih =>
    rw [← Nat.toDigits_append_toDigits (by decide) hm hk, Nat.toDigits_of_lt_base hk, hexValue,
      List.foldl_append, ← hexValue, ih]
    exact congrArg (16 * m + ·) (hdigit k hk)

theorem not_mem_toDigits {c : Char} (hc : ∀ k < 16, k.digitChar ≠ c) (n : Nat) :
    c ∉ Nat.toDigits 16 n := by
  induction n using Nat.base_induction 16 (by decide) with
  | single m hm =>
    rw [Nat.toDigits_of_lt_base hm, List.mem_singleton]
    exact (hc m hm).symm
  | digit m k hk hm ih =>
    rw [← Nat.toDigits_append_toDigits (by decide) hm hk, Nat.toDigits_of_lt_base hk]
    intro hmem
    rcases List.mem_append.mp hmem with hmem | hmem
    · exact ih hmem
    · exact hc k hk (List.mem_singleton.mp hmem).symm

def readEscape : List Char → Option (Char × List Char)
  | '\\' :: 'n' :: rest => some ('\n', rest)
  | '\\' :: 'r' :: rest => some ('\r', rest)
  | '\\' :: 't' :: rest => some ('\t', rest)
  | '\\' :: '0' :: rest => some ('\x00', rest)
  | '\\' :: 'u' :: '{' :: rest =>
    some (Char.ofNat (hexValue (rest.takeWhile (· ≠ '}'))), (rest.dropWhile (· ≠ '}')).drop 1)
  | '\\' :: c :: rest => some (c, rest)
  | c :: rest => some (c, rest)
  | [] => none

theorem readEscape_hex (c : Char) (rest : List Char) :
    readEscape ('\\' :: 'u' :: '{' :: (Nat.toDigits 16 c.toNat ++ '}' :: rest)) =
      some (c, rest) := by
  have hclose := run_of_not_mem (not_mem_toDigits (c := '}') (by decide) c.toNat)
  simp only [readEscape]
  rw [takeWhile_run hclose (by simp), dropWhile_run hclose (by simp), hexValue_toDigits,
    Char.ofNat_toNat]
  rfl

/-- The letters that stand for a character behind a backslash. -/
def escapeLetters : List Char :=
  ['n', 'r', 't', '0', 'u']

theorem readEscape_self {c : Char} (hc : c ∉ escapeLetters) (rest : List Char) :
    readEscape ('\\' :: c :: rest) = some (c, rest) := by
  simp only [escapeLetters, List.mem_cons, List.not_mem_nil, or_false, not_or] at hc
  simp [readEscape, hc]

theorem readEscape_plain {c : Char} (hc : c ≠ '\\') (rest : List Char) :
    readEscape (c :: rest) = some (c, rest) := by
  simp [readEscape, hc]

/-- What was escaped is read back. -/
theorem readEscape_escape {quote : Char} (hquote : quote ∉ escapeLetters) (c : Char)
    (rest : List Char) : readEscape (escape quote c ++ rest) = some (c, rest) := by
  unfold escape
  split
  · next h =>
    rcases h with rfl | rfl
    · exact readEscape_self hquote rest
    · exact readEscape_self (by decide) rest
  · next hplain =>
    rw [not_or] at hplain
    split
    · next h => rw [h]; rfl
    · split
      · next h => rw [h]; rfl
      · split
        · next h => rw [h]; rfl
        · split
          · next h => rw [h]; rfl
          · split
            · simpa using readEscape_hex c rest
            · exact readEscape_plain hplain.2 rest

section Quoted

variable {quote : Char}

theorem flatMap_escape_inj (hquote : quote ∉ escapeLetters) {cs ds : List Char}
    (h : cs.flatMap (escape quote) = ds.flatMap (escape quote)) : cs = ds := by
  have hnil : readEscape [] = none := rfl
  induction cs generalizing ds with
  | nil =>
    cases ds with
    | nil => rfl
    | cons d ds =>
      have hread := congrArg readEscape h
      rw [List.flatMap_nil, List.flatMap_cons, readEscape_escape hquote, hnil] at hread
      cases hread
  | cons c cs ih =>
    have hread := congrArg readEscape h
    cases ds with
    | nil =>
      rw [List.flatMap_nil, List.flatMap_cons, readEscape_escape hquote, hnil] at hread
      cases hread
    | cons d ds =>
      rw [List.flatMap_cons, List.flatMap_cons, readEscape_escape hquote,
        readEscape_escape hquote] at hread
      simp only [Option.some.injEq, Prod.mk.injEq] at hread
      obtain ⟨rfl, hrest⟩ := hread
      rw [ih hrest]

/-- A quoted text determines the text. -/
theorem quotedBy_inj (hquote : quote ∉ escapeLetters) {cs ds : List Char}
    (h : quotedBy quote cs = quotedBy quote ds) : cs = ds :=
  flatMap_escape_inj hquote (List.append_cancel_right (List.cons.inj h).2)

theorem lineFeed_not_mem_escape (hquote : quote ≠ '\n') (c : Char) : '\n' ∉ escape quote c := by
  unfold escape
  split
  · next h =>
    rcases h with rfl | rfl
    · simpa using hquote.symm
    · decide
  · split
    · decide
    · next hc =>
      split
      · decide
      · split
        · decide
        · split
          · decide
          · split
            · have hdigits : '\n' ∉ Nat.toDigits 16 c.toNat := not_mem_toDigits (by decide) _
              simpa using hdigits
            · simpa using Ne.symm hc

/-- A quoted text stands on one line, whatever is quoted. -/
theorem lineFeed_not_mem_quotedBy (hquote : quote ≠ '\n') (cs : List Char) :
    '\n' ∉ quotedBy quote cs := by
  intro h
  simp only [quotedBy, List.cons_append, List.mem_cons, List.mem_append, List.mem_flatMap,
    List.not_mem_nil, or_false] at h
  rcases h with h | ⟨c, _, h⟩ | h
  · exact hquote h.symm
  · exact lineFeed_not_mem_escape hquote c h
  · exact hquote h.symm

theorem quoted_inj {s t : String} (h : quoted s = quoted t) : s = t := by
  apply String.toList_injective
  exact quotedBy_inj (by decide) (String.ofList_injective h)

theorem lineFeed_not_mem_quoted (s : String) : '\n' ∉ (quoted s).toList := by
  rw [quoted, String.toList_ofList]
  exact lineFeed_not_mem_quotedBy (by decide) s.toList

end Quoted

end MiniC.Text
