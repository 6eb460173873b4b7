import Mathlib.Data.List.Basic
import MiniC.Token.Munch

/-!
# The token grammar

The texts that are tokens: the fixed marks and operators, reserved words, identifiers, whole and
decimal numbers, and strings. The first character of such a text tells its form, and the text
determines the kind and the lexeme.
-/

namespace MiniC

set_option autoImplicit false

namespace Kind

def symbol? : Kind → Option (List Char)
  | .braceLeft => some ['{']
  | .braceRight => some ['}']
  | .parenLeft => some ['(']
  | .parenRight => some [')']
  | .semicolon => some [';']
  | .plus => some ['+']
  | .minus => some ['-']
  | .star => some ['*']
  | .slash => some ['/']
  | .modulo => some ['%']
  | .lower => some ['<']
  | .lowerEqual => some ['<', '=']
  | .greater => some ['>']
  | .greaterEqual => some ['>', '=']
  | .equalEqual => some ['=', '=']
  | .bangEqual => some ['!', '=']
  | .equal => some ['=']
  | .bang => some ['!']
  | .andAnd => some ['&', '&']
  | .orOr => some ['|', '|']
  | .plusEqual => some ['+', '=']
  | .minusEqual => some ['-', '=']
  | .starEqual => some ['*', '=']
  | .slashEqual => some ['/', '=']
  | .moduloEqual => some ['%', '=']
  | .plusPlus => some ['+', '+']
  | .minusMinus => some ['-', '-']
  | _ => none

def word? : Kind → Option (List Char)
  | .intWord => some ['i', 'n', 't']
  | .floatWord => some ['f', 'l', 'o', 'a', 't']
  | .constWord => some ['c', 'o', 'n', 's', 't']
  | .breakWord => some ['b', 'r', 'e', 'a', 'k']
  | .continueWord => some ['c', 'o', 'n', 't', 'i', 'n', 'u', 'e']
  | .whileWord => some ['w', 'h', 'i', 'l', 'e']
  | .doWord => some ['d', 'o']
  | .ifWord => some ['i', 'f']
  | .elseWord => some ['e', 'l', 's', 'e']
  | .returnWord => some ['r', 'e', 't', 'u', 'r', 'n']
  | .forWord => some ['f', 'o', 'r']
  | _ => none

theorem mem_of_lookup {α β : Type} [BEq α] [LawfulBEq α] {table : List (α × β)} {key : α}
    {value : β} (h : table.lookup key = some value) : (key, value) ∈ table := by
  obtain ⟨front, back, hsplit, _⟩ := List.lookup_eq_some_iff.mp h
  simp [hsplit]

theorem keyword?_eq_some_iff {word : List Char} {kind : Kind} :
    keyword? word = some kind ↔ kind.word? = some word := by
  constructor
  · intro h
    have htable : ∀ entry ∈ keywords, entry.2.word? = some entry.1 := by decide
    exact htable (word, kind) (mem_of_lookup h)
  · intro h
    cases kind <;> cases h <;> decide

theorem single?_eq_some_iff {c : Char} {kind : Kind} :
    single? c = some kind ↔ kind.symbol? = some [c] := by
  constructor
  · intro h
    have htable : ∀ entry ∈ singles, entry.2.symbol? = some [entry.1] := by decide
    exact htable (c, kind) (mem_of_lookup h)
  · intro h
    cases kind <;> cases h <;> decide

theorem pair?_eq_some_iff {c d : Char} {kind : Kind} :
    pair? c d = some kind ↔ kind.symbol? = some [c, d] := by
  constructor
  · intro h
    have htable : ∀ entry ∈ pairs, entry.2.symbol? = some [entry.1.1, entry.1.2] := by decide
    exact htable ((c, d), kind) (mem_of_lookup h)
  · intro h
    cases kind <;> cases h <;> decide

theorem symbol?_head {kind : Kind} {c : Char} {more : List Char}
    (h : kind.symbol? = some (c :: more)) :
    Token.isBlank c = false ∧ c ≠ '"' ∧ c.isDigit = false ∧ Token.isWordChar c = false := by
  cases kind <;> cases h <;> decide

theorem symbol?_length {kind : Kind} {text : List Char} (h : kind.symbol? = some text) :
    text.length = 1 ∨ text.length = 2 := by
  cases kind <;> cases h <;> decide

theorem word?_letters {kind : Kind} {text : List Char} (h : kind.word? = some text) :
    text ≠ [] ∧ ∀ c ∈ text, Token.isWordChar c := by
  cases kind <;> cases h <;> exact ⟨List.cons_ne_nil _ _, List.all_eq_true.mp rfl⟩

theorem symbol?_injective {kind kind' : Kind} {text : List Char} (h : kind.symbol? = some text)
    (h' : kind'.symbol? = some text) : kind = kind' := by
  match text, symbol?_length h with
  | [c], _ =>
    rw [← single?_eq_some_iff] at h h'
    exact Option.some.inj (h.symm.trans h')
  | [c, d], _ =>
    rw [← pair?_eq_some_iff] at h h'
    exact Option.some.inj (h.symm.trans h')

end Kind

namespace Token

theorem isWordChar_iff {c : Char} : isWordChar c ↔ c.isAlpha ∨ c = '_' := by
  simp [isWordChar]

/-- The texts that are tokens, with the kind and the lexeme of the token. -/
inductive Lexical : Kind → List Char → List Char → Prop
  | symbol {kind : Kind} {text : List Char} (h : kind.symbol? = some text) :
    Lexical kind text text
  | keyword {kind : Kind} {text : List Char} (h : kind.word? = some text) : Lexical kind text text
  | identifier {text : List Char} (hne : text ≠ []) (h : ∀ c ∈ text, c.isAlpha ∨ c = '_')
    (hfree : ∀ kind : Kind, kind.word? ≠ some text) : Lexical .identifier text text
  | integer {text : List Char} (hne : text ≠ []) (h : ∀ c ∈ text, c.isDigit) :
    Lexical .integer text text
  | decimal {whole fraction : List Char} (hwhole : whole ≠ []) (hw : ∀ c ∈ whole, c.isDigit)
    (hfraction : fraction ≠ []) (hf : ∀ c ∈ fraction, c.isDigit) :
    Lexical .decimal (whole ++ '.' :: fraction) (whole ++ '.' :: fraction)
  | string {body : List Char} (h : '"' ∉ body) : Lexical .string ('"' :: (body ++ ['"'])) body

theorem isWordChar_of_isDigit {c : Char} (h : c.isDigit) : isWordChar c = false := by
  have hdigit : c.val.toNat ≤ 57 :=
    UInt32.le_iff_toNat_le.mp (of_decide_eq_true (Bool.and_eq_true_iff.mp h).2)
  rw [Bool.eq_false_iff]
  intro hword
  rcases isWordChar_iff.mp hword with hletter | rfl
  · rcases Bool.or_eq_true_iff.mp hletter with hupper | hlower
    · have hA : 65 ≤ c.val.toNat :=
        UInt32.le_iff_toNat_le.mp (of_decide_eq_true hupper).1
      omega
    · have ha : 97 ≤ c.val.toNat :=
        UInt32.le_iff_toNat_le.mp (of_decide_eq_true (Bool.and_eq_true_iff.mp hlower).1)
      omega
  · exact absurd h (by decide)

namespace Lexical

variable {kind kind' : Kind} {c : Char} {text more lexeme lexeme' : List Char}

theorem ne_nil (h : Lexical kind text lexeme) : text ≠ [] := by
  rintro rfl
  generalize htext : ([] : List Char) = text at h
  cases h with
  | symbol h =>
    subst htext
    have hlength := Kind.symbol?_length h
    simp at hlength
  | keyword h => exact (Kind.word?_letters h).1 htext.symm
  | identifier hne => exact hne htext.symm
  | integer hne => exact hne htext.symm
  | decimal => simp at htext
  | string => simp at htext

/-- The first character of a token tells which form the token has. -/
theorem form (h : Lexical kind (c :: more) lexeme) :
    (kind.symbol? = some (c :: more) ∧ lexeme = c :: more) ∨
    (isWordChar c ∧ (∀ d ∈ more, isWordChar d) ∧ lexeme = c :: more ∧
      kind = (Kind.keyword? (c :: more)).getD .identifier) ∨
    (c.isDigit ∧ (∀ d ∈ more, d.isDigit) ∧ lexeme = c :: more ∧ kind = .integer) ∨
    (c.isDigit ∧ lexeme = c :: more ∧ kind = .decimal ∧ ∃ whole fraction,
      more = whole ++ '.' :: fraction ∧ (∀ d ∈ whole, d.isDigit) ∧ fraction ≠ [] ∧
      ∀ d ∈ fraction, d.isDigit) ∨
    (c = '"' ∧ '"' ∉ lexeme ∧ more = lexeme ++ ['"'] ∧ kind = .string) := by
  generalize htext : c :: more = text at h
  cases h with
  | symbol h => exact .inl ⟨h, rfl⟩
  | keyword h =>
    subst htext
    obtain ⟨hc, hmore⟩ := List.forall_mem_cons.mp (Kind.word?_letters h).2
    refine .inr (.inl ⟨hc, hmore, rfl, ?_⟩)
    rw [Kind.keyword?_eq_some_iff.mpr h]
    rfl
  | identifier hne h hfree =>
    subst htext
    have hwords : ∀ d ∈ c :: more, isWordChar d := fun d hd => isWordChar_iff.mpr (h d hd)
    obtain ⟨hc, hmore⟩ := List.forall_mem_cons.mp hwords
    refine .inr (.inl ⟨hc, hmore, rfl, ?_⟩)
    cases hkey : Kind.keyword? (c :: more) with
    | none => rfl
    | some kind => exact absurd (Kind.keyword?_eq_some_iff.mp hkey) (hfree kind)
  | integer hne h =>
    subst htext
    obtain ⟨hc, hmore⟩ := List.forall_mem_cons.mp h
    exact .inr (.inr (.inl ⟨hc, hmore, rfl, rfl⟩))
  | @decimal whole fraction hwhole hw hfraction hf =>
    obtain ⟨first, whole, rfl⟩ := List.exists_cons_of_ne_nil hwhole
    obtain ⟨hc, hmore⟩ := List.forall_mem_cons.mp hw
    injection htext with hfirst htail
    subst hfirst htail
    exact .inr (.inr (.inr (.inl ⟨hc, rfl, rfl, whole, fraction, rfl, hmore, hfraction, hf⟩)))
  | string h =>
    injection htext with hfirst hmore
    exact .inr (.inr (.inr (.inr ⟨hfirst, h, hmore, rfl⟩)))

theorem of_quote (h : Lexical kind ('"' :: more) lexeme) :
    kind = .string ∧ '"' ∉ lexeme ∧ more = lexeme ++ ['"'] := by
  rcases h.form with ⟨h, _⟩ | ⟨hc, _⟩ | ⟨hc, _⟩ | ⟨hc, _⟩ | ⟨_, hbody, hmore, hkind⟩
  · exact absurd rfl (Kind.symbol?_head h).2.1
  · exact absurd hc (by decide)
  · exact absurd hc (by decide)
  · exact absurd hc (by decide)
  · exact ⟨hkind, hbody, hmore⟩

theorem of_digit (hd : c.isDigit) (h : Lexical kind (c :: more) lexeme) :
    lexeme = c :: more ∧ (kind = .integer ∧ (∀ d ∈ more, d.isDigit) ∨
      kind = .decimal ∧ ∃ whole fraction, more = whole ++ '.' :: fraction ∧
        (∀ d ∈ whole, d.isDigit) ∧ fraction ≠ [] ∧ ∀ d ∈ fraction, d.isDigit) := by
  rcases h.form with ⟨h, _⟩ | ⟨hc, _⟩ | ⟨_, hmore, hlex, hkind⟩ | ⟨_, hlex, hkind, hmore⟩ | ⟨hc, _⟩
  · rw [(Kind.symbol?_head h).2.2.1] at hd
    cases hd
  · rw [isWordChar_of_isDigit hd] at hc
    cases hc
  · exact ⟨hlex, .inl ⟨hkind, hmore⟩⟩
  · exact ⟨hlex, .inr ⟨hkind, hmore⟩⟩
  · subst hc
    exact absurd hd (by decide)

theorem of_word (hw : isWordChar c) (h : Lexical kind (c :: more) lexeme) :
    (∀ d ∈ more, isWordChar d) ∧ lexeme = c :: more ∧
      kind = (Kind.keyword? (c :: more)).getD .identifier := by
  have hd : ¬ c.isDigit := by
    intro hd
    rw [isWordChar_of_isDigit hd] at hw
    cases hw
  rcases h.form with ⟨h, _⟩ | ⟨_, h⟩ | ⟨hc, _⟩ | ⟨hc, _⟩ | ⟨hc, _⟩
  · rw [(Kind.symbol?_head h).2.2.2] at hw
    cases hw
  · exact h
  · exact absurd hc hd
  · exact absurd hc hd
  · subst hc
    exact absurd hw (by decide)

theorem of_other (hq : c ≠ '"') (hd : ¬ c.isDigit) (hw : ¬ isWordChar c)
    (h : Lexical kind (c :: more) lexeme) :
    kind.symbol? = some (c :: more) ∧ lexeme = c :: more := by
  rcases h.form with h | ⟨hc, _⟩ | ⟨hc, _⟩ | ⟨hc, _⟩ | ⟨hc, _⟩
  · exact h
  · exact absurd hc hw
  · exact absurd hc hd
  · exact absurd hc hd
  · exact absurd hc hq

/-- A text is a token of one kind, with one lexeme. -/
theorem unique (h : Lexical kind text lexeme) (h' : Lexical kind' text lexeme') :
    kind = kind' ∧ lexeme = lexeme' := by
  obtain ⟨c, more, rfl⟩ := List.exists_cons_of_ne_nil h.ne_nil
  by_cases hq : c = '"'
  · subst hq
    obtain ⟨hkind, _, hmore⟩ := h.of_quote
    obtain ⟨hkind', _, hmore'⟩ := h'.of_quote
    exact ⟨hkind.trans hkind'.symm, List.append_cancel_right (hmore.symm.trans hmore')⟩
  by_cases hd : c.isDigit
  · obtain ⟨hlex, hform⟩ := h.of_digit hd
    obtain ⟨hlex', hform'⟩ := h'.of_digit hd
    refine ⟨?_, hlex.trans hlex'.symm⟩
    have hpoint : ∀ whole fraction : List Char, ¬ ∀ d ∈ whole ++ '.' :: fraction, d.isDigit := by
      intro whole fraction hall
      exact absurd (hall '.' (by simp)) (by decide)
    rcases hform with ⟨hkind, hmore⟩ | ⟨hkind, whole, fraction, hmore, _⟩ <;>
      rcases hform' with ⟨hkind', hmore'⟩ | ⟨hkind', whole', fraction', hmore', _⟩
    · exact hkind.trans hkind'.symm
    · exact absurd (hmore' ▸ hmore) (hpoint whole' fraction')
    · exact absurd (hmore ▸ hmore') (hpoint whole fraction)
    · exact hkind.trans hkind'.symm
  by_cases hw : isWordChar c
  · obtain ⟨_, hlex, hkind⟩ := h.of_word hw
    obtain ⟨_, hlex', hkind'⟩ := h'.of_word hw
    exact ⟨hkind.trans hkind'.symm, hlex.trans hlex'.symm⟩
  · obtain ⟨hsymbol, hlex⟩ := h.of_other hq hd hw
    obtain ⟨hsymbol', hlex'⟩ := h'.of_other hq hd hw
    exact ⟨Kind.symbol?_injective hsymbol hsymbol', hlex.trans hlex'.symm⟩

theorem not_blank (h : Lexical kind (c :: more) lexeme) : isBlank c = false := by
  cases hb : isBlank c with
  | false => rfl
  | true =>
    have hclass : c ≠ '"' ∧ ¬ c.isDigit ∧ ¬ isWordChar c := by
      simp only [isBlank, Bool.or_eq_true, decide_eq_true_eq] at hb
      rcases hb with ((rfl | rfl) | rfl) | rfl <;> decide
    obtain ⟨hsymbol, _⟩ := h.of_other hclass.1 hclass.2.1 hclass.2.2
    rw [(Kind.symbol?_head hsymbol).1] at hb
    cases hb

theorem digit_of_integer (h : Lexical .integer (c :: more) lexeme) : c.isDigit := by
  generalize htext : c :: more = text at h
  cases h with
  | symbol h => cases h
  | keyword h => cases h
  | integer hne h =>
    subst htext
    exact h c List.mem_cons_self

theorem not_endOfInput (h : Lexical kind text lexeme) : kind ≠ .endOfInput := by
  rintro rfl
  cases h with
  | symbol h => cases h
  | keyword h => cases h

end Lexical

end Token

end MiniC
