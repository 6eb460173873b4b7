import MiniC.Proofs.Text.Runs
import MiniC.Proofs.Token.Lexical

/-!
# The longest token

Which token is the longest at the head of a text: strings end at the next quote, words and numbers
where their characters end, and symbols have at most two characters.
-/

namespace MiniC.Token

set_option autoImplicit false

open Text (length_le_of_run prefix_of_run run_of_not_mem)

/-- A token stands at the head of `text ++ rest`, and no longer one does. -/
structure Longest (kind : Kind) (lexeme text rest : List Char) : Prop where
  lexical : Lexical kind text lexeme
  maximal : ∀ kind' lexeme' text', Lexical kind' text' lexeme' → text' <+: text ++ rest →
    text'.length ≤ text.length

def Tokenless (cs : List Char) : Prop :=
  ∀ kind lexeme text, Lexical kind text lexeme → ¬ text <+: cs

section Tokens

variable {kind kind' : Kind} {lexeme lexeme' text text' rest rest' more : List Char} {c : Char}

theorem Lexical.of_prefix (h : Lexical kind text lexeme) (hp : text <+: c :: rest) :
    ∃ more, text = c :: more ∧ more <+: rest := by
  obtain ⟨first, more, rfl⟩ := List.exists_cons_of_ne_nil h.ne_nil
  obtain ⟨rfl, hmore⟩ := List.cons_prefix_cons.mp hp
  exact ⟨more, rfl, hmore⟩

theorem Longest.unique (h : Longest kind lexeme text rest) (h' : Longest kind' lexeme' text' rest')
    (he : text ++ rest = text' ++ rest') :
    kind = kind' ∧ lexeme = lexeme' ∧ text = text' ∧ rest = rest' := by
  have hle : text.length ≤ text'.length :=
    h'.maximal _ _ _ h.lexical (by rw [← he]; exact List.prefix_append ..)
  have hle' : text'.length ≤ text.length :=
    h.maximal _ _ _ h'.lexical (by rw [he]; exact List.prefix_append ..)
  obtain ⟨rfl, rfl⟩ := List.append_inj he (Nat.le_antisymm hle hle')
  obtain ⟨rfl, rfl⟩ := h.lexical.unique h'.lexical
  exact ⟨rfl, rfl, rfl, rfl⟩

/-- The longest token does not go on with the next character. -/
theorem Longest.not_extended (h : Longest kind lexeme text rest) :
    ∀ d ∈ rest.head?, ∀ kind' lexeme', ¬ Lexical kind' (text ++ [d]) lexeme' := by
  intro d hd kind' lexeme' h'
  obtain ⟨tail, rfl⟩ := List.head?_eq_some_iff.mp hd
  have hle := h.maximal kind' lexeme' (text ++ [d]) h' ⟨tail, by simp⟩
  rw [List.length_append, List.length_singleton] at hle
  omega

theorem longest_cons (h : Lexical kind (c :: more) lexeme)
    (hmax : ∀ kind' lexeme' more', Lexical kind' (c :: more') lexeme' → more' <+: more ++ rest →
      more'.length ≤ more.length) : Longest kind lexeme (c :: more) rest := by
  refine ⟨h, ?_⟩
  intro kind' lexeme' text' h' hp
  obtain ⟨more', rfl, hp'⟩ := h'.of_prefix hp
  exact Nat.succ_le_succ (hmax kind' lexeme' more' h' hp')

/-- A string reaches to the next quote. -/
theorem longest_string (hbody : '"' ∉ lexeme) :
    Longest .string lexeme ('"' :: (lexeme ++ ['"'])) rest := by
  refine longest_cons (.string hbody) ?_
  intro kind' lexeme' more' h' hp
  obtain ⟨_, hbody', rfl⟩ := h'.of_quote
  rw [List.append_assoc] at hp
  obtain ⟨rfl, _⟩ :=
    prefix_of_run (run_of_not_mem hbody) (by simp) (run_of_not_mem hbody') (by simp) hp
  exact Nat.le_refl _

theorem lexical_word (hc : isWordChar c) (hmore : ∀ d ∈ more, isWordChar d) :
    Lexical ((Kind.keyword? (c :: more)).getD .identifier) (c :: more) (c :: more) := by
  cases hkey : Kind.keyword? (c :: more) with
  | some kind => exact .keyword (Kind.keyword?_eq_some_iff.mp hkey)
  | none =>
    have hall : ∀ d ∈ c :: more, isWordChar d := List.forall_mem_cons.mpr ⟨hc, hmore⟩
    refine .identifier (by simp) (fun d hd => isWordChar_iff.mp (hall d hd)) ?_
    intro kind hkind
    rw [← Kind.keyword?_eq_some_iff, hkey] at hkind
    cases hkind

/-- A word reaches to the first character that is no letter. -/
theorem longest_word (hc : isWordChar c) (hmore : ∀ d ∈ more, isWordChar d)
    (hrest : ∀ d ∈ rest.head?, ¬ isWordChar d) :
    Longest ((Kind.keyword? (c :: more)).getD .identifier) (c :: more) (c :: more) rest := by
  refine longest_cons (lexical_word hc hmore) ?_
  intro kind' lexeme' more' h' hp
  exact length_le_of_run hmore hrest (h'.of_word hc).1 hp

/-- A whole number reaches to the first character that is no digit, unless a point and a digit
follow. -/
theorem longest_integer (hc : c.isDigit) (hmore : ∀ d ∈ more, d.isDigit)
    (hrest : ∀ d ∈ rest.head?, ¬ d.isDigit)
    (hpoint : ∀ tail, rest = '.' :: tail → ∀ d ∈ tail.head?, ¬ d.isDigit) :
    Longest .integer (c :: more) (c :: more) rest := by
  refine longest_cons (.integer (by simp) (List.forall_mem_cons.mpr ⟨hc, hmore⟩)) ?_
  intro kind' lexeme' more' h' hp
  rcases (h'.of_digit hc).2 with ⟨_, hmore'⟩ | ⟨_, whole, fraction, rfl, hwhole, hne, hfraction⟩
  · exact length_le_of_run hmore hrest hmore' hp
  · obtain ⟨_, back, hback⟩ := prefix_of_run hmore hrest hwhole (by decide) hp
    obtain ⟨d, fraction, rfl⟩ := List.exists_cons_of_ne_nil hne
    have hd := hfraction d List.mem_cons_self
    exact absurd hd (hpoint _ hback.symm d rfl)

/-- A decimal number reaches to the first character behind its point that is no digit. -/
theorem longest_decimal {whole fraction : List Char} (hc : c.isDigit)
    (hwhole : ∀ d ∈ whole, d.isDigit) (hne : fraction ≠ []) (hfraction : ∀ d ∈ fraction, d.isDigit)
    (hrest : ∀ d ∈ rest.head?, ¬ d.isDigit) :
    Longest .decimal (c :: (whole ++ '.' :: fraction)) (c :: (whole ++ '.' :: fraction)) rest := by
  have hstop : ∀ d ∈ ('.' :: fraction ++ rest).head?, ¬ d.isDigit := by
    intro d hd
    cases hd
    decide
  refine longest_cons (.decimal (List.cons_ne_nil c whole)
    (List.forall_mem_cons.mpr ⟨hc, hwhole⟩) hne hfraction) ?_
  intro kind' lexeme' more' h' hp
  rw [List.append_assoc] at hp
  rcases (h'.of_digit hc).2 with ⟨_, hmore'⟩ | ⟨_, whole', fraction', rfl, hwhole', _, hfraction'⟩
  · have hle := length_le_of_run hwhole hstop hmore' hp
    simp only [List.length_append]
    omega
  · obtain ⟨rfl, hp'⟩ := prefix_of_run hwhole hstop hwhole' (by decide) hp
    have hle := length_le_of_run hfraction hrest hfraction' (List.cons_prefix_cons.mp hp').2
    simp only [List.length_append, List.length_cons]
    omega

/-- Where no two characters are a symbol, a symbol is one character. -/
theorem single?_of_symbol (hclass : c ≠ '"' ∧ ¬ c.isDigit ∧ ¬ isWordChar c)
    (hpair : ∀ d ∈ rest.head?, Kind.pair? c d = none) (h : Lexical kind (c :: more) lexeme)
    (hp : more <+: rest) : more = [] ∧ Kind.single? c = some kind := by
  obtain ⟨hsymbol, _⟩ := h.of_other hclass.1 hclass.2.1 hclass.2.2
  match more, Kind.symbol?_length hsymbol with
  | [], _ => exact ⟨rfl, Kind.single?_eq_some_iff.mpr hsymbol⟩
  | [d], _ =>
    obtain ⟨back, rfl⟩ := hp
    rw [← Kind.pair?_eq_some_iff, hpair d rfl] at hsymbol
    cases hsymbol

theorem longest_pair (hclass : c ≠ '"' ∧ ¬ c.isDigit ∧ ¬ isWordChar c) {d : Char}
    (h : Kind.pair? c d = some kind) : Longest kind [c, d] [c, d] rest := by
  refine longest_cons (.symbol (Kind.pair?_eq_some_iff.mp h)) ?_
  intro kind' lexeme' more' h' hp
  obtain ⟨hsymbol, _⟩ := h'.of_other hclass.1 hclass.2.1 hclass.2.2
  have hlength := Kind.symbol?_length hsymbol
  simp only [List.length_cons] at hlength ⊢
  omega

theorem longest_single (hclass : c ≠ '"' ∧ ¬ c.isDigit ∧ ¬ isWordChar c)
    (hpair : ∀ d ∈ rest.head?, Kind.pair? c d = none) (h : Kind.single? c = some kind) :
    Longest kind [c] [c] rest := by
  refine longest_cons (.symbol (Kind.single?_eq_some_iff.mp h)) ?_
  intro kind' lexeme' more' h' hp
  obtain ⟨rfl, _⟩ := single?_of_symbol hclass hpair h' hp
  exact Nat.le_refl _

theorem tokenless_of_other (hclass : c ≠ '"' ∧ ¬ c.isDigit ∧ ¬ isWordChar c)
    (hpair : ∀ d ∈ rest.head?, Kind.pair? c d = none) (h : Kind.single? c = none) :
    Tokenless (c :: rest) := by
  intro kind lexeme text hlex hp
  obtain ⟨more, rfl, hp'⟩ := hlex.of_prefix hp
  obtain ⟨_, hsingle⟩ := single?_of_symbol hclass hpair hlex hp'
  rw [h] at hsingle
  cases hsingle

/-- A quote begins no token if no other quote follows. -/
theorem tokenless_of_quote (h : '"' ∉ rest) : Tokenless ('"' :: rest) := by
  intro kind lexeme text hlex hp
  obtain ⟨more, rfl, hp'⟩ := hlex.of_prefix hp
  obtain ⟨_, _, rfl⟩ := hlex.of_quote
  exact h (hp'.subset (by simp))

/-- A number broken by a point is still the longest token. -/
theorem longest_of_malformed {text rest : List Char} (hne : text ≠ []) (h : ∀ c ∈ text, c.isDigit)
    (hrest : ∀ c ∈ rest.head?, ¬ c.isDigit) : Longest .integer text text ('.' :: rest) := by
  obtain ⟨c, more, rfl⟩ := List.exists_cons_of_ne_nil hne
  obtain ⟨hc, hmore⟩ := List.forall_mem_cons.mp h
  refine longest_integer hc hmore ?_ ?_
  · intro d hd
    cases hd
    decide
  · intro tail htail
    cases htail
    exact hrest

theorem forall_mem_append_singleton {p : Char → Bool} {d : Char} (hmore : ∀ c ∈ more, p c)
    (hd : p d) : ∀ c ∈ more ++ [d], p c := by
  intro c hc
  rcases List.mem_append.mp hc with hc | hc
  · exact hmore c hc
  · rw [List.mem_singleton.mp hc]
    exact hd

/-- A token is the longest one if it does not go on with the next character. A whole number goes on
behind a point. -/
theorem Lexical.longest_of_not_extended (h : Lexical kind text lexeme)
    (hnot : ∀ d ∈ rest.head?, ∀ kind' lexeme', ¬ Lexical kind' (text ++ [d]) lexeme')
    (hpoint : kind = .integer → rest.head? ≠ some '.') : Longest kind lexeme text rest := by
  obtain ⟨c, more, rfl⟩ := List.exists_cons_of_ne_nil h.ne_nil
  rcases h.form with ⟨hsymbol, rfl⟩ | ⟨hc, hmore, rfl, rfl⟩ | ⟨hc, hmore, rfl, rfl⟩ |
    ⟨hc, rfl, rfl, whole, fraction, rfl, hwhole, hne, hfraction⟩ | ⟨rfl, hbody, rfl, rfl⟩
  · obtain ⟨_, hquote, hnumber, hletter⟩ := Kind.symbol?_head hsymbol
    have hclass : c ≠ '"' ∧ ¬ c.isDigit ∧ ¬ isWordChar c := by simp [hquote, hnumber, hletter]
    match more, Kind.symbol?_length hsymbol with
    | [], _ =>
      refine longest_single hclass ?_ (Kind.single?_eq_some_iff.mpr hsymbol)
      intro d hd
      rw [Option.eq_none_iff_forall_ne_some]
      intro kind' hpair
      exact hnot d hd kind' _ (.symbol (Kind.pair?_eq_some_iff.mp hpair))
    | [d], _ => exact longest_pair hclass (Kind.pair?_eq_some_iff.mpr hsymbol)
  · apply longest_word hc hmore
    intro d hd hword
    exact hnot d hd _ _ (lexical_word hc (forall_mem_append_singleton hmore hword))
  · apply longest_integer hc hmore
    · intro d hd hdigit
      have hall : ∀ e ∈ c :: (more ++ [d]), e.isDigit :=
        List.forall_mem_cons.mpr ⟨hc, forall_mem_append_singleton hmore hdigit⟩
      exact hnot d hd _ _ (.integer (List.cons_ne_nil c _) hall)
    · rintro tail rfl
      exact absurd rfl (hpoint rfl)
  · apply longest_decimal hc hwhole hne hfraction
    intro d hd hdigit
    have hall : ∀ e ∈ c :: whole, e.isDigit := List.forall_mem_cons.mpr ⟨hc, hwhole⟩
    have hlonger := Lexical.decimal (List.cons_ne_nil c whole) hall
      (List.append_ne_nil_of_left_ne_nil hne [d]) (forall_mem_append_singleton hfraction hdigit)
    exact hnot d hd _ _ (by simpa using hlonger)
  · exact longest_string hbody

/-- No token begins where none of one or two characters does, but for strings. -/
theorem tokenless_of_not_lexical (hquote : c ≠ '"')
    (hsingle : ∀ kind lexeme, ¬ Lexical kind [c] lexeme)
    (hpair : ∀ d ∈ rest.head?, ∀ kind lexeme, ¬ Lexical kind [c, d] lexeme) :
    Tokenless (c :: rest) := by
  have hdigit : ¬ c.isDigit := by
    intro hc
    exact hsingle _ _ (.integer (List.cons_ne_nil c []) (by simpa using hc))
  have hword : ¬ isWordChar c := by
    intro hc
    exact hsingle _ _ (lexical_word hc nofun)
  apply tokenless_of_other ⟨hquote, hdigit, hword⟩
  · intro d hd
    rw [Option.eq_none_iff_forall_ne_some]
    intro kind hkind
    exact hpair d hd kind _ (.symbol (Kind.pair?_eq_some_iff.mp hkind))
  · rw [Option.eq_none_iff_forall_ne_some]
    intro kind hkind
    exact hsingle kind _ (.symbol (Kind.single?_eq_some_iff.mp hkind))

end Tokens

end MiniC.Token
