import MiniC.Proofs.Token.Longest

/-!
# The piece at the head of a text

Blanks and comments come first, then the longest token; what begins no token is a stray character or
a broken literal. `munch` finds the piece that these rules give (`begins_munch`), and they give no
other one (`Begins.unique`).
-/

namespace MiniC.Token

set_option autoImplicit false

open Text (head?_dropWhile run_of_not_mem run_unique)

/-- The rules for the piece at the head of a text: what it is, its characters, and those that follow
it. -/
inductive Begins : Piece → List Char → List Char → Prop
  | blank {c : Char} {rest : List Char} (hc : c ∈ [' ', '\t', '\r', '\n']) :
    Begins .blank [c] rest
  | comment {body rest : List Char} (hbody : '\n' ∉ body) (hrest : ∀ c ∈ rest.head?, c = '\n') :
    Begins .blank ('/' :: '/' :: body) rest
  | token {kind : Kind} {lexeme text rest : List Char} (hcomment : ¬ ['/', '/'] <+: text ++ rest)
    (h : Longest kind lexeme text rest) (hpoint : kind = .integer → rest.head? ≠ some '.') :
    Begins (.token kind lexeme) text rest
  | malformedFloat {text rest : List Char} (hne : text ≠ []) (h : ∀ c ∈ text, c.isDigit)
    (hrest : ∀ c ∈ rest.head?, ¬ c.isDigit) : Begins .malformedFloat (text ++ ['.']) rest
  | unterminatedString {cs : List Char} (h : Tokenless ('"' :: cs)) :
    Begins .unterminatedString ('"' :: cs) []
  | stray {c : Char} {rest : List Char} (hblank : c ∉ [' ', '\t', '\r', '\n']) (hquote : c ≠ '"')
    (h : Tokenless (c :: rest)) : Begins .stray [c] rest

theorem isBlank_iff {c : Char} : isBlank c ↔ c ∈ [' ', '\t', '\r', '\n'] := by
  simp only [isBlank, Bool.or_eq_true, decide_eq_true_eq, List.mem_cons, List.not_mem_nil, or_false]
  tauto

section Munch

variable {c : Char} {cs : List Char}

theorem comment_iff : ['/', '/'] <+: c :: cs ↔ c = '/' ∧ cs.head? = some '/' := by
  cases cs <;> simp [List.cons_prefix_cons, eq_comm]

theorem begins_munchComment (h : cs.head? = some '/') :
    Begins (munchComment cs).piece ('/' :: (munchComment cs).more) (munchComment cs).rest := by
  cases cs with
  | nil => cases h
  | cons d cs =>
    cases h
    simp only [munchComment]
    rw [List.takeWhile_cons_of_pos (by decide), List.dropWhile_cons_of_pos (by decide)]
    refine .comment ?_ ?_
    · intro hmem
      simpa using List.mem_takeWhile_imp hmem
    · intro d hd
      simpa using head?_dropWhile _ _ d hd

theorem begins_munchString :
    Begins (munchString cs).piece ('"' :: (munchString cs).more) (munchString cs).rest := by
  unfold munchString
  split
  · rename_i hdrop
    have hnone := List.dropWhile_eq_nil_iff.mp hdrop
    refine .unterminatedString (tokenless_of_quote ?_)
    intro hmem
    simpa using hnone '"' hmem
  · rename_i quote rest hdrop
    have hquote : quote = '"' := by
      have hstop := head?_dropWhile (fun d => (d ≠ '"' : Bool)) cs quote (by rw [hdrop]; rfl)
      simpa using hstop
    subst hquote
    refine .token ?_ (longest_string ?_) (by simp)
    · rw [List.cons_append, comment_iff]
      simp
    · intro hmem
      simpa using List.mem_takeWhile_imp hmem

theorem begins_munchNumber (hc : c.isDigit) :
    Begins (munchNumber c cs).piece (c :: (munchNumber c cs).more) (munchNumber c cs).rest := by
  have hcomment : ∀ rest, ¬ ['/', '/'] <+: c :: rest := by
    intro rest hslash
    rw [(comment_iff.mp hslash).1] at hc
    exact absurd hc (by decide)
  have hwhole : ∀ d ∈ cs.takeWhile Char.isDigit, d.isDigit := fun d hd => List.mem_takeWhile_imp hd
  have hstop := head?_dropWhile Char.isDigit cs
  unfold munchNumber
  dsimp only
  split
  · rename_i tail hdrop
    split
    · rename_i htake
      refine .malformedFloat (List.cons_ne_nil c _) (List.forall_mem_cons.mpr ⟨hc, hwhole⟩) ?_
      intro d hd hdigit
      obtain ⟨back, rfl⟩ := List.head?_eq_some_iff.mp hd
      rw [List.takeWhile_cons_of_pos hdigit] at htake
      cases htake
    · rename_i hne
      have hfraction : ∀ d ∈ tail.takeWhile Char.isDigit, d.isDigit :=
        fun d hd => List.mem_takeWhile_imp hd
      refine .token (hcomment _) (longest_decimal hc hwhole ?_ hfraction ?_) (by simp)
      · exact hne
      · exact head?_dropWhile _ _
  · rename_i hpoint
    refine .token (hcomment _) (longest_integer hc hwhole hstop ?_) ?_
    · intro tail htail
      exact absurd htail (hpoint tail)
    · intro _ hhead
      obtain ⟨tail, htail⟩ := List.head?_eq_some_iff.mp hhead
      exact hpoint tail htail

/-- Only a number can be broken by a point. -/
theorem Begins.of_longest {kind : Kind} {lexeme more rest : List Char} (hd : ¬ c.isDigit)
    (hcomment : ¬ ['/', '/'] <+: c :: (more ++ rest)) (h : Longest kind lexeme (c :: more) rest) :
    Begins (.token kind lexeme) (c :: more) rest := by
  refine .token hcomment h ?_
  rintro rfl
  exact absurd h.lexical.digit_of_integer hd

theorem begins_munchWord (hc : isWordChar c) :
    Begins (munchWord c cs).piece (c :: (munchWord c cs).more) (munchWord c cs).rest := by
  have hmore : ∀ d ∈ cs.takeWhile isWordChar, isWordChar d := fun d hd => List.mem_takeWhile_imp hd
  refine .of_longest ?_ ?_ (longest_word hc hmore (head?_dropWhile isWordChar cs))
  · intro hd
    rw [isWordChar_of_isDigit hd] at hc
    cases hc
  · intro hslash
    rw [(comment_iff.mp hslash).1] at hc
    exact absurd hc (by decide)

theorem begins_munchSingle (hcomment : ¬ ['/', '/'] <+: c :: cs) (hb : ¬ isBlank c)
    (hclass : c ≠ '"' ∧ ¬ c.isDigit ∧ ¬ isWordChar c)
    (hpair : ∀ d ∈ cs.head?, Kind.pair? c d = none) :
    Begins (munchSingle c cs).piece (c :: (munchSingle c cs).more) (munchSingle c cs).rest := by
  unfold munchSingle
  split
  · rename_i kind hkind
    exact .of_longest hclass.2.1 hcomment (longest_single hclass hpair hkind)
  · rename_i hnone
    exact .stray (mt isBlank_iff.mpr hb) hclass.1 (tokenless_of_other hclass hpair hnone)

theorem begins_munchSymbol (hcomment : ¬ ['/', '/'] <+: c :: cs) (hb : ¬ isBlank c)
    (hclass : c ≠ '"' ∧ ¬ c.isDigit ∧ ¬ isWordChar c) :
    Begins (munchSymbol c cs).piece (c :: (munchSymbol c cs).more) (munchSymbol c cs).rest := by
  cases cs with
  | nil => exact begins_munchSingle hcomment hb hclass (by simp)
  | cons d cs =>
    rw [munchSymbol]
    cases hpair : Kind.pair? c d with
    | some kind => exact .of_longest hclass.2.1 hcomment (longest_pair hclass hpair)
    | none =>
      refine begins_munchSingle hcomment hb hclass ?_
      intro d' hd'
      cases hd'
      exact hpair

/-- `munch` follows the rules. -/
theorem begins_munch (c : Char) (cs : List Char) :
    Begins (munch c cs).piece (c :: (munch c cs).more) (munch c cs).rest := by
  unfold munch
  split
  · rename_i hb
    exact .blank (isBlank_iff.mp hb)
  rename_i hb
  split
  · rename_i hcomment
    rw [hcomment.1]
    exact begins_munchComment hcomment.2
  rename_i hcomment
  split
  · rename_i hq
    rw [hq]
    exact begins_munchString
  rename_i hq
  split
  · rename_i hd
    exact begins_munchNumber hd
  rename_i hd
  split
  · rename_i hw
    exact begins_munchWord hw
  rename_i hw
  rw [← comment_iff] at hcomment
  exact begins_munchSymbol hcomment hb ⟨hq, hd, hw⟩

theorem Begins.ne_nil {piece : Piece} {taken rest : List Char} (h : Begins piece taken rest) :
    taken ≠ [] := by
  cases h with
  | token hcomment h => exact h.lexical.ne_nil
  | _ => simp

/-- Where a longest token stands and no comment, the piece is this token, or a number broken by a
point. -/
theorem Begins.of_longest_eq {kind : Kind} {lexeme text rest : List Char}
    {piece : Piece} {taken rest' : List Char} (h : Longest kind lexeme text rest)
    (hcomment : ¬ ['/', '/'] <+: text ++ rest) (hb : Begins piece taken rest')
    (he : taken ++ rest' = text ++ rest) :
    (piece = .token kind lexeme ∧ taken = text ∧ rest' = rest ∧
      (kind = .integer → rest.head? ≠ some '.')) ∨
    (piece = .malformedFloat ∧ kind = .integer ∧ taken = text ++ ['.'] ∧ rest = '.' :: rest') := by
  have hprefix : text <+: taken ++ rest' := by
    rw [he]
    exact List.prefix_append ..
  cases hb with
  | blank hc =>
    obtain ⟨more, rfl, _⟩ := h.lexical.of_prefix hprefix
    have hblank := h.lexical.not_blank
    rw [isBlank_iff.mpr hc] at hblank
    cases hblank
  | comment hbody hrest =>
    rw [← he] at hcomment
    exact absurd ⟨_, rfl⟩ hcomment
  | token hcomment' h' hpoint =>
    obtain ⟨rfl, rfl, rfl, rfl⟩ := h'.unique h he
    exact .inl ⟨rfl, rfl, rfl, hpoint⟩
  | malformedFloat hne hdigits hrest =>
    rw [List.append_assoc] at he
    obtain ⟨rfl, rfl, rfl, rfl⟩ := (longest_of_malformed hne hdigits hrest).unique h he
    exact .inr ⟨rfl, rfl, rfl, rfl⟩
  | unterminatedString hnone =>
    rw [List.append_nil] at hprefix
    exact absurd hprefix (hnone _ _ _ h.lexical)
  | stray hblank hquote hnone => exact absurd hprefix (hnone _ _ _ h.lexical)

/-- Where no token stands and no blank, the piece is a broken string or a stray character. -/
theorem Begins.of_tokenless_eq {piece : Piece} {taken rest' : List Char}
    (hblank : c ∉ [' ', '\t', '\r', '\n']) (h : Tokenless (c :: cs)) (hb : Begins piece taken rest')
    (he : taken ++ rest' = c :: cs) :
    (c = '"' ∧ piece = .unterminatedString ∧ taken = c :: cs ∧ rest' = []) ∨
    (c ≠ '"' ∧ piece = .stray ∧ taken = [c] ∧ rest' = cs) := by
  cases hb with
  | blank hc =>
    injection he with hfirst
    rw [hfirst] at hc
    exact absurd hc hblank
  | comment hbody hrest =>
    injection he with hfirst
    subst hfirst
    exact absurd ⟨cs, rfl⟩ (h .slash ['/'] ['/'] (.symbol rfl))
  | token hcomment hlongest =>
    rw [← he] at h
    exact absurd (List.prefix_append ..) (h _ _ _ hlongest.lexical)
  | malformedFloat hne hdigits =>
    rw [← he, List.append_assoc] at h
    exact absurd (List.prefix_append ..) (h _ _ _ (.integer hne hdigits))
  | unterminatedString hnone =>
    rw [List.append_nil] at he
    injection he with hfirst hcs
    subst hfirst hcs
    exact .inl ⟨rfl, rfl, rfl, rfl⟩
  | stray _ hquote hnone =>
    injection he with hfirst hcs
    subst hfirst hcs
    exact .inr ⟨hquote, rfl, rfl, rfl⟩

section Unique

variable {piece piece' : Piece} {taken taken' rest rest' : List Char}

theorem Begins.unique_of_ne_blank (h : Begins piece taken rest) (hp : piece ≠ .blank)
    (h' : Begins piece' taken' rest') (he : taken' ++ rest' = taken ++ rest) :
    piece' = piece ∧ taken' = taken ∧ rest' = rest := by
  cases h with
  | blank => exact absurd rfl hp
  | comment => exact absurd rfl hp
  | token hcomment hlongest hpoint =>
    rcases h'.of_longest_eq hlongest hcomment he with ⟨rfl, rfl, rfl, _⟩ | ⟨_, rfl, _, rfl⟩
    · exact ⟨rfl, rfl, rfl⟩
    · exact absurd rfl (hpoint rfl)
  | @malformedFloat text rest hne hdigits hrest =>
    have hlongest := longest_of_malformed hne hdigits hrest
    rw [List.append_assoc] at he
    have hcomment : ¬ ['/', '/'] <+: text ++ '.' :: rest := by
      intro hslash
      obtain ⟨c, more, rfl⟩ := List.exists_cons_of_ne_nil hne
      have hc := hdigits c List.mem_cons_self
      rw [(comment_iff.mp hslash).1] at hc
      exact absurd hc (by decide)
    rcases h'.of_longest_eq hlongest hcomment he with ⟨_, _, _, hpoint⟩ | ⟨rfl, _, rfl, htail⟩
    · exact absurd rfl (hpoint rfl)
    · injection htail with _ htail
      exact ⟨rfl, rfl, htail.symm⟩
  | unterminatedString hnone =>
    rw [List.append_nil] at he
    rcases h'.of_tokenless_eq (by decide) hnone he with ⟨_, rfl, rfl, rfl⟩ | ⟨hquote, _⟩
    · exact ⟨rfl, rfl, rfl⟩
    · exact absurd rfl hquote
  | stray hblank hquote hnone =>
    rcases h'.of_tokenless_eq hblank hnone he with ⟨hc, _⟩ | ⟨_, rfl, rfl, rfl⟩
    · exact absurd hc hquote
    · exact ⟨rfl, rfl, rfl⟩

theorem Begins.unique_of_blank (h : Begins .blank taken rest) (h' : Begins .blank taken' rest')
    (he : taken' ++ rest' = taken ++ rest) : taken' = taken ∧ rest' = rest := by
  cases h with
  | blank hc =>
    cases h' with
    | blank hc' =>
      injection he with hfirst hrest
      rw [hfirst]
      exact ⟨rfl, hrest⟩
    | comment hbody' hrest' =>
      injection he with hfirst
      rw [← hfirst] at hc
      exact absurd hc (by decide)
  | comment hbody hrest =>
    cases h' with
    | blank hc' =>
      injection he with hfirst
      rw [hfirst] at hc'
      exact absurd hc' (by decide)
    | comment hbody' hrest' =>
      injection he with _ he
      injection he with _ he
      have hstop : ∀ cs : List Char, (∀ d ∈ cs.head?, d = '\n') →
          ∀ d ∈ cs.head?, ¬ (d ≠ '\n' : Bool) := by
        intro cs hcs d hd
        simp [hcs d hd]
      obtain ⟨rfl, rfl⟩ := run_unique (run_of_not_mem hbody') (hstop _ hrest')
        (run_of_not_mem hbody) (hstop _ hrest) he
      exact ⟨rfl, rfl⟩

/-- The rules give one piece only. -/
theorem Begins.unique (h : Begins piece taken rest) (h' : Begins piece' taken' rest')
    (he : taken' ++ rest' = taken ++ rest) : piece' = piece ∧ taken' = taken ∧ rest' = rest := by
  by_cases hp : piece = .blank
  · subst hp
    by_cases hp' : piece' = .blank
    · subst hp'
      exact ⟨rfl, h.unique_of_blank h' he⟩
    · obtain ⟨rfl, rfl, rfl⟩ := h'.unique_of_ne_blank hp' h he.symm
      exact ⟨rfl, rfl, rfl⟩
  · exact h.unique_of_ne_blank hp h' he

end Unique

end Munch

end MiniC.Token
