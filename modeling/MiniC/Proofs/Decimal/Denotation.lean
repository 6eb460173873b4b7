import MiniC.Proofs.Decimal.Integers
import MiniC.Proofs.Decimal.ReadBack

/-!
# What numerals denote

An integer is read from an optional sign and at least one digit, however many there are and whatever
they begin with, and nothing else is read as an integer. Digits with a point between them are always
read as a floating-point number.
-/

namespace MiniC.Decimal

set_option autoImplicit false

/-- Every digit counts by its place. -/
def placeValue : List Char → Nat
  | [] => 0
  | c :: cs => (c.toNat - '0'.toNat) * 10 ^ cs.length + placeValue cs

def IsNumeral (cs : List Char) : Prop :=
  cs ≠ [] ∧ ∀ c ∈ cs, c.isDigit

/-- The text `cs` is a numeral, perhaps with a sign, and denotes the integer `i`. -/
inductive Denotes : List Char → Int → Prop
  | unsigned {cs : List Char} (h : IsNumeral cs) : Denotes cs (placeValue cs)
  | plus {cs : List Char} (h : IsNumeral cs) : Denotes ('+' :: cs) (placeValue cs)
  | minus {cs : List Char} (h : IsNumeral cs) : Denotes ('-' :: cs) (-placeValue cs)

variable {cs : List Char} {i : Int}

theorem digitsValue_eq_placeValue (cs : List Char) : digitsValue cs = placeValue cs := by
  induction cs with
  | nil => rfl
  | cons c cs ih =>
    have hsplit := digitsValue_append [c] cs
    rw [List.singleton_append] at hsplit
    rw [hsplit, ih, placeValue]
    simp [digitsValue]

theorem readNat?_eq_some_iff {n : Nat} :
    readNat? cs = some n ↔ IsNumeral cs ∧ placeValue cs = n := by
  simp only [readNat?, IsNumeral, ← digitsValue_eq_placeValue, List.all_eq_true]
  simp

theorem IsNumeral.readNat? (h : IsNumeral cs) : readNat? cs = some (placeValue cs) :=
  readNat?_eq_some_iff.mpr ⟨h, rfl⟩

theorem splitSign_cases (cs : List Char) :
    (∃ ds, cs = '+' :: ds ∧ splitSign cs = (false, ds)) ∨
    (∃ ds, cs = '-' :: ds ∧ splitSign cs = (true, ds)) ∨ splitSign cs = (false, cs) := by
  unfold splitSign
  split
  · exact .inl ⟨_, rfl, rfl⟩
  · exact .inr (.inl ⟨_, rfl, rfl⟩)
  · exact .inr (.inr rfl)

theorem IsNumeral.splitSign (h : IsNumeral cs) : splitSign cs = (false, cs) := by
  obtain ⟨c, ds, rfl⟩ := List.exists_cons_of_ne_nil h.1
  exact splitSign_of_isDigit ds (h.2 c List.mem_cons_self)

theorem denotes_of_readInt? (h : readInt? cs = some i) : Denotes cs i := by
  rw [readInt?_eq_map] at h
  obtain ⟨n, hn, hi⟩ := Option.map_eq_some_iff.mp h
  obtain ⟨hnumeral, rfl⟩ := readNat?_eq_some_iff.mp hn
  rcases splitSign_cases cs with ⟨ds, rfl, hsplit⟩ | ⟨ds, rfl, hsplit⟩ | hsplit
  · rw [hsplit] at hi hnumeral
    subst hi
    exact .plus hnumeral
  · rw [hsplit] at hi hnumeral
    subst hi
    exact .minus hnumeral
  · rw [hsplit] at hi hnumeral
    subst hi
    exact .unsigned hnumeral

theorem readInt?_of_denotes (h : Denotes cs i) : readInt? cs = some i := by
  rw [readInt?_eq_map]
  cases h with
  | unsigned h =>
    rw [h.splitSign, h.readNat?]
    rfl
  | @plus ds h =>
    have hsplit : splitSign ('+' :: ds) = (false, ds) := rfl
    rw [hsplit, h.readNat?]
    rfl
  | @minus ds h =>
    have hsplit : splitSign ('-' :: ds) = (true, ds) := rfl
    rw [hsplit, h.readNat?]
    rfl

theorem readInt?_eq_some_iff : readInt? cs = some i ↔ Denotes cs i :=
  ⟨denotes_of_readInt?, readInt?_of_denotes⟩

theorem readInt64?_eq_some_iff {n : Int64} : readInt64? cs = some n ↔ Denotes cs n.toInt := by
  rw [readInt64?, Option.bind_eq_some_iff]
  constructor
  · rintro ⟨i, hi, hn⟩
    rw [Word.ofInt?_eq_some_iff.mp hn]
    exact readInt?_eq_some_iff.mp hi
  · intro h
    exact ⟨n.toInt, readInt?_eq_some_iff.mpr h, Word.ofInt?_eq_some_iff.mpr rfl⟩

theorem IsNumeral.denotes_iff (h : IsNumeral cs) : Denotes cs i ↔ i = placeValue cs := by
  rw [← readInt?_eq_some_iff, readInt?_of_denotes (.unsigned h), Option.some.injEq, eq_comm]

theorem readFloat?_of_point {whole fraction : List Char} (hne : whole ≠ [])
    (hwhole : ∀ c ∈ whole, c.isDigit) (hfraction : ∀ c ∈ fraction, c.isDigit) :
    ∃ x, readFloat? (whole ++ '.' :: fraction) = some x := by
  obtain ⟨u, hu, _⟩ := spells_of_point hne hwhole hfraction readExponent?_nil
  rw [List.append_nil] at hu
  obtain ⟨c, cs, rfl⟩ := List.exists_cons_of_ne_nil hne
  have hsplit := splitSign_of_isDigit (cs ++ '.' :: fraction) (hwhole c List.mem_cons_self)
  rw [List.cons_append] at hu ⊢
  apply Option.isSome_iff_exists.mp
  simp only [readFloat?, hsplit, hu, Option.isSome_map]
  split
  · rfl
  · split <;> rfl

end MiniC.Decimal
