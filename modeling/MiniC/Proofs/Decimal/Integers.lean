import Mathlib
import MiniC.Decimal.Read

/-!
# Integers

An integer is a 64-bit integer exactly if it is in the range of these, and then it is the same
integer. Integers are read back from their decimal text. A text that is read as an integer has no
line feed.
-/

namespace MiniC

set_option autoImplicit false

namespace Word

/-- The integers of 64 bits. -/
def Fits (n : Int) : Prop :=
  -2 ^ 63 ≤ n ∧ n < 2 ^ 63

instance (n : Int) : Decidable (Fits n) :=
  inferInstanceAs (Decidable (_ ∧ _))

theorem fits_toInt (w : Int64) : Fits w.toInt :=
  ⟨w.le_toInt, w.toInt_lt⟩

theorem ofInt?_of_fits {n : Int} (h : Fits n) :
    ∃ w : Int64, ofInt? n = some w ∧ w.toInt = n := by
  refine ⟨Int64.ofInt n, ?_, Int64.toInt_ofInt_of_le h.1 h.2⟩
  apply if_pos
  rw [Int64.toInt_minValue, Int64.toInt_maxValue]
  exact ⟨h.1, Int.le_sub_one_of_lt h.2⟩

theorem ofInt?_of_not_fits {n : Int} (h : ¬ Fits n) : ofInt? n = none := by
  apply if_neg
  rw [Int64.toInt_minValue, Int64.toInt_maxValue]
  rintro ⟨hlo, hhi⟩
  exact h ⟨hlo, Int.lt_of_le_sub_one hhi⟩

theorem ofInt?_eq_some_iff {n : Int} {w : Int64} : ofInt? n = some w ↔ w.toInt = n := by
  constructor
  · intro h
    by_cases hn : Fits n
    · obtain ⟨v, hv, rfl⟩ := ofInt?_of_fits hn
      rw [hv] at h
      cases h
      rfl
    · rw [ofInt?_of_not_fits hn] at h
      cases h
  · rintro rfl
    obtain ⟨v, hv, hvalue⟩ := ofInt?_of_fits (fits_toInt w)
    rw [hv, Int64.toInt_inj.mp hvalue]

end Word

namespace Decimal

theorem digitsValue_toDigits (n : Nat) : digitsValue (Nat.toDigits 10 n) = n :=
  Nat.ofDigitChars_eq_foldl.symm.trans Nat.ofDigitChars_ten_toDigits

theorem isDigit_toDigits {n : Nat} : ∀ c ∈ Nat.toDigits 10 n, c.isDigit := by
  intro c hc
  exact Nat.isDigit_of_mem_toDigits (by decide) (by decide) hc

theorem readNat?_toDigits (n : Nat) : readNat? (Nat.toDigits 10 n) = some n := by
  rw [readNat?, if_pos ⟨Nat.toDigits_ne_nil, List.all_eq_true.mpr isDigit_toDigits⟩,
    digitsValue_toDigits]

theorem readInt?_eq_map (cs : List Char) :
    readInt? cs = (readNat? (splitSign cs).2).map fun n : Nat =>
      if (splitSign cs).1 then -(n : Int) else n := by
  rw [readInt?]
  rcases splitSign cs with ⟨negative, digits⟩
  dsimp only
  cases readNat? digits <;> rfl

theorem splitSign_of_isDigit {c : Char} (cs : List Char) (h : c.isDigit) :
    splitSign (c :: cs) = (false, c :: cs) := by
  unfold splitSign
  split
  · next heq =>
    cases heq
    exact absurd h (by decide)
  · next heq =>
    cases heq
    exact absurd h (by decide)
  · rfl

theorem readInt?_toDigits (n : Nat) : readInt? (Nat.toDigits 10 n) = some (n : Int) := by
  have hread := readNat?_toDigits n
  obtain ⟨c, cs, hcs⟩ := List.exists_cons_of_ne_nil (Nat.toDigits_ne_nil (b := 10) (n := n))
  have hdigit := isDigit_toDigits (n := n) c (by rw [hcs]; exact List.mem_cons_self)
  rw [hcs] at hread ⊢
  rw [readInt?_eq_map, splitSign_of_isDigit cs hdigit, hread]
  rfl

theorem readInt?_toString (i : Int) : readInt? (toString i).toList = some i := by
  cases i with
  | ofNat n =>
    rw [show toString (Int.ofNat n) = n.repr from rfl, Nat.toList_repr]
    exact readInt?_toDigits n
  | negSucc n =>
    have hsign : splitSign ("-".toList ++ Nat.toDigits 10 (n + 1)) =
        (true, Nat.toDigits 10 (n + 1)) := rfl
    rw [show toString (Int.negSucc n) = "-" ++ (n + 1).repr from rfl, String.toList_append,
      Nat.toList_repr, readInt?_eq_map, hsign, readNat?_toDigits]
    rfl

theorem lineFeed_not_mem_of_isDigit {cs : List Char} (h : ∀ c ∈ cs, c.isDigit) : '\n' ∉ cs := by
  intro hmem
  exact absurd (h _ hmem) (by decide)

theorem lineFeed_not_mem_of_readNat? {cs : List Char} {n : Nat} (h : readNat? cs = some n) :
    '\n' ∉ cs := by
  unfold readNat? at h
  split at h
  · next hdigits => exact lineFeed_not_mem_of_isDigit (List.all_eq_true.mp hdigits.2)
  · cases h

theorem lineFeed_not_mem_of_splitSign {cs : List Char} (h : '\n' ∉ (splitSign cs).2) :
    '\n' ∉ cs := by
  unfold splitSign at h
  split at h <;> simpa using h

theorem lineFeed_not_mem_of_readInt? {cs : List Char} {i : Int} (h : readInt? cs = some i) :
    '\n' ∉ cs := by
  rw [readInt?_eq_map] at h
  obtain ⟨n, hn, _⟩ := Option.map_eq_some_iff.mp h
  exact lineFeed_not_mem_of_splitSign (lineFeed_not_mem_of_readNat? hn)

theorem lineFeed_not_mem_toString (i : Int) : '\n' ∉ (toString i).toList :=
  lineFeed_not_mem_of_readInt? (readInt?_toString i)

end Decimal

end MiniC
