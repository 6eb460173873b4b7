import MiniC.Text.Bytes

/-!
# Slices of a text

A slice is given by two byte offsets. It exists only if no character is cut, that is if the text
falls into the characters before it, its own, and those behind it.
-/

namespace MiniC.Text

set_option autoImplicit false

/-- The first `n` bytes of a text and the rest, if `n` is no place inside a character. -/
def cut? (n : Nat) : List Char → Option (List Char × List Char)
  | [] => if n = 0 then some ([], []) else none
  | c :: cs =>
    if n = 0 then some ([], c :: cs)
    else if c.utf8Size ≤ n then (cut? (n - c.utf8Size) cs).map fun parts => (c :: parts.1, parts.2)
    else none

def slice? (start stop : Nat) (cs : List Char) : Option (List Char) := do
  let (upto, _) ← cut? stop cs
  let (_, text) ← cut? start upto
  return text

theorem byteSize_pos {cs : List Char} (h : cs ≠ []) : 0 < byteSize cs := by
  obtain ⟨c, cs, rfl⟩ := List.exists_cons_of_ne_nil h
  have hpos := c.utf8Size_pos
  rw [byteSize_cons]
  omega

theorem cut?_append (as bs : List Char) : cut? (byteSize as) (as ++ bs) = some (as, bs) := by
  induction as with
  | nil => cases bs <;> rfl
  | cons a as ih =>
    have hpos := a.utf8Size_pos
    rw [List.cons_append, byteSize_cons, cut?, if_neg (by omega), if_pos (by omega),
      Nat.add_sub_cancel_left, ih]
    rfl

theorem cut?_eq_some_iff {n : Nat} {cs as bs : List Char} :
    cut? n cs = some (as, bs) ↔ cs = as ++ bs ∧ byteSize as = n := by
  constructor
  · intro h
    induction cs generalizing n as with
    | nil =>
      rw [cut?] at h
      split at h
      · rename_i hn
        cases h
        exact ⟨rfl, hn.symm⟩
      · cases h
    | cons c cs ih =>
      rw [cut?] at h
      split at h
      · rename_i hn
        cases h
        exact ⟨rfl, hn.symm⟩
      · split at h
        · obtain ⟨⟨as, bs⟩, hcut, hparts⟩ := Option.map_eq_some_iff.mp h
          cases hparts
          obtain ⟨rfl, hsize⟩ := ih hcut
          refine ⟨rfl, ?_⟩
          simp only [byteSize_cons]
          omega
        · cases h
  · rintro ⟨rfl, rfl⟩
    exact cut?_append as bs

theorem slice?_append (before text behind : List Char) :
    slice? (byteSize before) (byteSize (before ++ text)) (before ++ text ++ behind) =
      some text := by
  unfold slice?
  rw [cut?_append]
  simp only [Option.bind_eq_bind, Option.bind_some]
  rw [cut?_append]
  rfl

/-- A slice is what stands between the characters that take up its two offsets. -/
theorem slice?_eq_some_iff {start stop : Nat} {cs text : List Char} :
    slice? start stop cs = some text ↔ ∃ before behind, cs = before ++ text ++ behind ∧
      byteSize before = start ∧ byteSize (before ++ text) = stop := by
  constructor
  · intro h
    unfold slice? at h
    simp only [Option.bind_eq_bind, Option.bind_eq_some_iff, Prod.exists, cut?_eq_some_iff] at h
    obtain ⟨_, behind, ⟨rfl, rfl⟩, before, _, ⟨rfl, rfl⟩, h⟩ := h
    cases h
    exact ⟨before, behind, rfl, rfl, rfl⟩
  · rintro ⟨before, behind, rfl, rfl, rfl⟩
    exact slice?_append before text behind

theorem byteSize_toList (s : String) : byteSize s.toList = s.utf8ByteSize := by
  have h : ∀ cs : List Char, (String.ofList cs).utf8ByteSize = byteSize cs := by
    intro cs
    induction cs with
    | nil => rfl
    | cons c cs ih =>
      rw [String.ofList_cons, String.utf8ByteSize_append, String.utf8ByteSize_singleton, ih,
        byteSize_cons]
  rw [← h, String.ofList_toList]

end MiniC.Text
