import MiniC.Text.Bytes

/-!
# Texts by their UTF-8 bytes

A text is determined by its bytes. Texts are ordered by their characters, and their bytes in UTF-8
are ordered in the same way: a greater character has a longer encoding, which then begins with a
greater byte, or one of the same length with greater digits.
-/

namespace MiniC.Text

set_option autoImplicit false

theorem ofBytes?_eq_some_iff {bs : List UInt8} {s : String} :
    ofBytes? bs = some s ↔ bytes s = bs := by
  unfold ofBytes? String.fromUTF8?
  constructor
  · intro h
    split at h
    · cases h
      rfl
    · cases h
  · rintro rfl
    have hbytes : (⟨(bytes s).toArray⟩ : ByteArray) = s.toByteArray := rfl
    simp only [hbytes, dif_pos s.isValidUTF8]
    rfl

theorem bytes_eq_flatMap (s : String) : bytes s = s.toList.flatMap String.utf8EncodeChar := by
  have h : s.toUTF8 = s.toList.utf8Encode := by
    rw [String.toUTF8_eq_toByteArray, ← String.toByteArray_ofList, String.ofList_toList]
  rw [bytes, h, List.utf8Encode]
  simp

/-- Numbers are ordered as their digits to the base 64, of which the last three are split off. -/
theorem digits_lt {v w : Nat} (h : v < w) :
    v / 262144 < w / 262144 ∨ v / 262144 = w / 262144 ∧
      (v / 4096 % 64 < w / 4096 % 64 ∨ v / 4096 % 64 = w / 4096 % 64 ∧
        (v / 64 % 64 < w / 64 % 64 ∨ v / 64 % 64 = w / 64 % 64 ∧ v % 64 < w % 64)) := by
  have hdigits : ∀ u : Nat, u =
      64 * (64 * (64 * (u / 262144) + u / 4096 % 64) + u / 64 % 64) + u % 64 := by omega
  have hsmall : ∀ u : Nat, u / 4096 % 64 < 64 ∧ u / 64 % 64 < 64 ∧ u % 64 < 64 := by omega
  have hv := hdigits v
  have hw := hdigits w
  have hv' := hsmall v
  have hw' := hsmall w
  generalize v / 262144 = v₃, v / 4096 % 64 = v₂, v / 64 % 64 = v₁, v % 64 = v₀ at *
  generalize w / 262144 = w₃, w / 4096 % 64 = w₂, w / 64 % 64 = w₁, w % 64 = w₀ at *
  omega

theorem codePoint_lt (c : Char) : c.val.toNat < 0x110000 := by
  rcases c.valid with h | h
  · omega
  · exact h.2

/-- A smaller character has smaller bytes, whatever follows. -/
theorem utf8EncodeChar_append_lt {c d : Char} (h : c < d) (xs ys : List UInt8) :
    String.utf8EncodeChar c ++ xs < String.utf8EncodeChar d ++ ys := by
  have hlt : c.val.toNat < d.val.toNat := h
  have hbound := codePoint_lt d
  simp only [String.utf8EncodeChar]
  generalize c.val.toNat = v at hlt
  generalize d.val.toNat = w at hlt hbound
  have hdigits := digits_lt hlt
  -- the two lengths: if they differ the first bytes do, else the bytes are the digits
  repeat' split
  all_goals
    simp (disch := omega) only [List.cons_append, List.nil_append, List.cons_lt_cons_iff,
      UInt8.lt_iff_toNat_lt, UInt8.toNat_ofNat', ← UInt8.toNat_inj, Nat.reducePow,
      Nat.mod_eq_of_lt]
    omega

theorem flatMap_utf8EncodeChar_lt {cs ds : List Char} (h : cs < ds) :
    cs.flatMap String.utf8EncodeChar < ds.flatMap String.utf8EncodeChar := by
  induction h with
  | @nil d ds =>
    obtain ⟨x, xs, hx⟩ := List.exists_cons_of_ne_nil (String.utf8EncodeChar_ne_nil (c := d))
    rw [List.flatMap_nil, List.flatMap_cons, hx]
    exact List.nil_lt_cons x _
  | @rel c cs d ds h =>
    rw [List.flatMap_cons, List.flatMap_cons]
    exact utf8EncodeChar_append_lt h _ _
  | @cons c cs ds _ ih =>
    rw [List.flatMap_cons, List.flatMap_cons]
    exact List.append_left_lt ih

theorem bytes_lt_of_lt {a b : String} (h : a < b) : bytes a < bytes b := by
  rw [bytes_eq_flatMap, bytes_eq_flatMap]
  exact flatMap_utf8EncodeChar_lt h

theorem bytes_lt_iff {a b : String} : bytes a < bytes b ↔ a < b := by
  refine ⟨?_, bytes_lt_of_lt⟩
  intro h
  apply Decidable.byContradiction
  intro hab
  by_cases hba : b < a
  · exact List.lt_asymm h (bytes_lt_of_lt hba)
  · have heq : a = b := String.le_antisymm (String.not_lt.mp hba) (String.not_lt.mp hab)
    rw [heq] at h
    exact List.lt_irrefl _ h

end MiniC.Text
