/-!
# Sequences of steps that may fail

When a sequence in `Except` succeeds and when it fails, by its parts.
-/

namespace MiniC

set_option autoImplicit false

variable {ε α β : Type}

theorem bind_eq_ok_iff {r : Except ε α} {k : α → Except ε β} {b : β} :
    r >>= k = .ok b ↔ ∃ a, r = .ok a ∧ k a = .ok b := by
  cases r with
  | error e => simp [bind, Except.bind]
  | ok a => simp [bind, Except.bind]

theorem bind_eq_error_iff {r : Except ε α} {k : α → Except ε β} {e : ε} :
    r >>= k = .error e ↔ r = .error e ∨ ∃ a, r = .ok a ∧ k a = .error e := by
  cases r with
  | error e' => simp [bind, Except.bind]
  | ok a => simp [bind, Except.bind]

theorem map_eq_ok_iff {r : Except ε α} {f : α → β} {b : β} :
    r.map f = .ok b ↔ ∃ a, r = .ok a ∧ f a = b := by
  cases r <;> simp [Except.map]

theorem mapError_ok {δ : Type} (a : α) (f : ε → δ) : (Except.ok a).mapError f = .ok a :=
  rfl

theorem mapError_eq_ok_iff {δ : Type} {r : Except ε α} {f : ε → δ} {a : α} :
    r.mapError f = .ok a ↔ r = .ok a := by
  cases r with
  | error e => exact iff_of_false nofun nofun
  | ok a' => rw [mapError_ok, Except.ok.injEq, Except.ok.injEq]

theorem mapError_eq_error_iff {δ : Type} {r : Except ε α} {f : ε → δ} {d : δ} :
    r.mapError f = .error d ↔ ∃ e, r = .error e ∧ f e = d := by
  cases r with
  | error e =>
    constructor
    · intro h
      cases h
      exact ⟨e, rfl, rfl⟩
    · rintro ⟨_, h, rfl⟩
      cases h
      rfl
  | ok a =>
    constructor
    · intro h
      cases h
    · rintro ⟨_, h, _⟩
      cases h

/-- A step for each element: all of them succeed, with the values that `value` gives. -/
theorem mapM_eq_ok_iff {f : α → Except ε β} {value : α → β}
    (hvalue : ∀ x y, f x = .ok y → value x = y) {xs : List α} {ys : List β} :
    xs.mapM f = .ok ys ↔ (∀ x ∈ xs, ∃ y, f x = .ok y) ∧ ys = xs.map value := by
  induction xs generalizing ys with
  | nil => simp [pure, Except.pure, eq_comm]
  | cons x xs ih =>
    rw [List.mapM_cons, bind_eq_ok_iff]
    constructor
    · intro h
      obtain ⟨y, hy, hothers⟩ := h
      obtain ⟨ys, hys, hpure⟩ := bind_eq_ok_iff.mp hothers
      obtain ⟨hall, rfl⟩ := ih.mp hys
      cases hpure
      refine ⟨?_, by rw [List.map_cons, hvalue x y hy]⟩
      intro x' hx'
      cases hx' with
      | head => exact ⟨y, hy⟩
      | tail _ hx' => exact hall x' hx'
    · intro h
      obtain ⟨hall, rfl⟩ := h
      obtain ⟨y, hy⟩ := hall x List.mem_cons_self
      have hys := ih.mpr ⟨fun x' hx' => hall x' (List.mem_cons_of_mem x hx'), rfl⟩
      refine ⟨y, hy, bind_eq_ok_iff.mpr ⟨xs.map value, hys, ?_⟩⟩
      rw [List.map_cons, hvalue x y hy]
      rfl

end MiniC
