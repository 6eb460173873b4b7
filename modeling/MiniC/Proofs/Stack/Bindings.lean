import MiniC.Stack.Scope

/-!
# What a scope binds

A scope is known by what it binds each name to. An instruction sees less than that: the value of a
variable, but not the code of a function.
-/

namespace MiniC.Stack

set_option autoImplicit false

/-- What an instruction sees of a binding: the value of a variable, nothing of a function. -/
def Binding.value? : Binding → Option Value
  | .variable value => some value
  | .function _ => none

theorem Binding.display_congr {b c : Binding} (h : b.value? = c.value?) :
    b.display = c.display := by
  cases b <;> cases c <;> cases h <;> rfl

namespace Scope

variable {s t : Scope} {name other text : String}

/-- What an instruction sees under a name: no binding, a function, or a variable with its value. -/
def sees (s : Scope) (name : String) : Option (Option Value) :=
  (s.get? name).map Binding.value?

theorem ext_get? (h : ∀ name, s.get? name = t.get? name) : s = t := by
  obtain ⟨bindings⟩ := s
  obtain ⟨bindings'⟩ := t
  congr
  exact Std.ExtTreeMap.ext_getElem? h

theorem get?_empty (name : String) : empty.get? name = none := by
  simp [empty, get?]

theorem get?_set (s : Scope) (name other : String) (binding : Binding) :
    (s.set name binding).get? other = if name = other then some binding else s.get? other := by
  simp [set, get?, Std.ExtTreeMap.getElem?_insert]

theorem get?_setVariable (s : Scope) (name other : String) (value : Value) :
    (s.setVariable name value).get? other =
      if name = other then some (.variable value) else s.get? other :=
  s.get?_set name other (.variable value)

/-- Bindings made one after another: the last one of a name counts. -/
theorem get?_foldl_set {α : Type} (key : α → String) (binding : α → Binding) (entries : List α)
    (s : Scope) (name : String) :
    (entries.foldl (fun scope entry => scope.set (key entry) (binding entry)) s).get? name =
      ((entries.reverse.find? fun entry => key entry = name).map binding).or (s.get? name) := by
  induction entries generalizing s with
  | nil => rfl
  | cons entry entries ih =>
    rw [List.foldl_cons, ih, get?_set, List.reverse_cons, List.find?_append]
    cases entries.reverse.find? fun entry => key entry = name with
    | some later => rfl
    | none =>
      by_cases h : key entry = name <;> simp [h]

theorem find?_toList (s : Scope) (name : String) :
    (s.bindings.toList.reverse.find? fun entry => entry.1 = name).map Prod.snd = s.get? name := by
  cases h : s.bindings.toList.reverse.find? fun entry => entry.1 = name with
  | none =>
    symm
    rw [Option.map_none, Option.eq_none_iff_forall_ne_some]
    intro binding hget
    have hmem := Std.ExtTreeMap.mem_toList_iff_getElem?_eq_some.mpr hget
    have hne := List.find?_eq_none.mp h (name, binding) (List.mem_reverse.mpr hmem)
    simp at hne
  | some entry =>
    have hkey : entry.1 = name := by simpa using List.find?_some h
    have hmem := List.mem_reverse.mp (List.mem_of_find?_eq_some h)
    rw [← hkey]
    exact (Std.ExtTreeMap.mem_toList_iff_getElem?_eq_some.mp hmem).symm

theorem get?_extend (s other : Scope) (name : String) :
    (s.extend other).get? name = (other.get? name).or (s.get? name) := by
  rw [extend, get?_foldl_set Prod.fst Prod.snd, find?_toList]

theorem get?_ofVariables (entries : List (String × Value)) (name : String) :
    (ofVariables entries).get? name =
      (entries.reverse.find? fun entry => entry.1 = name).map fun entry => .variable entry.2 := by
  have h := get?_foldl_set Prod.fst (fun entry => .variable entry.2) entries empty name
  rw [get?_empty, Option.or_none] at h
  exact h

theorem has_eq_isSome (s : Scope) (name : String) : s.has name = (s.get? name).isSome :=
  Std.ExtTreeMap.contains_eq_isSome_getElem?

theorem has_iff : s.has name ↔ ∃ b, s.get? name = some b := by
  rw [has_eq_isSome, Option.isSome_iff_exists]

theorem mem_dump_iff : (name, text) ∈ s.dump ↔ ∃ b, s.get? name = some b ∧ b.display = text := by
  simp only [dump, List.mem_map, Prod.exists, Prod.mk.injEq,
    Std.ExtTreeMap.mem_toList_iff_getElem?_eq_some]
  constructor
  · rintro ⟨_, b, hb, rfl, htext⟩
    exact ⟨b, hb, htext⟩
  · rintro ⟨b, hb, htext⟩
    exact ⟨name, b, hb, rfl, htext⟩

theorem mem_names_dump_iff : name ∈ s.dump.map Prod.fst ↔ s.has name := by
  simp only [has_iff, List.mem_map, Prod.exists, mem_dump_iff]
  constructor
  · rintro ⟨_, _, ⟨b, hb, _⟩, rfl⟩
    exact ⟨b, hb⟩
  · rintro ⟨b, hb⟩
    exact ⟨name, b.display, ⟨b, hb, rfl⟩, rfl⟩

theorem mem_dump_congr (h : s.sees name = t.sees name) :
    (name, text) ∈ s.dump ↔ (name, text) ∈ t.dump := by
  simp only [mem_dump_iff]
  unfold sees at h
  cases hs : s.get? name with
  | none =>
    rw [hs] at h
    rw [Option.map_eq_none_iff.mp h.symm]
  | some b =>
    rw [hs] at h
    obtain ⟨c, hc, hvalue⟩ := Option.map_eq_some_iff.mp h.symm
    simp [hc, Binding.display_congr hvalue]

end Scope

end MiniC.Stack
