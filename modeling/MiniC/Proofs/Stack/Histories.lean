import Mathlib.Data.Finset.Card
import Mathlib.Data.Finset.Dedup
import Mathlib.Logic.Function.Basic
import MiniC.Proofs.Stack.Bindings
import MiniC.Proofs.Text.ByteOrder
import MiniC.Stack.Machine

/-!
# Scopes are finite maps

Scopes are made and changed by updates: a scope is made empty, from a list or as a copy, names are
bound in it, another one is laid over it. Each update has a counterpart on partial maps from names
to bindings. Whatever updates were made, on any number of scopes, each scope answers as its partial
map does, and what code does in a scope depends on that map only.
-/

namespace MiniC.Stack

set_option autoImplicit false

namespace Scope

/-- A scope answers as the partial map `m` does. -/
structure Agrees (s : Scope) (m : String → Option Binding) : Prop where
  get?_eq : ∀ name, s.get? name = m name
  has_eq : ∀ name, s.has name = (m name).isSome
  size_eq : ∃ names : Finset String, (∀ name, name ∈ names ↔ (m name).isSome) ∧
    s.size = names.card
  isEmpty_iff : s.isEmpty ↔ s.size = 0
  increasing : (s.dump.map Prod.fst).Pairwise fun a b => Text.bytes a < Text.bytes b
  mem_dump : ∀ name text, (name, text) ∈ s.dump ↔ ∃ b, m name = some b ∧ b.display = text

section Agrees

variable (s : Scope)

theorem size_eq_card :
    ∃ names : Finset String, (∀ name, name ∈ names ↔ (s.get? name).isSome) ∧
      s.size = names.card := by
  refine ⟨s.bindings.keys.toFinset, ?_, ?_⟩
  · intro name
    rw [List.mem_toFinset, Std.ExtTreeMap.mem_keys, ← has_eq_isSome]
    rfl
  · rw [List.toFinset_card_of_nodup Std.ExtTreeMap.nodup_keys, Std.ExtTreeMap.length_keys]
    rfl

theorem isEmpty_iff_size_eq_zero : s.isEmpty ↔ s.size = 0 := by
  rw [isEmpty, size, Std.ExtTreeMap.isEmpty_eq_size_beq_zero, beq_iff_eq]

theorem names_dump : s.dump.map Prod.fst = s.bindings.keys := by
  rw [dump, List.map_map, ← Std.ExtTreeMap.map_fst_toList_eq_keys]
  rfl

theorem names_dump_increasing :
    (s.dump.map Prod.fst).Pairwise fun a b => Text.bytes a < Text.bytes b := by
  rw [names_dump]
  refine Std.ExtTreeMap.ordered_keys.imp ?_
  intro a b h
  exact Text.bytes_lt_of_lt (compareOfLessAndEq_eq_lt.mp h)

/-- Looking up names tells all that a scope answers. -/
theorem agrees_of_get? {m : String → Option Binding} (h : ∀ name, s.get? name = m name) :
    s.Agrees m := by
  obtain rfl : s.get? = m := funext h
  exact {
    get?_eq := h
    has_eq := s.has_eq_isSome
    size_eq := s.size_eq_card
    isEmpty_iff := s.isEmpty_iff_size_eq_zero
    increasing := s.names_dump_increasing
    mem_dump := fun _ _ => mem_dump_iff }

end Agrees

/-- An update of one of several scopes, which are held under keys of type `ι`. -/
inductive Update (ι : Type) where
  | new (s : ι)
  | ofVariables (s : ι) (entries : List (String × Value))
  | copy (s source : ι)
  | set (s : ι) (name : String) (binding : Binding)
  | setVariable (s : ι) (name : String) (value : Value)
  | setFunction (s : ι) (name : String) (f : Function)
  | extend (s other : ι)
  | clear (s : ι)

namespace Update

variable {ι : Type}

def target : Update ι → ι
  | .new s | .ofVariables s _ | .copy s _ | .set s _ _ | .setVariable s _ _ | .setFunction s _ _
  | .extend s _ | .clear s => s

def scope (scopes : ι → Scope) : Update ι → Scope
  | .new _ | .clear _ => .empty
  | .ofVariables _ entries => .ofVariables entries
  | .copy _ source => scopes source
  | .set s name binding => (scopes s).set name binding
  | .setVariable s name value => (scopes s).setVariable name value
  | .setFunction s name f => (scopes s).setFunction name f
  | .extend s other => (scopes s).extend (scopes other)

/-- The updated partial map. Of several entries with one name the last one counts. -/
def map (maps : ι → String → Option Binding) : Update ι → String → Option Binding
  | .new _ | .clear _ => fun _ => none
  | .ofVariables _ entries => fun name =>
    (entries.reverse.find? fun entry => entry.1 = name).map fun entry => .variable entry.2
  | .copy _ source => maps source
  | .set s name binding => Function.update (maps s) name (some binding)
  | .setVariable s name value => Function.update (maps s) name (some (.variable value))
  | .setFunction s name f => Function.update (maps s) name (some (.function f))
  | .extend s other => fun name => (maps other name).or (maps s name)

section Held

variable {α : Type} [DecidableEq ι]

/-- What is held after an update: `result` under its target, and as before under other keys. -/
def step (result : (ι → α) → Update ι → α) (held : ι → α) (u : Update ι) : ι → α :=
  Function.update held u.target (result held u)

def scopes (updates : List (Update ι)) : ι → Scope :=
  updates.foldl (step scope) fun _ => .empty

def maps (updates : List (Update ι)) : ι → String → Option Binding :=
  updates.foldl (step map) fun _ _ => none

end Held

theorem get?_set_update (s : Scope) {m : String → Option Binding}
    (h : ∀ name, s.get? name = m name) (name : String) (binding : Binding) (other : String) :
    (s.set name binding).get? other = Function.update m name (some binding) other := by
  rw [get?_set, h, Function.update_apply]
  simp only [eq_comm]

theorem get?_scope {scopes : ι → Scope} {maps : ι → String → Option Binding}
    (h : ∀ s name, (scopes s).get? name = maps s name) (u : Update ι) (name : String) :
    (u.scope scopes).get? name = u.map maps name := by
  cases u with
  | new | clear => exact get?_empty name
  | ofVariables s entries => exact get?_ofVariables entries name
  | copy s source => exact h source name
  | set s key binding => exact get?_set_update _ (h s) key binding name
  | setVariable s key value => exact get?_set_update _ (h s) key (.variable value) name
  | setFunction s key f => exact get?_set_update _ (h s) key (.function f) name
  | extend s other =>
    rw [scope, get?_extend, h, h]
    rfl

variable [DecidableEq ι]

theorem get?_step {scopes : ι → Scope} {maps : ι → String → Option Binding}
    (h : ∀ s name, (scopes s).get? name = maps s name) (u : Update ι) (s : ι) (name : String) :
    (step scope scopes u s).get? name = step map maps u s name := by
  unfold step
  by_cases hs : s = u.target
  · subst hs
    rw [Function.update_self, Function.update_self]
    exact get?_scope h u name
  · rw [Function.update_of_ne hs, Function.update_of_ne hs]
    exact h s name

theorem get?_foldl_step (updates : List (Update ι)) {scopes : ι → Scope}
    {maps : ι → String → Option Binding} (h : ∀ s name, (scopes s).get? name = maps s name)
    (s : ι) (name : String) :
    (updates.foldl (step scope) scopes s).get? name = updates.foldl (step map) maps s name := by
  induction updates generalizing scopes maps with
  | nil => exact h s name
  | cons u updates ih => exact ih (get?_step h u)

theorem get?_scopes (updates : List (Update ι)) (s : ι) (name : String) :
    (scopes updates s).get? name = maps updates s name :=
  get?_foldl_step updates (fun _ => get?_empty) s name

theorem scopes_concat_of_ne (updates : List (Update ι)) {u : Update ι} {s : ι}
    (hs : s ≠ u.target) : scopes (updates ++ [u]) s = scopes updates s := by
  rw [scopes, List.foldl_concat]
  exact Function.update_of_ne hs _ _

end Update

end Scope

theorem Function.call_eq_ofCode (f : Function) {enclosing arguments t : Scope}
    (h : ∀ name, t.get? name = (arguments.get? name).or (enclosing.get? name)) :
    f.call enclosing arguments = .ofCode f.code t := by
  have ht : enclosing.extend arguments = t := by
    apply Scope.ext_get?
    intro name
    rw [Scope.get?_extend, h]
  rw [Function.call, Function.machine, ht]

open Scope.Update in
/-- After any updates of any number of scopes, each scope answers as the partial map that the same
updates make, and one more update leaves the other scopes as they are. What a run comes to depends
on that map only, whatever updates made it and however the machine is made. A call runs as in any
scope that looks a name up in the arguments first, and else in the enclosing scope. -/
theorem scopes_agree {ι : Type} [DecidableEq ι] (updates : List (Scope.Update ι)) :
    (∀ s, (scopes updates s).Agrees (maps updates s)) ∧
    (∀ u s, s ≠ u.target → scopes (updates ++ [u]) s = scopes updates s) ∧
    (∀ (updates' : List (Scope.Update ι)) (s t : ι), maps updates s = maps updates' t →
      ∀ (f : Function) (fuel : Nat),
      (Machine.ofCode f.code (scopes updates s)).run fuel =
        (Machine.ofCode f.code (scopes updates' t)).run fuel ∧
      (f.machine (scopes updates s)).run fuel =
        (Machine.ofCode f.code (scopes updates' t)).run fuel) ∧
    ∀ (f : Function) (enclosing arguments t : Scope),
      (∀ name, t.get? name = (arguments.get? name).or (enclosing.get? name)) →
      ∀ fuel, (f.call enclosing arguments).run fuel = (Machine.ofCode f.code t).run fuel := by
  refine ⟨?_, ?_, ?_, ?_⟩
  · intro s
    exact Scope.agrees_of_get? _ (get?_scopes updates s)
  · intro u s hs
    exact scopes_concat_of_ne updates hs
  · intro updates' s t h f fuel
    have hscope : scopes updates s = scopes updates' t := by
      apply Scope.ext_get?
      intro name
      rw [get?_scopes, get?_scopes, h]
    rw [hscope]
    exact ⟨rfl, rfl⟩
  · intro f enclosing arguments t h fuel
    rw [f.call_eq_ofCode h]

/-- A list that binds `b` twice, and a copy of the scope with another `a`, laid over the scope. -/
def shadowing : List (Scope.Update Nat) :=
  [.ofVariables 0 [("b", .int 1), ("a", .int 2), ("b", .int 3)], .copy 1 0,
    .setFunction 1 "a" ⟨[.eof]⟩, .extend 0 1]

def timesTen : Function :=
  ⟨[.load "a", .constant (.int 10), .arith .multiply, .ret, .eof]⟩

def oneAndTwo : Scope :=
  .ofVariables [("a", .int 1), ("b", .int 2)]

def seven : Scope :=
  .ofVariables [("a", .int 7)]

open Scope.Update in
/-- The later `b` of the list counts, and the function under `a` hides the variable. In a call the
argument `a` does. -/
theorem scopes_agree_shadowing :
    (scopes shadowing 0).Agrees (maps shadowing 0) ∧
    (scopes shadowing 0).dump = [("a", "<function>"), ("b", "3")] ∧
    scopes (shadowing ++ [.clear 0]) 1 = scopes shadowing 1 ∧
    maps shadowing 0 = maps shadowing 1 ∧
    (timesTen.machine (scopes shadowing 0)).run 5 =
      (Machine.ofCode timesTen.code (scopes shadowing 1)).run 5 ∧
    ∃ last, (timesTen.call oneAndTwo seven).run 5 =
      some (.ok ⟨none, [("a", "7"), ("b", "2")], [], some (.int 70)⟩, last) := by
  obtain ⟨hagrees, hother, hrun, hcall⟩ := scopes_agree shadowing
  have hmaps : maps shadowing 0 = maps shadowing 1 := by
    funext name
    by_cases ha : name = "a"
    · subst ha
      rfl
    · by_cases hb : name = "b"
      · subst hb
        rfl
      · simp [maps, shadowing, step, map, target, Function.update_apply, ha, eq_comm, hb]
  have hlookup : ∀ name, (oneAndTwo.setVariable "a" (.int 7)).get? name =
      (seven.get? name).or (oneAndTwo.get? name) := by
    intro name
    rw [Scope.get?_setVariable, seven, Scope.get?_ofVariables]
    by_cases ha : "a" = name <;> simp [ha]
  exact ⟨hagrees 0, rfl, hother (.clear 0) 1 (by decide), hmaps,
    (hrun shadowing 0 1 hmaps timesTen 5).2, _,
    (hcall timesTen oneAndTwo seven _ hlookup 5).trans rfl⟩

end MiniC.Stack
