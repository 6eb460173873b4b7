import Mathlib
import MiniC.FileTree
import MiniC.Proofs.Sequence

/-!
# The order of the files in a tree

If no path is written twice, the order in which files are written does not matter: every path leads
to the same place, the same content is read there, and a directory has the same names, each once.
-/

namespace MiniC

set_option autoImplicit false

namespace FileTree

variable {t t' : FileTree}

/-- The same files, written in another order. No path is written twice. -/
structure Reordered (t t' : FileTree) : Prop where
  distinct : (t.entries.map Prod.fst).Nodup
  perm : t.entries.Perm t'.entries

theorem nodup_eraseDups (names : List Path) : names.eraseDups.Nodup := by
  induction names using List.reverseRecOn with
  | nil => exact List.nodup_nil
  | append_singleton names name ih =>
    rw [List.eraseDups_append]
    by_cases hmem : name ∈ names
    · rw [show [name].removeAll names = [] by simp [List.removeAll, hmem]]
      rwa [List.eraseDups_nil, List.append_nil]
    · rw [show [name].removeAll names = [name] by simp [List.removeAll, hmem],
        List.eraseDups_cons, List.filter_nil, List.eraseDups_nil, ← List.concat_eq_append]
      exact ih.concat (mt List.mem_eraseDups.mp hmem)

theorem find?_of_distinct {entries : List (List Path × FileNode)}
    (h : (entries.map Prod.fst).Nodup) {path : List Path} {entry : List Path × FileNode} :
    entries.reverse.find? (fun entry => entry.1 = path) = some entry ↔
      entry ∈ entries ∧ entry.1 = path := by
  constructor
  · intro hfind
    have hpath := List.find?_some hfind
    exact ⟨List.mem_reverse.mp (List.mem_of_find?_eq_some hfind), of_decide_eq_true hpath⟩
  · rintro ⟨hmem, hpath⟩
    cases hfind : entries.reverse.find? fun entry => entry.1 = path with
    | none =>
      have hne := List.find?_eq_none.mp hfind entry (List.mem_reverse.mpr hmem)
      exact absurd (decide_eq_true hpath) hne
    | some other =>
      have hother := List.mem_reverse.mp (List.mem_of_find?_eq_some hfind)
      have hpath' := List.find?_some hfind
      have hsame : other.1 = path := of_decide_eq_true hpath'
      rw [List.inj_on_of_nodup_map h hother hmem (hsame.trans hpath.symm)]

theorem nodup_of_list {path : Path} {names : List Path} (h : t.list path = .ok names) :
    names.Nodup := by
  obtain ⟨place, _, h⟩ := bind_eq_ok_iff.mp h
  split at h
  · cases h
    exact List.nodup_nil
  · split at h
    · cases h
      exact nodup_eraseDups _
    · cases h

theorem resolve_of_long {path : Path} (h : Path.maxLength < path.length) :
    t.resolve path = .error .nameTooLong := by
  have hne : path ≠ [] := List.ne_nil_of_length_pos (Nat.zero_lt_of_lt h)
  rw [resolve, if_neg hne, if_pos h]

theorem isDirectory_of_long {path : Path} (h : Path.maxLength < path.length) :
    t.isDirectory path = false := by
  rw [isDirectory, resolve_of_long h]

namespace Reordered

variable (h : Reordered t t')
include h

theorem node?_eq (path : List Path) : t.node? path = t'.node? path := by
  have hdistinct : (t'.entries.map Prod.fst).Nodup := (h.perm.map Prod.fst).nodup_iff.mp h.distinct
  have hfind : t.entries.reverse.find? (fun entry => entry.1 = path) =
      t'.entries.reverse.find? fun entry => entry.1 = path := by
    apply Option.ext
    intro entry
    rw [find?_of_distinct h.distinct, find?_of_distinct hdistinct, h.perm.mem_iff]
  rw [node?, node?, hfind, h.perm.any_eq]

theorem children_perm (path : List Path) : (t.children path).Perm (t'.children path) := by
  rw [children, children, List.perm_ext_iff_of_nodup (nodup_eraseDups _) (nodup_eraseDups _)]
  intro name
  rw [List.mem_eraseDups, List.mem_eraseDups]
  exact (h.perm.filterMap _).mem_iff

theorem isDirectoryAt_eq (place : Place) : t.isDirectoryAt place = t'.isDirectoryAt place := by
  cases place with
  | outside => rfl
  | inside path => rw [isDirectoryAt, isDirectoryAt, h.node?_eq]

theorem enter_eq : t.enter = t'.enter := by
  funext place component
  simp only [enter, h.isDirectoryAt_eq, h.node?_eq]

theorem resolve_eq (path : Path) : t.resolve path = t'.resolve path := by
  rw [resolve, resolve, h.enter_eq]

theorem hasPath_eq (path : Path) : t.hasPath path = t'.hasPath path := by
  rw [hasPath, hasPath, h.resolve_eq]

theorem isDirectory_eq (path : Path) : t.isDirectory path = t'.isDirectory path := by
  simp only [isDirectory, h.resolve_eq, h.isDirectoryAt_eq]

theorem readText_eq (path : Path) : t.readText path = t'.readText path := by
  simp only [readText, content, h.resolve_eq, h.node?_eq]

/-- Both directories are unreadable, or both list the same names. -/
theorem list_cases (path : Path) :
    (∃ e, t.list path = .error e ∧ t'.list path = .error e) ∨
    ∃ names names', t.list path = .ok names ∧ t'.list path = .ok names' ∧
      names.Perm names' := by
  simp only [list, ← h.resolve_eq, ← h.isDirectoryAt_eq]
  cases t.resolve path with
  | error e => exact .inl ⟨e, rfl, rfl⟩
  | ok place =>
    cases place with
    | outside => exact .inr ⟨[], [], rfl, rfl, .refl _⟩
    | inside names =>
      simp only [bind, Except.bind]
      split
      · exact .inr ⟨_, _, rfl, rfl, h.children_perm names⟩
      · exact .inl ⟨_, rfl, rfl⟩

end Reordered

end FileTree

end MiniC
