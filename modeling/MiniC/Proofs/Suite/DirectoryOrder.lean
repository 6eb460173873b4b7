import Mathlib
import MiniC.Proofs.FileTree
import MiniC.Proofs.Text.ByteOrder
import MiniC.Suite.Load

/-!
# The order of a directory does not matter

A directory lists its entries in any order. Each entry is looked at on its own, so whether a suite
can be loaded depends on the set of entries only, and the cases are sorted by names that are all
different, so there is one order for them. Only the error of a suite that cannot be loaded depends
on which broken entry comes first. All of this holds for every reader of descriptions.
-/

namespace MiniC

set_option autoImplicit false

namespace Suite

variable {reader : String → Option Spec} {files : FileTree} {dir name : Path}
  {names names' : List Path}

/-- Whether an entry of a directory is a case: a directory with a description. -/
def isCase (files : FileTree) (dir name : Path) : Bool :=
  files.isDirectory (dir.join name) && files.hasPath (specPath (dir.join name))

/-- The directory has a program, and a description that can be read and says `spec`. A benchmark has
tags. -/
structure Equipped (reader : String → Option Spec) (files : FileTree) (dir : Path) (spec : Spec) :
    Prop where
  program : files.hasPath (programPath dir) = true
  written : ∃ text, files.readText (specPath dir) = .ok text ∧ reader text = some spec
  tagged : spec.bench.enabled = true → spec.bench.tags ≠ []

/-- The entry `name` of the directory `dir` makes the case `c`, whose name is text. -/
structure Makes (reader : String → Option Spec) (files : FileTree) (dir name : Path) (c : Case) :
    Prop where
  named : Text.bytes c.name = name
  dir_eq : c.dir = dir.join name
  programPath_eq : c.programPath = programPath (dir.join name)
  equipped : Equipped reader files (dir.join name) c.spec

theorem readCase_eq_ok_iff {name : String} {c : Case}
    (hprogram : files.hasPath (programPath dir) = true) :
    readCase reader files dir name = .ok c ↔
      ∃ spec, Equipped reader files dir spec ∧ c = ⟨name, dir, programPath dir, spec⟩ := by
  rw [readCase, bind_eq_ok_iff]
  simp only [mapError_eq_ok_iff]
  constructor
  · rintro ⟨text, htext, hspec⟩
    split at hspec
    · cases hspec
    · rename_i spec hread
      split at hspec
      · cases hspec
      · rename_i htags
        cases hspec
        exact ⟨spec, ⟨hprogram, ⟨text, htext, hread⟩, by simpa using htags⟩, rfl⟩
  · rintro ⟨spec, ⟨_, ⟨text, htext, hread⟩, htags⟩, rfl⟩
    refine ⟨text, htext, ?_⟩
    simp only [hread]
    rw [if_neg (by simpa using htags)]
    rfl

theorem loadCase_of_not_isCase (h : isCase files dir name = false) :
    loadCase reader files dir name = .ok none := by
  rw [isCase] at h
  rw [loadCase, ← Bool.not_and, h]
  rfl

theorem loadCase_eq_ok_iff (h : isCase files dir name = true) {found : Option Case} :
    loadCase reader files dir name = .ok found ↔
      ∃ c, Makes reader files dir name c ∧ found = some c := by
  rw [isCase] at h
  rw [loadCase, ← Bool.not_and, h, if_neg (by decide)]
  constructor
  · intro hload
    split at hload
    · cases hload
    · rename_i hprogram
      split at hload
      · cases hload
      · rename_i text htext
        obtain ⟨c, hc, rfl⟩ := map_eq_ok_iff.mp hload
        obtain ⟨spec, hspec, rfl⟩ := (readCase_eq_ok_iff (by simpa using hprogram)).mp hc
        exact ⟨_, ⟨Text.ofBytes?_eq_some_iff.mp htext, rfl, rfl, hspec⟩, rfl⟩
  · rintro ⟨c, ⟨hname, hdir, hprogramPath, hspec⟩, rfl⟩
    have hc : c = ⟨c.name, dir.join name, programPath (dir.join name), c.spec⟩ := by
      rw [← hprogramPath, ← hdir]
    rw [if_neg (by simpa using hspec.program), Text.ofBytes?_eq_some_iff.mpr hname]
    exact map_eq_ok_iff.mpr ⟨c, (readCase_eq_ok_iff hspec.program).mpr ⟨c.spec, hspec, hc⟩, rfl⟩

/-- The case in an entry, if there is one and it can be loaded. -/
def found? (reader : String → Option Spec) (files : FileTree) (dir name : Path) : Option Case :=
  (loadCase reader files dir name).toOption.join

theorem found?_of_ok {found : Option Case} (h : loadCase reader files dir name = .ok found) :
    found? reader files dir name = found := by
  rw [found?, h]
  rfl

theorem makes_of_found? {c : Case} (h : found? reader files dir name = some c) :
    Makes reader files dir name c := by
  cases hload : loadCase reader files dir name with
  | error e =>
    rw [found?, hload] at h
    cases h
  | ok found =>
    cases (found?_of_ok hload).symm.trans h
    cases hcase : isCase files dir name with
    | false =>
      rw [loadCase_of_not_isCase hcase] at hload
      cases hload
    | true =>
      obtain ⟨c, hmakes, hc⟩ := (loadCase_eq_ok_iff hcase).mp hload
      cases hc
      exact hmakes

/-- An entry can be loaded, unless it is a case without what a case needs. -/
theorem loads_iff : (∃ found, loadCase reader files dir name = .ok found) ↔
    (isCase files dir name = true → ∃ c, Makes reader files dir name c) := by
  cases hcase : isCase files dir name with
  | false => exact iff_of_true ⟨none, loadCase_of_not_isCase hcase⟩ nofun
  | true =>
    constructor
    · rintro ⟨found, hload⟩ _
      obtain ⟨c, hmakes, _⟩ := (loadCase_eq_ok_iff hcase).mp hload
      exact ⟨c, hmakes⟩
    · intro h
      obtain ⟨c, hmakes⟩ := h rfl
      exact ⟨_, (loadCase_eq_ok_iff hcase).mpr ⟨c, hmakes, rfl⟩⟩

def sorted (cases : List Case) : List Case :=
  cases.mergeSort fun a b => a.name ≤ b.name

theorem loadEntries_eq_ok_iff {cases : List Case} :
    loadEntries reader files dir names = .ok cases ↔
      (∀ name ∈ names, isCase files dir name = true → ∃ c, Makes reader files dir name c) ∧
      names.filterMap (found? reader files dir) ≠ [] ∧
      cases = sorted (names.filterMap (found? reader files dir)) := by
  have hvalue : ∀ name found, loadCase reader files dir name = .ok found →
      found? reader files dir name = found := fun _ _ => found?_of_ok
  have hcases : (names.map (found? reader files dir)).filterMap id =
      names.filterMap (found? reader files dir) := by
    rw [List.filterMap_map]
    rfl
  rw [loadEntries, bind_eq_ok_iff]
  simp only [← loads_iff]
  constructor
  · rintro ⟨found, hmap, h⟩
    obtain ⟨hall, rfl⟩ := (mapM_eq_ok_iff hvalue).mp hmap
    rw [hcases] at h
    split at h
    · cases h
    · rename_i hne
      cases h
      exact ⟨hall, by simpa using hne, rfl⟩
  · rintro ⟨hall, hne, rfl⟩
    refine ⟨names.map (found? reader files dir), (mapM_eq_ok_iff hvalue).mpr ⟨hall, rfl⟩, ?_⟩
    rw [hcases, if_neg (by simpa using hne)]
    rfl

section Sorted

variable {cases cases' : List Case}

/-- Cases with different names, in the order of the bytes of their names. -/
def Increasing (cases : List Case) : Prop :=
  cases.Pairwise fun a b => Text.bytes a.name < Text.bytes b.name

theorem increasing_sorted (h : cases.Pairwise fun a b => a.name ≠ b.name) :
    Increasing (sorted cases) := by
  have hperm : (sorted cases).Perm cases := List.mergeSort_perm _ _
  have hdistinct : (sorted cases).Pairwise fun a b => a.name ≠ b.name :=
    (hperm.pairwise_iff fun hne => hne.symm).mpr h
  have hsorted : (sorted cases).Pairwise fun a b => decide (a.name ≤ b.name) = true := by
    apply List.pairwise_mergeSort
    · intro a b c hab hbc
      exact decide_eq_true (String.le_trans (of_decide_eq_true hab) (of_decide_eq_true hbc))
    · intro a b
      rw [Bool.or_eq_true, decide_eq_true_iff, decide_eq_true_iff]
      exact String.le_total a.name b.name
  refine hsorted.imp₂ ?_ hdistinct
  intro a b hle hne
  apply Text.bytes_lt_of_lt
  apply String.not_le.mp
  intro hge
  exact hne (String.le_antisymm (of_decide_eq_true hle) hge)

/-- There is one increasing order for given cases. -/
theorem Increasing.eq_of_perm (h : Increasing cases) (h' : Increasing cases')
    (hperm : cases.Perm cases') : cases = cases' := by
  apply List.Perm.eq_of_pairwise _ h h' hperm
  intro a b _ _ hab hba
  exact absurd hba (List.lt_asymm hab)

end Sorted

theorem found_distinct (h : names.Nodup) :
    (names.filterMap (found? reader files dir)).Pairwise fun a b => a.name ≠ b.name := by
  rw [List.pairwise_filterMap]
  refine h.imp ?_
  intro name name' hne a ha b hb heq
  apply hne
  rw [← (makes_of_found? ha).named, ← (makes_of_found? hb).named, heq]

/-- If every case has what it needs, each one is found. -/
theorem map_name_found
    (h : ∀ name ∈ names, isCase files dir name = true → ∃ c, Makes reader files dir name c) :
    (names.filterMap (found? reader files dir)).map (fun c => Text.bytes c.name) =
      names.filter (isCase files dir) := by
  rw [List.map_filterMap, ← List.filterMap_eq_filter]
  apply List.filterMap_congr
  intro name hname
  cases hcase : isCase files dir name with
  | false => simp [found?_of_ok (loadCase_of_not_isCase hcase), Option.guard, hcase]
  | true =>
    obtain ⟨c, hmakes⟩ := h name hname hcase
    have hload := (loadCase_eq_ok_iff hcase).mpr ⟨c, hmakes, rfl⟩
    simp [found?_of_ok hload, Option.guard, hcase, hmakes.named]

/-- What is loaded from the entries `names` of a directory: one case for each subdirectory with a
description, in the order of the names. -/
structure Loaded (reader : String → Option Spec) (files : FileTree) (dir : Path)
    (names : List Path) (cases : List Case) : Prop where
  increasing : Increasing cases
  names_perm : (cases.map fun c => Text.bytes c.name).Perm (names.filter (isCase files dir))
  made : ∀ c ∈ cases, Makes reader files dir (Text.bytes c.name) c

section Entries

variable {cases : List Case}

theorem loaded_of_loadEntries (hnodup : names.Nodup)
    (h : loadEntries reader files dir names = .ok cases) :
    Loaded reader files dir names cases := by
  obtain ⟨hall, _, rfl⟩ := loadEntries_eq_ok_iff.mp h
  have hperm : (sorted (names.filterMap (found? reader files dir))).Perm
      (names.filterMap (found? reader files dir)) := List.mergeSort_perm _ _
  refine ⟨increasing_sorted (found_distinct hnodup), ?_, ?_⟩
  · rw [← map_name_found hall]
    exact hperm.map _
  · intro c hc
    obtain ⟨name, _, hfound⟩ := List.mem_filterMap.mp (hperm.mem_iff.mp hc)
    have hmakes := makes_of_found? hfound
    rwa [hmakes.named]

theorem loadEntries_perm (hnodup : names.Nodup) (hperm : names.Perm names')
    (h : loadEntries reader files dir names = .ok cases) :
    loadEntries reader files dir names' = .ok cases := by
  obtain ⟨hall, hne, rfl⟩ := loadEntries_eq_ok_iff.mp h
  have hfound := hperm.filterMap (found? reader files dir)
  refine loadEntries_eq_ok_iff.mpr ⟨?_, ?_, ?_⟩
  · intro name hname
    exact hall name (hperm.mem_iff.mpr hname)
  · intro hnil
    rw [hnil] at hfound
    exact hne hfound.eq_nil
  · have hnodup' : names'.Nodup := hperm.nodup_iff.mp hnodup
    apply Increasing.eq_of_perm (increasing_sorted (found_distinct hnodup))
      (increasing_sorted (found_distinct hnodup'))
    exact ((List.mergeSort_perm _ _).trans hfound).trans (List.mergeSort_perm _ _).symm

theorem loadEntries_succeeds_iff :
    (∃ cases, loadEntries reader files dir names = .ok cases) ↔
      (∃ name ∈ names, isCase files dir name = true) ∧
      ∀ name ∈ names, isCase files dir name = true → ∃ c, Makes reader files dir name c := by
  have hsome (hall : ∀ name ∈ names, isCase files dir name = true →
      ∃ c, Makes reader files dir name c) : names.filterMap (found? reader files dir) ≠ [] ↔
        ∃ name ∈ names, isCase files dir name = true := by
    have hnil : names.filterMap (found? reader files dir) = [] ↔
        names.filter (isCase files dir) = [] := by
      rw [← map_name_found hall, List.map_eq_nil_iff]
    simp [hnil]
  constructor
  · rintro ⟨cases, h⟩
    obtain ⟨hall, hne, _⟩ := loadEntries_eq_ok_iff.mp h
    exact ⟨(hsome hall).mp hne, hall⟩
  · rintro ⟨hexists, hall⟩
    exact ⟨_, loadEntries_eq_ok_iff.mpr ⟨hall, (hsome hall).mpr hexists, rfl⟩⟩

end Entries

section Trees

variable {files' : FileTree} {cases : List Case}

theorem loadCase_reordered (h : files.Reordered files') :
    loadCase reader files dir = loadCase reader files' dir := by
  funext name
  simp only [loadCase, readCase, h.isDirectory_eq, h.hasPath_eq, h.readText_eq]

theorem load_eq_loadEntries (h : files.list dir = .ok names) :
    load reader files dir = loadEntries reader files dir names := by
  rw [load, h]
  rfl

theorem load_reordered (h : files.Reordered files') :
    load reader files dir = .ok cases ↔ load reader files' dir = .ok cases := by
  have hsame : loadEntries reader files dir = loadEntries reader files' dir := by
    funext names
    rw [loadEntries, loadEntries, loadCase_reordered h]
  rcases h.list_cases dir with ⟨e, hlist, hlist'⟩ | ⟨names, names', hlist, hlist', hperm⟩
  · rw [load, load, hlist, hlist', hsame]
  · have hnodup := FileTree.nodup_of_list hlist
    have hnodup' := FileTree.nodup_of_list hlist'
    rw [load_eq_loadEntries hlist, load_eq_loadEntries hlist', hsame]
    exact ⟨loadEntries_perm hnodup hperm, loadEntries_perm hnodup' hperm.symm⟩

end Trees

/-- Loading the entries of a directory does not depend on the order in which they are listed. If it
succeeds, there is one case for each subdirectory with a description, and no other, in the order of
the bytes of the names. It succeeds exactly if there is such a subdirectory and all of them have
what a case needs: a name that is text, a program, and a description that the reader accepts, with
tags for a benchmark. A suite is loaded from the names in its directory, which are all different, so
the order in which its files were written does not matter. -/
theorem load_ignores_order (reader : String → Option Spec) (files : FileTree) (dir : Path) :
    (∀ names names' : List Path, names.Nodup → names.Perm names' →
      (∀ cases, loadEntries reader files dir names = .ok cases ↔
        loadEntries reader files dir names' = .ok cases) ∧
      (∀ cases, loadEntries reader files dir names = .ok cases →
        Loaded reader files dir names cases) ∧
      ((∃ cases, loadEntries reader files dir names = .ok cases) ↔
        (∃ name ∈ names, isCase files dir name = true) ∧
        ∀ name ∈ names, isCase files dir name = true → ∃ c, Makes reader files dir name c)) ∧
    (∀ names, files.list dir = .ok names →
      names.Nodup ∧ load reader files dir = loadEntries reader files dir names) ∧
    ∀ files' : FileTree, files.Reordered files' →
      ∀ cases, load reader files dir = .ok cases ↔ load reader files' dir = .ok cases := by
  refine ⟨?_, ?_, ?_⟩
  · intro names names' hnodup hperm
    have hnodup' : names'.Nodup := hperm.nodup_iff.mp hnodup
    refine ⟨?_, fun cases => loaded_of_loadEntries hnodup, loadEntries_succeeds_iff⟩
    intro cases
    exact ⟨loadEntries_perm hnodup hperm, loadEntries_perm hnodup' hperm.symm⟩
  · intro names hlist
    exact ⟨FileTree.nodup_of_list hlist, load_eq_loadEntries hlist⟩
  · intro files' hreordered cases
    exact load_reordered hreordered

def along (names : List String) : List Path :=
  names.map Text.bytes

def plain : Spec :=
  ⟨.ast, ⟨false, []⟩, ⟨none, none⟩⟩

theorem read?_plain : Spec.read? "class: ast\nexpected: {}" = some plain := by
  cbv

/-- Two cases and a file beside them; the cases do not stand in the order of their names. -/
def twoCases : FileTree :=
  ⟨[(along ["s", "b", "case.yaml"], .file "class: ast\nexpected: {}".toUTF8),
    (along ["s", "b", "program.cm"], .file "b;".toUTF8),
    (along ["s", "notes"], .file "".toUTF8),
    (along ["s", "a", "program.cm"], .file "a;".toUTF8),
    (along ["s", "a", "case.yaml"], .file "class: ast\nexpected: {}".toUTF8)]⟩

theorem makes_twoCases {name : String} (hname : name = "a" ∨ name = "b") :
    ∃ c, Makes Spec.read? twoCases (Text.bytes "s") (Text.bytes name) c := by
  refine ⟨⟨name, _, _, plain⟩, rfl, rfl, rfl, ?_⟩
  rcases hname with rfl | rfl
  · exact ⟨by decide, ⟨_, by rfl, read?_plain⟩, nofun⟩
  · exact ⟨by decide, ⟨_, by rfl, read?_plain⟩, nofun⟩

/-- The cases are loaded in the order of their names from every listing, and from the same files
written the other way round. -/
theorem load_ignores_order_twoCases :
    twoCases.list (Text.bytes "s") = .ok (along ["b", "notes", "a"]) ∧
    ∃ cases, load Spec.read? twoCases (Text.bytes "s") = .ok cases ∧
      loadEntries Spec.read? twoCases (Text.bytes "s") (along ["notes", "a", "b"]) = .ok cases ∧
      Loaded Spec.read? twoCases (Text.bytes "s") (along ["b", "notes", "a"]) cases ∧
      load Spec.read? ⟨twoCases.entries.reverse⟩ (Text.bytes "s") = .ok cases := by
  obtain ⟨hnames, hlist, htrees⟩ := load_ignores_order Spec.read? twoCases (Text.bytes "s")
  have hlisted : twoCases.list (Text.bytes "s") = .ok (along ["b", "notes", "a"]) := by rfl
  obtain ⟨hnodup, hentries⟩ := hlist _ hlisted
  have hperm : (along ["b", "notes", "a"]).Perm (along ["notes", "a", "b"]) := by decide
  obtain ⟨hsame, hloaded, hsucceeds⟩ := hnames _ _ hnodup hperm
  obtain ⟨cases, hcases⟩ := hsucceeds.mpr ⟨⟨Text.bytes "b", by decide, by decide⟩, by
    intro name hname hcase
    have hnotes : isCase twoCases (Text.bytes "s") (Text.bytes "notes") = false := by decide
    simp only [along, List.map_cons, List.map_nil, List.mem_cons, List.not_mem_nil,
      or_false] at hname
    rcases hname with rfl | rfl | rfl
    · exact makes_twoCases (.inr rfl)
    · rw [hnotes] at hcase
      cases hcase
    · exact makes_twoCases (.inl rfl)⟩
  have hload := hentries.trans hcases
  have hreordered : twoCases.Reordered ⟨twoCases.entries.reverse⟩ :=
    ⟨by decide, (List.reverse_perm _).symm⟩
  exact ⟨hlisted, cases, hload, (hsame _).mp hcases, hloaded _ hcases,
    (htrees _ hreordered _).mp hload⟩

def suiteDir : Path :=
  Text.bytes "s"

/-- A suite with one case, in the directory `name`. -/
def loneCase (name : Path) : FileTree :=
  ⟨[([suiteDir, name, Text.bytes "case.yaml"], .file "class: ast\nexpected: {}".toUTF8),
    ([suiteDir, name, Text.bytes "program.cm"], .file "a;".toUTF8)]⟩

def longName : Path :=
  List.replicate 250 0x61

/-- A long path to the suite, which goes nowhere else on the way. -/
def roundabout : Path :=
  (List.replicate 1950 (Text.bytes "./")).flatten ++ suiteDir

/-- A case whose name is no text is refused, although it has a program and a description that the
reader accepts. A case with a path that is too long is missed, although its directory is listed; by
a shorter path it is found and has what it needs. -/
theorem load_misses_loneCase :
    (isCase (loneCase [0xFF]) suiteDir [0xFF] = true ∧
      Equipped Spec.read? (loneCase [0xFF]) (suiteDir.join [0xFF]) plain ∧
      load Spec.read? (loneCase [0xFF]) suiteDir =
        .error (.invalidName (suiteDir.join [0xFF]))) ∧
    isCase (loneCase longName) suiteDir longName = true ∧
      Equipped Spec.read? (loneCase longName) (suiteDir.join longName) plain ∧
      (loneCase longName).list roundabout = .ok [longName] ∧
      load Spec.read? (loneCase longName) roundabout = .error (.noCases roundabout) := by
  have hstray : Equipped Spec.read? (loneCase [0xFF]) (suiteDir.join [0xFF]) plain :=
    ⟨by decide, ⟨_, by rfl, read?_plain⟩, nofun⟩
  have hnear : Equipped Spec.read? (loneCase longName) (suiteDir.join longName) plain :=
    ⟨by decide +kernel, ⟨_, by decide +kernel, read?_plain⟩, nofun⟩
  have hlist : (loneCase longName).list roundabout = .ok [longName] := by decide +kernel
  have hlong : Path.maxLength < (roundabout.join longName).length := by decide +kernel
  have hmissed : isCase (loneCase longName) roundabout longName = false := by
    rw [isCase, FileTree.isDirectory_of_long hlong, Bool.false_and]
  refine ⟨⟨by decide, hstray, by rfl⟩, by decide +kernel, hnear, hlist, ?_⟩
  rw [load_eq_loadEntries hlist, loadEntries, List.mapM_cons, loadCase_of_not_isCase hmissed]
  rfl

end Suite

end MiniC
