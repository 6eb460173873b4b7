import MiniC.Proofs.Stack.Bindings
import MiniC.Proofs.Stack.Calls

/-!
# What a run does not depend on

Bindings that no `load` of the code names do not interfere with a run: two machines whose scopes
differ in such bindings only take the same steps. The scopes can be told apart in the snapshots, but
only where no executed `assign` has made them equal.
-/

namespace MiniC.Stack

set_option autoImplicit false

namespace Frame

variable {f g : Frame} {instr : Instr} {seen : String → Prop}

def withScope (f : Frame) (scope : Scope) : Frame :=
  { f with scope }

/-- What an instruction makes of a scope: an `assign` that finds a value binds its name. -/
def scopeAfter (f : Frame) (instr : Instr) (scope : Scope) : Scope :=
  match instr, f.stack with
  | .assign name, value :: _ => scope.setVariable name value
  | _, _ => scope

theorem pushResult_withScope (f : Frame) (scope : Scope) (r : Except ValueError Value) :
    (f.withScope scope).pushResult r =
      ((f.pushResult r).1, (f.pushResult r).2.withScope scope) := by
  cases r <;> rfl

theorem setFlag_withScope (f : Frame) (scope : Scope) (r : Except ValueError Bool) :
    (f.withScope scope).setFlag r = ((f.setFlag r).1, (f.setFlag r).2.withScope scope) := by
  cases r <;> rfl

theorem execute_load (f : Frame) (name : String) :
    f.execute (.load name) = match f.scope.sees name with
      | some (some value) => (.ok 0, f.push value)
      | some none => (.error (.notAVariable name), f)
      | none => (.error (.undefinedVariable name), f) := by
  simp only [execute, Scope.sees]
  rcases f.scope.get? name with _ | value | function <;> rfl

/-- An instruction sees of the scope only what a `load` names. -/
theorem execute_withScope {scope : Scope}
    (hload : ∀ name, instr = .load name → f.scope.sees name = scope.sees name) :
    (f.withScope scope).execute instr =
      ((f.execute instr).1, (f.execute instr).2.withScope (f.scopeAfter instr scope)) := by
  obtain ⟨own, stack, flag, result⟩ := f
  cases instr with
  | load name =>
    rw [execute_load, execute_load, hload name rfl]
    simp only [withScope]
    rcases scope.sees name with _ | _ | value <;> rfl
  | constant | jump | eof => rfl
  | assign name => cases stack <;> rfl
  | negate =>
    cases stack with
    | nil => rfl
    | cons value stack => exact pushResult_withScope ⟨own, stack, flag, result⟩ scope value.negate
  | arith op =>
    match stack with
    | [] => rfl
    | [_] => rfl
    | right :: left :: stack =>
      exact pushResult_withScope ⟨own, stack, flag, result⟩ scope (left.arith op right)
  | compare c =>
    match stack with
    | [] => rfl
    | [_] => rfl
    | right :: left :: stack =>
      exact setFlag_withScope ⟨own, stack, flag, result⟩ scope (left.compare c right)
  | jumpIfFalse steps => rcases flag with _ | _ | _ <;> rfl
  | ret => cases stack <;> rfl

theorem scope_execute (f : Frame) (instr : Instr) :
    (f.execute instr).2.scope = f.scopeAfter instr f.scope := by
  have h : (f.withScope f.scope).execute instr = _ := execute_withScope fun _ _ => rfl
  exact congrArg (fun r => r.2.scope) h

/-- An executed `assign` gives its name the same value in every scope, and all other names keep what
they are bound to. -/
theorem scopeAfter_cases (f : Frame) (instr : Instr) (name : String) :
    (f.executes? instr = some (.assign name) ∧
      ∃ value, ∀ scope, (f.scopeAfter instr scope).get? name = some (.variable value)) ∨
    (f.executes? instr ≠ some (.assign name) ∧
      ∀ scope, (f.scopeAfter instr scope).get? name = scope.get? name) := by
  obtain ⟨own, stack, flag, result⟩ := f
  cases instr with
  | assign other =>
    cases stack with
    | nil => exact .inr ⟨nofun, fun _ => rfl⟩
    | cons value stack =>
      by_cases hname : other = name
      · subst hname
        refine .inl ⟨rfl, value, ?_⟩
        intro scope
        exact (Scope.get?_setVariable ..).trans (if_pos rfl)
      · refine .inr ⟨?_, ?_⟩
        · intro h
          cases h
          exact hname rfl
        · intro scope
          exact (Scope.get?_setVariable ..).trans (if_neg hname)
  | _ =>
    refine .inr ⟨?_, fun _ => rfl⟩
    intro h
    obtain ⟨_, _, hassign⟩ := Option.map_eq_some_iff.mp h
    cases hassign

/-- Two frames that differ in their scopes only, and in which an instruction sees the same under the
names of `seen`. -/
structure Alike (seen : String → Prop) (f g : Frame) : Prop where
  stack : f.stack = g.stack
  flag : f.flag = g.flag
  result : f.result = g.result
  scope : ∀ name, seen name → f.scope.sees name = g.scope.sees name

theorem Alike.eq_withScope (h : Alike seen f g) : g = f.withScope g.scope := by
  obtain ⟨scope, stack, flag, result⟩ := g
  obtain ⟨rfl, rfl, rfl, _⟩ := h
  rfl

/-- On frames that are alike an instruction gives the same answer. They stay alike, and become so
under the name that is assigned. -/
theorem Alike.execute (h : Alike seen f g) (hload : ∀ name, instr = .load name → seen name) :
    (f.execute instr).1 = (g.execute instr).1 ∧
      Alike (fun name => seen name ∨ f.executes? instr = some (.assign name))
        (f.execute instr).2 (g.execute instr).2 := by
  have hg : g.execute instr =
      ((f.execute instr).1, (f.execute instr).2.withScope (f.scopeAfter instr g.scope)) := by
    rw [h.eq_withScope]
    apply execute_withScope
    intro name hname
    exact h.scope name (hload name hname)
  rw [hg]
  refine ⟨rfl, rfl, rfl, rfl, ?_⟩
  intro name hname
  simp only [scope_execute, withScope, Scope.sees]
  rcases f.scopeAfter_cases instr name with ⟨_, value, hvalue⟩ | ⟨hnot, hkept⟩
  · rw [hvalue, hvalue]
  · rw [hkept, hkept]
    exact h.scope name (hname.resolve_right hnot)

end Frame

namespace Machine

variable {a b m : Machine} {seen : String → Prop} {name : String}

/-- Two machines at the same place of the same code, with frames that are alike. -/
structure Lockstep (seen : String → Prop) (a b : Machine) : Prop where
  code : a.code = b.code
  index : a.index = b.index
  status : a.status = .running ↔ b.status = .running
  frame : a.frame.Alike seen b.frame

theorem Lockstep.mono {seen' : String → Prop} (h : Lockstep seen a b)
    (hseen : ∀ name, seen' name → seen name) : Lockstep seen' a b := by
  obtain ⟨hcode, hindex, hstatus, hstack, hflag, hresult, hscope⟩ := h
  exact ⟨hcode, hindex, hstatus, hstack, hflag, hresult, fun name hn => hscope name (hseen name hn)⟩

theorem statusAfter_running_iff {instr : Instr} {f g : Frame} :
    statusAfter instr f = .running ↔ statusAfter instr g = .running := by
  unfold statusAfter
  split <;> simp

/-- An instruction that gives the same answer on both frames keeps the machines together. -/
theorem Lockstep.next_of_execute {seen' : String → Prop} {instr : Instr} (h : Lockstep seen a b)
    (ha : a.status = .running) (hi : a.code[a.index]? = some instr)
    (hanswer : (a.frame.execute instr).1 = (b.frame.execute instr).1)
    (hframe : (a.frame.execute instr).2.Alike seen' (b.frame.execute instr).2) :
    a.next.1 = b.next.1 ∧ Lockstep seen' a.next.2 b.next.2 := by
  have hb := h.status.mp ha
  have hi' : b.code[b.index]? = some instr := by rw [← h.code, ← h.index, hi]
  rcases hea : a.frame.execute instr with ⟨answer, f⟩
  rcases heb : b.frame.execute instr with ⟨answer', g⟩
  rw [hea, heb] at hanswer hframe
  obtain rfl : answer = answer' := hanswer
  cases answer with
  | error fault =>
    rw [(Call.fault ha hi hea).next_eq, (Call.fault hb hi' heb).next_eq]
    exact ⟨rfl, h.code, h.index, h.status, hframe⟩
  | ok steps =>
    have hresume : resume? b.index steps = resume? a.index steps := by rw [h.index]
    cases hr : resume? a.index steps with
    | none =>
      rw [hr] at hresume
      rw [(Call.refused ha hi hea hr).next_eq, (Call.refused hb hi' heb hresume).next_eq, h.index]
      exact ⟨rfl, h.code, rfl, h.status, hframe⟩
    | some index =>
      rw [hr] at hresume
      rw [(Call.resumed ha hi hea hr).next_eq, (Call.resumed hb hi' heb hresume).next_eq]
      exact ⟨rfl, h.code, rfl, statusAfter_running_iff, hframe⟩

theorem Lockstep.next (h : Lockstep seen a b) (hload : ∀ name, .load name ∈ a.code → seen name) :
    a.next.1 = b.next.1 ∧ a.executes? = b.executes? ∧
      Lockstep (fun name => seen name ∨ a.executes? = some (.assign name)) a.next.2 b.next.2 := by
  have hidle : a.executes? = none →
      Lockstep (fun name => seen name ∨ a.executes? = some (.assign name)) a b := by
    intro hnone
    rw [hnone]
    exact h.mono fun name hname => hname.resolve_right nofun
  cases ha : a.status with
  | finished x =>
    cases hb : b.status with
    | running =>
      rw [h.status.mpr hb] at ha
      cases ha
    | finished y =>
      rw [(Call.finished ha).next_eq, (Call.finished hb).next_eq]
      exact ⟨rfl, by simp [executes?, ha, hb], hidle (by simp [executes?, ha])⟩
  | running =>
    have hb := h.status.mp ha
    have hcode : b.code[b.index]? = a.code[a.index]? := by rw [h.code, h.index]
    cases hi : a.code[a.index]? with
    | none =>
      rw [hi] at hcode
      rw [(Call.outside ha hi).next_eq, (Call.outside hb hcode).next_eq]
      exact ⟨rfl, by simp [executes?, ha, hb, hi, hcode], hidle (by simp [executes?, ha, hi])⟩
    | some instr =>
      rw [hi] at hcode
      have hseen : ∀ name, instr = .load name → seen name := by
        rintro name rfl
        exact hload name (List.mem_of_getElem? hi)
      obtain ⟨hanswer, hframe⟩ := h.frame.execute hseen
      have hexecutes : a.executes? = a.frame.executes? instr := by simp [executes?, ha, hi]
      have hsame : a.executes? = b.executes? := by
        simp only [executes?, ha, hb, hi, hcode, Frame.executes?, hanswer]
      rw [hexecutes] at hsame ⊢
      obtain ⟨houtcome, hstep⟩ := h.next_of_execute ha hi hanswer hframe
      exact ⟨houtcome, hsame, hstep⟩

theorem Lockstep.after (h : Lockstep seen a b) (hload : ∀ name, .load name ∈ a.code → seen name)
    (n : Nat) :
    a.executed n = b.executed n ∧
      Lockstep (fun name => seen name ∨ .assign name ∈ a.executed n) (a.after n) (b.after n) := by
  induction n generalizing seen a b with
  | zero =>
    refine ⟨rfl, h.mono ?_⟩
    intro name hname
    exact hname.resolve_right List.not_mem_nil
  | succ n ih =>
    obtain ⟨_, hexecutes, hnext⟩ := h.next hload
    obtain ⟨hexecuted, hafter⟩ := ih hnext (by
      intro name hname
      rw [(next_code a).1] at hname
      exact .inl (hload name hname))
    refine ⟨?_, hafter.mono ?_⟩
    · rw [executed, executed, hexecutes, hexecuted]
    · intro name hname
      simp only [executed, List.mem_append, Option.mem_toList] at hname
      rw [or_assoc]
      exact hname

section Bindings

theorem get?_next (h : m.executes? ≠ some (.assign name)) :
    m.next.2.frame.scope.get? name = m.frame.scope.get? name := by
  rcases next_cases m with ⟨hidle, _⟩ | ⟨instr, _, _, hframe, hexecutes⟩
  · rw [hidle]
  · rw [hexecutes] at h
    rw [hframe, Frame.scope_execute]
    rcases m.frame.scopeAfter_cases instr name with ⟨hassign, _⟩ | ⟨_, hkept⟩
    · exact absurd hassign h
    · exact hkept _

theorem has_next_of_assign (h : m.executes? = some (.assign name)) :
    m.next.2.frame.scope.has name := by
  rcases next_cases m with ⟨_, hnone⟩ | ⟨instr, _, _, hframe, hexecutes⟩
  · rw [hnone] at h
    cases h
  · rw [hexecutes] at h
    rw [hframe, Frame.scope_execute, Scope.has_iff]
    rcases m.frame.scopeAfter_cases instr name with ⟨_, value, hvalue⟩ | ⟨hnot, _⟩
    · exact ⟨_, hvalue _⟩
    · exact absurd h hnot

theorem get?_after {n : Nat} (h : .assign name ∉ m.executed n) :
    (m.after n).frame.scope.get? name = m.frame.scope.get? name := by
  induction n generalizing m with
  | zero => rfl
  | succ n ih =>
    simp only [executed, List.mem_append, Option.mem_toList, not_or] at h
    exact (ih h.2).trans (get?_next h.1)

theorem has_after (m : Machine) (n : Nat) (name : String) :
    (m.after n).frame.scope.has name ↔ m.frame.scope.has name ∨ .assign name ∈ m.executed n := by
  induction n generalizing m with
  | zero => simp [after, executed]
  | succ n ih =>
    simp only [after, executed, List.mem_append, Option.mem_toList]
    rw [ih]
    by_cases h : m.executes? = some (.assign name)
    · simp [has_next_of_assign h, h]
    · simp only [h, false_or, Scope.has_iff, get?_next h]

end Bindings

end Machine

/-- The memory of a snapshot has the names of the initial scope and those of the executed `assign`s,
and under a name that was not assigned it has the initial text. -/
structure Snapshot.Remembers (x : Snapshot) (initial : Scope) (executed : List Instr) : Prop where
  names : ∀ name, name ∈ x.memory.map Prod.fst ↔ initial.has name ∨ .assign name ∈ executed
  kept : ∀ name, .assign name ∉ executed →
    ∀ text, (name, text) ∈ x.memory ↔ (name, text) ∈ initial.dump

namespace Machine

theorem remembers_after {code : List Instr} {scope : Scope} {n : Nat} {x : Snapshot}
    (h : ((ofCode code scope).after n).status = .finished x) :
    x.Remembers scope ((ofCode code scope).executed n) := by
  have hx := (showsFrame_ofCode code scope).after n x h
  subst hx
  refine ⟨?_, ?_⟩
  · intro name
    exact Scope.mem_names_dump_iff.trans (has_after (ofCode code scope) n name)
  · intro name hname text
    apply Scope.mem_dump_congr
    unfold Scope.sees
    rw [get?_after hname]
    rfl

/-- Two runs of the same code from scopes in which its `load`s see the same go on together: after
any number of calls they are at the same place, with the same stack, flag and result, and the next
call has the same outcome. They finish together, and then the snapshots show the same but for
names that were not assigned and under which the scopes differed from the start. -/
theorem lockstep_of_sees {code : List Instr} {s t : Scope}
    (h : ∀ name, .load name ∈ code → s.sees name = t.sees name) (n : Nat) :
    let a := (ofCode code s).after n
    let b := (ofCode code t).after n
    let executed := (ofCode code s).executed n
    (a.index = b.index ∧ a.frame.stack = b.frame.stack ∧ a.frame.flag = b.frame.flag ∧
      a.frame.result = b.frame.result) ∧ a.next.1 = b.next.1 ∧
    (ofCode code t).executed n = executed ∧ (a.status = .running ↔ b.status = .running) ∧
    ∀ x y, a.status = .finished x → b.status = .finished y →
      x.stack = y.stack ∧ x.result = y.result ∧ x.Remembers s executed ∧ y.Remembers t executed ∧
      ∀ name, .assign name ∈ executed ∨ s.sees name = t.sees name →
        ∀ text, (name, text) ∈ x.memory ↔ (name, text) ∈ y.memory := by
  have hstart : Lockstep (fun name => s.sees name = t.sees name) (ofCode code s) (ofCode code t) :=
    ⟨rfl, rfl, Iff.rfl, rfl, rfl, rfl, fun _ hname => hname⟩
  obtain ⟨hexecuted, hafter⟩ := hstart.after h n
  obtain ⟨hstack, hflag, hresult, hscope⟩ := hafter.frame
  refine ⟨⟨hafter.index, hstack, hflag, hresult⟩, ?_, hexecuted.symm, hafter.status, ?_⟩
  · refine (hafter.next ?_).1
    intro name hname
    rw [after_code] at hname
    exact .inl (h name hname)
  · intro x y hx hy
    have hxr := remembers_after hx
    have hyr := remembers_after hy
    rw [← hexecuted] at hyr
    have hxf := (showsFrame_ofCode code s).after n x hx
    have hyf := (showsFrame_ofCode code t).after n y hy
    subst hxf hyf
    refine ⟨congrArg List.reverse hstack, hresult, hxr, hyr, ?_⟩
    intro name hname text
    exact Scope.mem_dump_congr (hscope name hname.symm)

def successor : List Instr :=
  [.load "a", .constant (.int 1), .arith .add, .assign "b", .eof]

def functionIsB : Scope :=
  (Scope.ofVariables [("a", .int 1), ("c", .int 5)]).setFunction "b" ⟨successor⟩

def functionIsC : Scope :=
  (Scope.ofVariables [("a", .int 1)]).setFunction "c" ⟨successor⟩

/-- The function under `b` is replaced, so that only what was under `c` from the start is seen. -/
theorem lockstep_successor :
    ∃ x y, ((ofCode successor functionIsB).after 5).status = .finished x ∧
      ((ofCode successor functionIsC).after 5).status = .finished y ∧
      x.memory = [("a", "1"), ("b", "2"), ("c", "5")] ∧
      y.memory = [("a", "1"), ("b", "2"), ("c", "<function>")] ∧
      x.Remembers functionIsB successor ∧ y.Remembers functionIsC successor ∧
      ∀ text, ("b", text) ∈ x.memory ↔ ("b", text) ∈ y.memory := by
  have hsees : ∀ name, .load name ∈ successor → functionIsB.sees name = functionIsC.sees name := by
    intro name hname
    have ha : name = "a" := by simpa [successor] using hname
    subst ha
    rfl
  obtain ⟨_, _, _, _, hfinished⟩ := lockstep_of_sees hsees 5
  obtain ⟨x, hx, hxm⟩ : ∃ x, ((ofCode successor functionIsB).after 5).status = .finished x ∧
      x.memory = [("a", "1"), ("b", "2"), ("c", "5")] := ⟨_, rfl, rfl⟩
  obtain ⟨y, hy, hym⟩ : ∃ y, ((ofCode successor functionIsC).after 5).status = .finished y ∧
      y.memory = [("a", "1"), ("b", "2"), ("c", "<function>")] := ⟨_, rfl, rfl⟩
  obtain ⟨_, _, hxr, hyr, hsame⟩ := hfinished x y hx hy
  have hb : .assign "b" ∈ (ofCode successor functionIsB).executed 5 := by
    decide
  exact ⟨x, y, hx, hy, hxm, hym, hxr, hyr, hsame "b" (.inl hb)⟩

end Machine

end MiniC.Stack
