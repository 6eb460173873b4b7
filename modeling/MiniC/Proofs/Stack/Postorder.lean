import MiniC.Proofs.Sequence
import MiniC.Proofs.Stack.Faults
import MiniC.Proofs.Stack.Repetition

/-!
# Trees in postorder

The code of an arithmetic tree has an instruction for every node, behind the code of its operands.
Wherever it stands in a larger code, it pushes the value of the tree on whatever is on the stack, or
stops at the first node without a value. The induction is on the tree, for any machine in front of
its code: between two operands only the stack and the position have changed.
-/

namespace MiniC.Stack

set_option autoImplicit false

inductive Tree where
  | constant (value : Value)
  | load (name : String)
  | negate (operand : Tree)
  | arith (op : Arith) (left right : Tree)

def Scope.value (s : Scope) (name : String) : Except Fault Value :=
  match s.get? name with
  | some (.variable value) => .ok value
  | some (.function _) => .error (.notAVariable name)
  | none => .error (.undefinedVariable name)

namespace Tree

def eval (scope : Scope) : Tree → Except Fault Value
  | .constant value => .ok value
  | .load name => scope.value name
  | .negate operand => do
    let v ← operand.eval scope
    v.negate.mapError .value
  | .arith op left right => do
    let l ← left.eval scope
    let r ← right.eval scope
    (l.arith op r).mapError .value

def code : Tree → List Instr
  | .constant value => [.constant value]
  | .load name => [.load name]
  | .negate operand => operand.code ++ [.negate]
  | .arith op left right => left.code ++ (right.code ++ [.arith op])

/-- The nodes of a tree, each as the tree below it, behind those of its operands. -/
def nodes : Tree → List Tree
  | .constant value => [.constant value]
  | .load name => [.load name]
  | .negate operand => operand.nodes ++ [.negate operand]
  | .arith op left right => left.nodes ++ (right.nodes ++ [.arith op left right])

/-- How many nodes have a value before the first one that has none. -/
def completed (scope : Scope) (ts : List Tree) : Nat :=
  (ts.takeWhile fun t => (t.eval scope).isOk).length

def sum (first : Tree) (others : List Tree) : Tree :=
  others.foldl (.arith .add) first

theorem length_nodes (t : Tree) : t.nodes.length = t.code.length := by
  induction t with
  | constant | load => rfl
  | negate operand ih => simp [nodes, code, ih]
  | arith op left right ihl ihr => simp [nodes, code, ihl, ihr]

section Nodes

variable {scope : Scope} {ts us : List Tree} {t : Tree}

theorem completed_append_of_lt (h : completed scope ts < ts.length) :
    completed scope (ts ++ us) = completed scope ts := by
  unfold completed at h ⊢
  rw [List.takeWhile_append, if_neg (Nat.ne_of_lt h)]

theorem completed_append_of_eq (h : completed scope ts = ts.length) :
    completed scope (ts ++ us) = ts.length + completed scope us := by
  unfold completed at h ⊢
  rw [List.takeWhile_append, if_pos h, List.length_append]

theorem completed_singleton_of_error {fault : Fault} (h : t.eval scope = .error fault) :
    completed scope [t] = 0 := by
  simp [completed, h, Except.isOk, Except.toBool]

theorem completed_singleton_of_ok {v : Value} (h : t.eval scope = .ok v) :
    completed scope [t] = 1 := by
  simp [completed, h, Except.isOk, Except.toBool]

end Nodes

section Eval

variable {scope : Scope} {v : Value} {fault : Fault} {op : Arith} {operand left right : Tree}

theorem eval_negate_eq_ok (h : (negate operand).eval scope = .ok v) :
    ∃ w, operand.eval scope = .ok w ∧ w.negate.mapError Fault.value = .ok v :=
  bind_eq_ok_iff.mp h

theorem eval_arith_eq_ok (h : (arith op left right).eval scope = .ok v) :
    ∃ l r, left.eval scope = .ok l ∧ right.eval scope = .ok r ∧
      (l.arith op r).mapError Fault.value = .ok v := by
  obtain ⟨l, hl, h⟩ := bind_eq_ok_iff.mp h
  obtain ⟨r, hr, h⟩ := bind_eq_ok_iff.mp h
  exact ⟨l, r, hl, hr, h⟩

/-- All nodes of a tree with a value have one. -/
theorem completed_of_ok {t : Tree} (h : t.eval scope = .ok v) :
    completed scope t.nodes = t.nodes.length := by
  induction t generalizing v with
  | constant | load => exact completed_singleton_of_ok h
  | negate operand ih =>
    obtain ⟨w, hw, _⟩ := eval_negate_eq_ok h
    rw [nodes, completed_append_of_eq (ih hw), completed_singleton_of_ok h, List.length_append,
      List.length_singleton]
  | arith op left right ihl ihr =>
    obtain ⟨l, r, hl, hr, _⟩ := eval_arith_eq_ok h
    rw [nodes, completed_append_of_eq (ihl hl), completed_append_of_eq (ihr hr),
      completed_singleton_of_ok h, List.length_append, List.length_append, List.length_singleton]

/-- The sum of a text and any values is the text of all of them. -/
theorem eval_sum {first : Tree} {others : List Tree} {s : String} {vs : List Value}
    (hfirst : first.eval scope = .ok (.str s)) (hothers : others.mapM (eval scope) = .ok vs) :
    (sum first others).eval scope = .ok (.str (String.join (s :: vs.map Value.display))) := by
  induction others generalizing first s vs with
  | nil =>
    cases hothers
    simpa [sum, String.join] using hfirst
  | cons t others ih =>
    rw [List.mapM_cons] at hothers
    obtain ⟨v, hv, h⟩ := bind_eq_ok_iff.mp hothers
    obtain ⟨vs, hvs, h⟩ := bind_eq_ok_iff.mp h
    cases h
    have hadd : (arith .add first t).eval scope = .ok (.str (s ++ v.display)) := by
      rw [eval, hfirst, hv]
      cases v <;> rfl
    have hsum := ih hadd hvs
    simpa [sum, String.join] using hsum

end Eval

end Tree

namespace Frame

def pushOutcome (f : Frame) : Except Fault Value → Except Fault Int64 × Frame
  | .ok v => (.ok 0, f.push v)
  | .error fault => (.error fault, f)

theorem pushResult_eq (f : Frame) (r : Except ValueError Value) :
    f.pushResult r = f.pushOutcome (r.mapError .value) := by
  cases r <;> rfl

theorem execute_load_eq (f : Frame) (name : String) :
    f.execute (.load name) = f.pushOutcome (f.scope.value name) := by
  simp only [execute, Scope.value]
  rcases f.scope.get? name with _ | value | function <;> rfl

theorem execute_negate (f : Frame) (v : Value) :
    (f.push v).execute .negate = f.pushOutcome (v.negate.mapError .value) :=
  pushResult_eq f v.negate

theorem execute_arith (f : Frame) (op : Arith) (l r : Value) :
    ((f.push l).push r).execute (.arith op) = f.pushOutcome ((l.arith op r).mapError .value) :=
  pushResult_eq f (l.arith op r)

end Frame

namespace Machine

def StandsAt (m : Machine) (cs : List Instr) : Prop :=
  cs <+: m.code.drop m.index

/-- The machine `n` instructions further on, with one more value on the stack. -/
def pushed (m : Machine) (n : Nat) (v : Value) : Machine :=
  { m with index := m.index + n, frame := m.frame.push v }

theorem pushed_scope (m : Machine) (n : Nat) (v : Value) :
    (m.pushed n v).frame.scope = m.frame.scope :=
  rfl

section StandsAt

variable {m : Machine} {cs ds : List Instr} {instr : Instr}

theorem StandsAt.left (h : m.StandsAt (cs ++ ds)) : m.StandsAt cs :=
  (List.prefix_append cs ds).trans h

theorem StandsAt.right (h : m.StandsAt (cs ++ ds)) (v : Value) :
    (m.pushed cs.length v).StandsAt ds := by
  obtain ⟨rest, hrest⟩ := h
  refine ⟨rest, ?_⟩
  simp only [pushed]
  rw [← List.drop_drop, ← hrest, List.append_assoc, List.drop_left]

theorem StandsAt.head (h : m.StandsAt [instr]) : m.code[m.index]? = some instr := by
  obtain ⟨rest, hrest⟩ := h
  rw [← List.head?_drop, ← hrest]
  rfl

end StandsAt

section Steps

variable {m m' : Machine} {n k : Nat}

/-- `n` calls succeed and lead from `m` to the running machine `m'`. -/
structure Leads (n : Nat) (m m' : Machine) : Prop where
  goesOn : GoesOn n m
  after_eq : m.after n = m'

theorem Leads.trans {m'' : Machine} (h : Leads n m m') (h' : Leads k m' m'') :
    Leads (n + k) m m'' := by
  obtain ⟨hgo, rfl⟩ := h
  obtain ⟨hgo', rfl⟩ := h'
  exact ⟨hgo.add hgo', after_add m n k⟩

end Steps

/-- `n` calls succeed, and the one behind them fails with `fault`. -/
def StopsAt (n : Nat) (m : Machine) (fault : Fault) : Prop :=
  GoesOn n m ∧ (m.after n).next.1 = .error fault

theorem Leads.stopsAt {n k : Nat} {m m' : Machine} {fault : Fault} (h : Leads n m m')
    (h' : StopsAt k m' fault) : StopsAt (n + k) m fault := by
  obtain ⟨hgo, rfl⟩ := h
  refine ⟨hgo.add h'.1, ?_⟩
  rw [after_add]
  exact h'.2

section Push

variable {m : Machine} {instr : Instr} {f : Frame} {r : Except Fault Value}
  (hat : m.StandsAt [instr]) (he : m.frame.execute instr = f.pushOutcome r)
  (hs : m.status = .running)
include hat he hs

theorem leads_of_ok {v : Value} (hlength : m.code.length < positionBound) (heof : instr ≠ .eof)
    (hr : r = .ok v) : Leads 1 m { m with index := m.index + 1, frame := f.push v } := by
  subst hr
  have hindex := (List.getElem?_eq_some_iff.mp hat.head).1
  have hnext := (Call.resumed hs hat.head he (resume?_zero hindex hlength)).next_eq
  rw [statusAfter, if_neg heof, ← hs] at hnext
  refine ⟨.succ hnext hs (.zero _), ?_⟩
  rw [after, after, hnext]

theorem stopsAt_of_error {fault : Fault} (hr : r = .error fault) : StopsAt 0 m fault := by
  subst hr
  refine ⟨.zero m, ?_⟩
  rw [after, (Call.fault hs hat.head he).next_eq]

end Push

/-- The code of a tree with a value pushes that value. -/
theorem leads_code {t : Tree} {m : Machine} {v : Value} (hlength : m.code.length < positionBound)
    (hs : m.status = .running) (hat : m.StandsAt t.code) (h : t.eval m.frame.scope = .ok v) :
    Leads t.code.length m (m.pushed t.code.length v) := by
  induction t generalizing m v with
  | constant value =>
    cases h
    exact leads_of_ok (r := .ok value) hat rfl hs hlength (by simp) rfl
  | load name => exact leads_of_ok hat (m.frame.execute_load_eq name) hs hlength (by simp) h
  | negate operand ih =>
    obtain ⟨w, hw, hv⟩ := Tree.eval_negate_eq_ok h
    have hoperand := ih hlength hs hat.left hw
    have hlast := leads_of_ok (hat.right w) (m.frame.execute_negate w) hs hlength (by simp) hv
    rw [Tree.code, List.length_append]
    exact hoperand.trans hlast
  | arith op left right ihl ihr =>
    obtain ⟨l, r, hl, hr, hv⟩ := Tree.eval_arith_eq_ok h
    have hleft := ihl hlength hs hat.left hl
    have hright := @ihr (m.pushed left.code.length l) r hlength hs (hat.right l).left hr
    have hlast := leads_of_ok ((hat.right l).right r) (m.frame.execute_arith op l r) hs hlength
      (by simp) hv
    have hend := hleft.trans (hright.trans hlast)
    simp only [pushed, Nat.add_assoc] at hend
    rw [Tree.code, List.length_append, List.length_append]
    exact hend

/-- The calls for `nodes` stop at the first node without a value, and there is one. -/
def StopsIn (nodes : List Tree) (m : Machine) (fault : Fault) : Prop :=
  Tree.completed m.frame.scope nodes < nodes.length ∧
    StopsAt (Tree.completed m.frame.scope nodes) m fault

section StopsIn

variable {t : Tree} {nodes : List Tree} {m : Machine} {fault : Fault}

theorem stopsIn_singleton (hstop : StopsAt 0 m fault) (h : t.eval m.frame.scope = .error fault) :
    StopsIn [t] m fault := by
  rw [StopsIn, Tree.completed_singleton_of_error h]
  exact ⟨Nat.zero_lt_one, hstop⟩

theorem StopsIn.append (h : StopsIn nodes m fault) (more : List Tree) :
    StopsIn (nodes ++ more) m fault := by
  obtain ⟨hlt, hstop⟩ := h
  rw [StopsIn, Tree.completed_append_of_lt hlt, List.length_append]
  exact ⟨Nat.lt_add_right _ hlt, hstop⟩

/-- Nodes behind an operand that has a value are reached with that value pushed. -/
theorem StopsIn.behind {v : Value} (h : StopsIn nodes (m.pushed t.code.length v) fault)
    (hv : t.eval m.frame.scope = .ok v)
    (hleads : Leads t.code.length m (m.pushed t.code.length v)) :
    StopsIn (t.nodes ++ nodes) m fault := by
  obtain ⟨hlt, hstop⟩ := h
  rw [pushed_scope] at hlt hstop
  rw [StopsIn, Tree.completed_append_of_eq (Tree.completed_of_ok hv), List.length_append,
    t.length_nodes]
  exact ⟨Nat.add_lt_add_left hlt _, hleads.stopsAt hstop⟩

end StopsIn

/-- The code of a tree without a value stops at its first node without one. -/
theorem stopsIn_nodes {t : Tree} {m : Machine} {fault : Fault}
    (hlength : m.code.length < positionBound) (hs : m.status = .running)
    (hat : m.StandsAt t.code) (h : t.eval m.frame.scope = .error fault) :
    StopsIn t.nodes m fault := by
  induction t generalizing m with
  | constant value => cases h
  | load name =>
    exact stopsIn_singleton (stopsAt_of_error hat (m.frame.execute_load_eq name) hs h) h
  | negate operand ih =>
    rcases bind_eq_error_iff.mp h with ho | ⟨w, hw, hv⟩
    · exact (ih hlength hs hat.left ho).append _
    · have hlast := stopsAt_of_error (hat.right w) (m.frame.execute_negate w) hs hv
      exact (stopsIn_singleton hlast h).behind hw (leads_code hlength hs hat.left hw)
  | arith op left right ihl ihr =>
    rcases bind_eq_error_iff.mp h with hl | ⟨l, hl, hrest⟩
    · exact (ihl hlength hs hat.left hl).append _
    · have hleft := leads_code hlength hs hat.left hl
      suffices hbehind : StopsIn (right.nodes ++ [.arith op left right])
          (m.pushed left.code.length l) fault from hbehind.behind hl hleft
      rcases bind_eq_error_iff.mp hrest with hr | ⟨r, hr, hv⟩
      · exact (@ihr (m.pushed left.code.length l) hlength hs (hat.right l).left hr).append _
      · have hright := @leads_code right (m.pushed left.code.length l) r hlength hs
          (hat.right l).left hr
        have hlast := stopsAt_of_error ((hat.right l).right r) (m.frame.execute_arith op l r) hs hv
        exact (stopsIn_singleton hlast h).behind hr hright

/-- The code of a tree, wherever it stands, pushes the value of the tree and changes nothing else.
If the tree has no value, the calls succeed up to its first node without one, and there the machine
fails as the evaluation does. A sum that begins with a text pushes the texts of all its parts. -/
theorem code_evaluates (t : Tree) (m : Machine) (hlength : m.code.length < positionBound)
    (hs : m.status = .running) (hat : m.StandsAt t.code) :
    (∀ v, t.eval m.frame.scope = .ok v →
      GoesOn t.code.length m ∧
      m.after t.code.length = { m with
        index := m.index + t.code.length
        frame := { m.frame with stack := v :: m.frame.stack } }) ∧
    (∀ fault, t.eval m.frame.scope = .error fault →
      Tree.completed m.frame.scope t.nodes < t.code.length ∧
      GoesOn (Tree.completed m.frame.scope t.nodes) m ∧
      (m.after (Tree.completed m.frame.scope t.nodes)).next.1 = .error fault) ∧
    ∀ first others s vs, t = Tree.sum first others → first.eval m.frame.scope = .ok (.str s) →
      others.mapM (Tree.eval m.frame.scope) = .ok vs →
      (m.after t.code.length).frame.stack =
        .str (String.join (s :: vs.map Value.display)) :: m.frame.stack := by
  refine ⟨?_, ?_, ?_⟩
  · intro v hv
    obtain ⟨hgo, hafter⟩ := leads_code hlength hs hat hv
    exact ⟨hgo, hafter⟩
  · intro fault hfault
    obtain ⟨hlt, hstop⟩ := stopsIn_nodes hlength hs hat hfault
    rw [t.length_nodes] at hlt
    exact ⟨hlt, hstop⟩
  · rintro first others s vs rfl hfirst hothers
    rw [(leads_code hlength hs hat (Tree.eval_sum hfirst hothers)).after_eq]
    rfl

/-- About to execute the code of a tree, with a value on the stack and the flag set. -/
def before (t : Tree) : Machine :=
  ⟨.eof :: t.code ++ [.eof], .empty, 1, .running,
    ⟨.ofVariables [("age", .int 21)], [.int 7], some false, none⟩⟩

/-- A text, a number and a text are joined; a product stops at its second operand. -/
theorem code_evaluates_greeting :
    ((before (.sum (.constant (.str "I am ")) [.load "age", .constant (.str " years old.")])).after
      5).frame.stack = [.str "I am 21 years old.", .int 7] ∧
    GoesOn 1 (before (.arith .multiply (.load "age") (.load "name"))) ∧
    ((before (.arith .multiply (.load "age") (.load "name"))).after 1).next.1 =
      .error (.undefinedVariable "name") := by
  obtain ⟨_, _, hsum⟩ := code_evaluates
    (.sum (.constant (.str "I am ")) [.load "age", .constant (.str " years old.")]) (before _)
    (by decide) rfl ⟨[.eof], rfl⟩
  obtain ⟨_, hstops, _⟩ := code_evaluates (.arith .multiply (.load "age") (.load "name")) (before _)
    (by decide) rfl ⟨[.eof], rfl⟩
  obtain ⟨_, hgo, hfault⟩ := hstops (.undefinedVariable "name") rfl
  exact ⟨hsum _ _ "I am " [.int 21, .str " years old."] rfl rfl rfl, hgo, hfault⟩

end Machine

end MiniC.Stack
