import MiniC.Proofs.Stack.Faults
import MiniC.Proofs.Stack.Finished
import MiniC.Proofs.Stack.Histories

/-!
# What a finished run reports

A run reports each instruction before it executes it, and in the end the place where it stands and
the number of bound names. It stands one behind an `eof`. That is the number of executed
instructions where nothing was skipped; every jump that is taken shifts the two apart by its steps.
-/

namespace MiniC.Stack

set_option autoImplicit false

/-- How many instructions are skipped behind an instruction; below zero it goes back. -/
def Frame.skips (f : Frame) : Instr → Int
  | .jump steps => steps.toInt
  | .jumpIfFalse steps => if f.flag = some false then steps.toInt else 0
  | _ => 0

theorem Frame.toInt_of_execute {f g : Frame} {instr : Instr} {steps : Int64}
    (h : f.execute instr = (.ok steps, g)) : steps.toInt = f.skips instr := by
  have hcomes := f.comes_execute instr
  rw [h] at hcomes
  cases hcomes with
  | jump hj =>
    rcases hj with rfl | ⟨rfl, hflag⟩
    · rfl
    · rw [skips, if_pos hflag]
  | advance =>
    cases instr with
    | jump steps' =>
      cases h
      rfl
    | jumpIfFalse steps' =>
      rw [execute] at h
      split at h
      · rename_i hflag
        cases h
        rw [skips, if_pos hflag]
      · rename_i hflag
        rw [skips, if_neg hflag]
        rfl
    | _ => rfl

namespace Machine

variable {m m' last : Machine} {x : Snapshot} {n fuel : Nat}

def skips (m : Machine) : Int :=
  match m.code[m.index]? with
  | some instr => m.frame.skips instr
  | none => 0

def skipped : Nat → Machine → Int
  | 0, _ => 0
  | n + 1, m => m.skips + skipped n m.next.2

def reported : Nat → Machine → List Message
  | 0, _ => []
  | n + 1, m => m.nextMessages ++ reported n m.next.2

theorem executes_of_ok (h : m.next = (.ok (), m')) :
    ∃ instr, m.executes? = some instr ∧
      m.nextMessages = [⟨.trace, Text.numbered m.index instr.display⟩] ∧
      (m'.index : Int) = m.index + 1 + m.skips := by
  cases next_eq_iff.mp h with
  | @resumed instr steps frame index hs hi he hr =>
    obtain ⟨htarget, _⟩ := resume?_eq_some_iff.mp hr
    have hskips : m.skips = steps.toInt := by
      rw [skips, hi, Frame.toInt_of_execute he]
    refine ⟨instr, ?_, ?_, ?_⟩
    · rw [executes?, hs, hi]
      simp only [Frame.executes?, he]
      rfl
    · rw [nextMessages, hs, hi]
    · rw [hskips]
      show (index : Int) = m.index + 1 + steps.toInt
      omega

/-- `n` calls of `next` succeed, and the last of them finishes the machine. -/
inductive Finishes : Nat → Machine → Snapshot → Machine → Prop where
  | last {m last : Machine} {x : Snapshot} (h : m.next = (.ok (), last))
      (hs : last.status = .finished x) : Finishes 1 m x last
  | more {n : Nat} {m m' last : Machine} {x : Snapshot} (h : m.next = (.ok (), m'))
      (hs : m'.status = .running) (hend : Finishes n m' x last) : Finishes (n + 1) m x last

namespace Finishes

theorem status_eq (h : Finishes n m x last) : last.status = .finished x := by
  induction h with
  | last _ hs => exact hs
  | more _ _ _ ih => exact ih

theorem eq_after (h : Finishes n m x last) : last = m.after n := by
  induction h with
  | last h => rw [after, after, h]
  | more h _ _ ih => rw [after, h, ih]

/-- Each call executes one instruction and reports it. -/
theorem lengths (h : Finishes n m x last) :
    (m.executed n).length = n ∧ (m.reported n).length = n := by
  induction h with
  | last h =>
    obtain ⟨instr, hexecutes, hmessages, _⟩ := executes_of_ok h
    rw [executed, executed, reported, reported, hexecutes, hmessages]
    exact ⟨rfl, rfl⟩
  | more h _ _ ih =>
    obtain ⟨instr, hexecutes, hmessages, _⟩ := executes_of_ok h
    rw [executed, reported, hexecutes, hmessages, h, List.length_append, List.length_append, ih.1,
      ih.2]
    exact ⟨Nat.add_comm 1 _, Nat.add_comm 1 _⟩

/-- The place moves by one for each call, and by what is skipped. -/
theorem index_eq (h : Finishes n m x last) : (last.index : Int) = m.index + n + m.skipped n := by
  induction h with
  | last h =>
    obtain ⟨instr, _, _, hindex⟩ := executes_of_ok h
    rw [skipped, skipped]
    omega
  | more h _ _ ih =>
    obtain ⟨instr, _, _, hindex⟩ := executes_of_ok h
    simp only [skipped, h]
    omega

end Finishes

theorem level_of_nextMessages {message : Message} (h : message ∈ m.nextMessages) :
    message.level = .trace := by
  unfold nextMessages at h
  split at h
  · rw [List.mem_singleton.mp h]
  · cases h

theorem level_of_reported {message : Message} (h : message ∈ m.reported n) :
    message.level = .trace := by
  induction n generalizing m with
  | zero => cases h
  | succ n ih =>
    rcases List.mem_append.mp h with hfirst | hlater
    · exact level_of_nextMessages hfirst
    · exact ih hlater

/-- Behind the end of the code there is nothing to report, and nothing that finishes. -/
theorem finishMessages_succ (hs : m.status = .running) (fuel : Nat) :
    finishMessages (fuel + 1) m = m.nextMessages ++ match m.next with
      | (.error _, _) => []
      | (.ok _, m') =>
        match m'.status with
        | .finished x => [m'.finishedMessage x]
        | .running => finishMessages fuel m' := by
  rw [finishMessages]
  split
  · rfl
  · rename_i hlast
    have hnone : m.code[m.index]? = none := List.getElem?_eq_none (Nat.le_of_not_lt hlast)
    have hmessages : m.nextMessages = [] := by
      rw [nextMessages, hs, hnone]
    rw [hmessages, (Call.outside hs hnone).next_eq]
    rfl

theorem finishes_of_finish (hs : m.status = .running)
    (h : finish fuel m = some (.ok x, last)) :
    ∃ n, Finishes n m x last ∧
      finishMessages fuel m = m.reported n ++ [last.finishedMessage x] := by
  induction fuel generalizing m with
  | zero => cases h
  | succ fuel ih =>
    rw [finish_succ hs] at h
    rw [finishMessages_succ hs]
    rcases hnext : m.next with ⟨result, m'⟩
    rw [hnext] at h
    cases result with
    | error fault => cases h
    | ok done =>
      cases hstatus : m'.status with
      | finished y =>
        simp only [hstatus] at h ⊢
        cases h
        refine ⟨1, .last hnext hstatus, ?_⟩
        rw [reported, reported, List.append_nil]
      | running =>
        simp only [hstatus] at h ⊢
        obtain ⟨n, hends, hmessages⟩ := ih hstatus h
        refine ⟨n + 1, .more hnext hstatus hends, ?_⟩
        rw [reported, hnext, List.append_assoc, ← hmessages]

theorem card_names_dump (s : Scope) : (s.dump.map Prod.fst).toFinset.card = s.dump.length := by
  have hnodup : (s.dump.map Prod.fst).Nodup := by
    rw [Scope.names_dump]
    exact Std.ExtTreeMap.nodup_keys
  rw [List.toFinset_card_of_nodup hnodup, List.length_map]

/-- A run that finishes reports the `n` instructions that it executes, one message for each, and in
one last message a place and a number of bindings. The bindings are the names in its memory. The
place is one behind an `eof`, which is the number `n` shifted by all the instructions that jumps
have skipped. -/
theorem finished_run_reports (h : m.run fuel = some (.ok x, last)) :
    ∃ n place names : Nat,
      m.runMessages fuel = m.reset.reported n ++
        [⟨.debug, s!"vm reached EOF after {place} instructions with {names} bindings"⟩] ∧
      last = m.reset.after n ∧ (m.reset.executed n).length = n ∧
      (m.reset.reported n).length = n ∧
      (∀ message ∈ m.reset.reported n, message.level = .trace) ∧
      names = (x.memory.map Prod.fst).toFinset.card ∧
      (∃ i, place = i + 1 ∧ m.code[i]? = some .eof) ∧
      (place : Int) = n + m.reset.skipped n := by
  obtain ⟨n, hends, hmessages⟩ := finishes_of_finish rfl h
  have hlast := hends.eq_after
  have hshows : last.ShowsFrame := by
    rw [hlast]
    exact (showsFrame_ofCode m.code m.initial).after n
  have hbehind : last.BehindEof := by
    rw [hlast]
    apply BehindEof.after
    intro x hx
    cases hx
  have hplace := hends.index_eq
  refine ⟨n, last.index, x.memory.length, hmessages, hlast, hends.lengths.1, hends.lengths.2,
    fun _ hmem => level_of_reported hmem, ?_, ?_, ?_⟩
  · rw [hshows x hends.status_eq]
    exact (card_names_dump last.frame.scope).symm
  · obtain ⟨i, hi, heof⟩ := hbehind x hends.status_eq
    rw [hlast, after_code] at heof
    exact ⟨i, hi, heof⟩
  · have hstart : m.reset.index = 0 := rfl
    omega

/-- Binds `a` and jumps over an instruction. -/
def bindAndSkip : List Instr :=
  [.constant (.int 7), .assign "a", .jump 1, .ret, .eof]

/-- Four instructions are executed and one is skipped, so the run ends in the fifth place. -/
theorem finished_run_reports_bindAndSkip :
    ∃ last, (ofCode bindAndSkip .empty).run 4 =
        some (.ok ⟨none, [("a", "7")], [], none⟩, last) ∧
      last = (ofCode bindAndSkip .empty).after 4 ∧
      (ofCode bindAndSkip .empty).runMessages 4 = (ofCode bindAndSkip .empty).reported 4 ++
        [⟨.debug, s!"vm reached EOF after {5} instructions with {1} bindings"⟩] := by
  obtain ⟨last, hrun⟩ : ∃ last, (ofCode bindAndSkip .empty).run 4 =
      some (.ok ⟨none, [("a", "7")], [], none⟩, last) := ⟨_, rfl⟩
  obtain ⟨n, place, names, hmessages, hlast, _, hreported, _, hnames, _, hplace⟩ :=
    finished_run_reports hrun
  have hcount : 5 = n + 1 := by
    have hlength := congrArg List.length hmessages
    rw [List.length_append, hreported] at hlength
    exact hlength
  obtain rfl : n = 4 := by omega
  have hskipped : (ofCode bindAndSkip .empty).skipped 4 = 1 := by decide
  obtain rfl : place = 5 := by
    have hfour : (place : Int) = 4 + (ofCode bindAndSkip .empty).skipped 4 := hplace
    omega
  obtain rfl : names = 1 := hnames
  exact ⟨last, hrun, hlast, hmessages⟩

/-- The last message of that run gives the place as a number of instructions, and the run has
reported one instruction less. -/
theorem place_reported_as_count :
    (∃ x last, (ofCode bindAndSkip .empty).run 4 = some (.ok x, last)) ∧
    ((ofCode bindAndSkip .empty).executed 4).length = 4 ∧
    (ofCode bindAndSkip .empty).runMessages 4 =
      [⟨.trace, "0000 OP_CONSTANT 7"⟩, ⟨.trace, "0001 OP_ASSIGN a"⟩, ⟨.trace, "0002 OP_JUMP 1"⟩,
        ⟨.trace, "0004 OP_EOF"⟩,
        ⟨.debug, "vm reached EOF after 5 instructions with 1 bindings"⟩] :=
  ⟨⟨_, _, rfl⟩, rfl, by decide⟩

end Machine

end MiniC.Stack
