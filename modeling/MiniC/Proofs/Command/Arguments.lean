import MiniC.Command

/-!
# The grammar of the arguments

Arguments are pairs of a flag and the name of a stage, and behind them at most one input, which is
no flag. Reading accepts exactly these. All other arguments follow the grammar up to some point, and
the first argument that does not fit, or the missing one, decides the error: a flag has no name
behind it, or one of no stage, or something stands behind the input.
-/

namespace MiniC

set_option autoImplicit false

namespace Stage

def name : Stage → String
  | .tokens => "tokens"
  | .ast => "ast"
  | .bytecode => "bytecode"

theorem ofName_name (stage : Stage) : ofName stage.name = .ok stage := by
  cases stage <;> rfl

theorem ofName_of_ne {name : String} (h : ∀ stage : Stage, name ≠ stage.name) :
    ofName name = .error ⟨name⟩ := by
  unfold ofName
  split
  · exact absurd rfl (h .tokens)
  · exact absurd rfl (h .ast)
  · exact absurd rfl (h .bytecode)
  · rfl

end Stage

namespace Command

def flags : List String :=
  ["--emit", "-e"]

theorem isFlag_iff {arg : String} : isFlag arg ↔ arg ∈ flags := by
  simp [isFlag, flags]

structure Choice where
  flag : String
  stage : Stage
  mem_flags : flag ∈ flags

def written (choices : List Choice) : List String :=
  choices.flatMap fun choice => [choice.flag, choice.stage.name]

/-- The stage that is chosen: the last choice counts, and `stage` if there is none. -/
def chosen (stage : Stage) (choices : List Choice) : Stage :=
  (choices.getLast?.map Choice.stage).getD stage

/-- The arguments that follow the grammar, with the options that they choose. -/
inductive Accepts : List String → Options → Prop
  | stdin (choices : List Choice) : Accepts (written choices) ⟨chosen .bytecode choices, none⟩
  | file (choices : List Choice) {path : String} (h : path ∉ flags) :
    Accepts (written choices ++ [path]) ⟨chosen .bytecode choices, some path⟩

/-- The arguments that leave the grammar behind `front`, with the error that this is. -/
inductive Leaves : (front args : List String) → UsageError → Prop
  | unknownStage (choices : List Choice) {flag name : String} {rest : List String}
    (hflag : flag ∈ flags) (hname : ∀ stage : Stage, name ≠ stage.name) :
    Leaves (written choices ++ [flag]) (written choices ++ flag :: name :: rest)
      (.unknownStage ⟨name⟩)
  | missingStage (choices : List Choice) {flag : String} (hflag : flag ∈ flags) :
    Leaves (written choices ++ [flag]) (written choices ++ [flag]) (.missingStage flag)
  | manyInputs (choices : List Choice) {path next : String} {rest : List String}
    (h : path ∉ flags) :
    Leaves (written choices ++ [path]) (written choices ++ path :: next :: rest) .manyInputs

/-- The arguments `front` are as much of the beginning of `args` as can be completed to arguments
that follow the grammar. -/
structure Fits (front args : List String) : Prop where
  begins : front <+: args
  completes : ∃ more options, Accepts (front ++ more) options
  longest : ∀ next, front ++ [next] <+: args →
    ∀ more options, ¬ Accepts (front ++ next :: more) options

variable {args front rest : List String} {options : Options} {e : UsageError} {flag path : String}

section Reading

theorem readFrom_choice (stage : Stage) (choice : Choice) (rest : List String) :
    Options.readFrom stage (choice.flag :: choice.stage.name :: rest) =
      Options.readFrom choice.stage rest := by
  rw [Options.readFrom, if_pos (isFlag_iff.mpr choice.mem_flags), Stage.ofName_name]

theorem chosen_cons (stage : Stage) (choice : Choice) (choices : List Choice) :
    chosen stage (choice :: choices) = chosen choice.stage choices := by
  unfold chosen
  rw [List.getLast?_cons]
  cases choices.getLast? <;> rfl

/-- Choices are read one after the other, and change nothing but the stage. -/
theorem readFrom_written (stage : Stage) (choices : List Choice) (rest : List String) :
    Options.readFrom stage (written choices ++ rest) =
      Options.readFrom (chosen stage choices) rest := by
  induction choices generalizing stage with
  | nil => rfl
  | cons choice choices ih =>
    rw [chosen_cons, ← ih]
    exact readFrom_choice stage choice (written choices ++ rest)

theorem read_written (choices : List Choice) (rest : List String) :
    Options.read (written choices ++ rest) =
      Options.readFrom (chosen .bytecode choices) rest :=
  readFrom_written .bytecode choices rest

theorem Accepts.read_eq (h : Accepts args options) : Options.read args = .ok options := by
  cases h with
  | stdin choices =>
    have hread := read_written choices []
    rw [List.append_nil] at hread
    exact hread
  | file choices h =>
    rw [read_written, Options.readFrom, if_neg (mt isFlag_iff.mp h)]

theorem Leaves.read_eq (h : Leaves front args e) : Options.read args = .error e := by
  cases h with
  | unknownStage choices hflag hname =>
    rw [read_written, Options.readFrom, if_pos (isFlag_iff.mpr hflag), Stage.ofName_of_ne hname]
  | missingStage choices hflag =>
    rw [read_written, Options.readFrom, if_pos (isFlag_iff.mpr hflag)]
  | manyInputs choices h =>
    rw [read_written, Options.readFrom, if_neg (mt isFlag_iff.mp h)]

theorem Leaves.not_accepts (h : Leaves front args e) : ¬ Accepts args options := by
  intro haccepts
  cases haccepts.read_eq.symm.trans h.read_eq

end Reading

section Grammar

theorem Accepts.cons (h : Accepts args options) (choice : Choice) :
    ∃ options, Accepts (choice.flag :: choice.stage.name :: args) options := by
  cases h with
  | stdin choices => exact ⟨_, .stdin (choice :: choices)⟩
  | file choices h => exact ⟨_, .file (choice :: choices) h⟩

theorem Leaves.cons (h : Leaves front args e) (choice : Choice) :
    Leaves (choice.flag :: choice.stage.name :: front)
      (choice.flag :: choice.stage.name :: args) e := by
  cases h with
  | unknownStage choices hflag hname => exact .unknownStage (choice :: choices) hflag hname
  | missingStage choices hflag => exact .missingStage (choice :: choices) hflag
  | manyInputs choices h => exact .manyInputs (choice :: choices) h

theorem accepts_or_leaves (args : List String) :
    (∃ options, Accepts args options) ∨ ∃ front e, Leaves front args e := by
  rcases args with _ | ⟨arg, _ | ⟨value, rest⟩⟩
  · exact .inl ⟨_, .stdin []⟩
  · by_cases harg : arg ∈ flags
    · exact .inr ⟨_, _, .missingStage [] harg⟩
    · exact .inl ⟨_, .file [] harg⟩
  · by_cases harg : arg ∈ flags
    · by_cases hvalue : ∃ stage : Stage, value = stage.name
      · obtain ⟨stage, rfl⟩ := hvalue
        rcases accepts_or_leaves rest with ⟨options, h⟩ | ⟨front, e, h⟩
        · exact .inl (h.cons ⟨arg, stage, harg⟩)
        · exact .inr ⟨_, _, h.cons ⟨arg, stage, harg⟩⟩
      · exact .inr ⟨_, _, .unknownStage [] harg (not_exists.mp hvalue)⟩
    · exact .inr ⟨_, _, .manyInputs [] harg⟩
termination_by args.length

theorem accepts_of_flag (choices : List Choice) (hflag : flag ∈ flags) (stage : Stage) :
    ∃ options, Accepts (written choices ++ [flag] ++ [stage.name]) options := by
  have hwritten : written choices ++ [flag] ++ [stage.name] =
      written (choices ++ [⟨flag, stage, hflag⟩]) := by
    simp [written]
  rw [hwritten]
  exact ⟨_, .stdin _⟩

theorem Leaves.fits (h : Leaves front args e) : Fits front args := by
  cases h with
  | @unknownStage choices flag name rest hflag hname =>
    refine ⟨⟨name :: rest, by simp⟩, ⟨_, accepts_of_flag choices hflag .tokens⟩, ?_⟩
    intro next hnext more options
    obtain rfl : next = name := by simpa using hnext
    rw [List.append_assoc]
    exact (Leaves.unknownStage choices hflag hname).not_accepts
  | missingStage choices hflag =>
    refine ⟨List.prefix_rfl, ⟨_, accepts_of_flag choices hflag .tokens⟩, ?_⟩
    intro next hnext
    have hlength := hnext.length_le
    simp at hlength
  | @manyInputs choices path next rest h =>
    refine ⟨⟨next :: rest, by simp⟩, ⟨[], ⟨chosen .bytecode choices, some path⟩, ?_⟩, ?_⟩
    · rw [List.append_nil]
      exact .file choices h
    · intro next _ more options
      rw [List.append_assoc]
      exact (Leaves.manyInputs choices h).not_accepts

end Grammar

/-- Reading succeeds exactly on the arguments that follow the grammar, with the stage of the last
choice and the input at the end. It fails exactly where arguments leave the grammar, and the first
argument that does not fit decides how; up to there the arguments can be completed. A run reads the
input that was chosen, or the standard input, and does nothing but report the error if there is
one. -/
theorem read_follows_grammar (args : List String) :
    (∀ options, Options.read args = .ok options ↔ Accepts args options) ∧
    (∀ e, Options.read args = .error e ↔ ∃ front, Leaves front args e ∧ Fits front args) ∧
    ∀ stdin files,
      (∀ options, Accepts args options →
        run args stdin files = report options (options.input.elim (.ok stdin) files.read)) ∧
      ∀ front e, Leaves front args e → run args stdin files = .failure e.message := by
  refine ⟨?_, ?_, ?_⟩
  · intro options
    refine ⟨?_, Accepts.read_eq⟩
    intro hread
    rcases accepts_or_leaves args with ⟨options', haccepts⟩ | ⟨front, e, hleaves⟩
    · cases hread.symm.trans haccepts.read_eq
      exact haccepts
    · cases hread.symm.trans hleaves.read_eq
  · intro e
    constructor
    · intro hread
      rcases accepts_or_leaves args with ⟨options, haccepts⟩ | ⟨front, e', hleaves⟩
      · cases hread.symm.trans haccepts.read_eq
      · cases hread.symm.trans hleaves.read_eq
        exact ⟨front, hleaves, hleaves.fits⟩
    · rintro ⟨front, hleaves, _⟩
      exact hleaves.read_eq
  · intro stdin files
    refine ⟨?_, ?_⟩
    · intro options haccepts
      rw [run, haccepts.read_eq]
      obtain ⟨stage, input⟩ := options
      cases input <;> rfl
    · intro front e hleaves
      rw [run, hleaves.read_eq]

/-- Two choices and an input; a flag in the place of a name; a flag behind the input. -/
theorem read_follows_grammar_flags :
    Accepts ["--emit", "tokens", "-e", "ast", "a"] ⟨.ast, some "a"⟩ ∧
    Leaves ["-e"] ["-e", "--emit", "ast"] (.unknownStage ⟨"--emit"⟩) ∧
    Leaves ["-e", "ast", "a"] ["-e", "ast", "a", "-e"] .manyInputs ∧
    Options.read ["--emit", "tokens", "-e", "ast", "a"] = .ok ⟨.ast, some "a"⟩ ∧
    Options.read ["-e", "--emit", "ast"] = .error (.unknownStage ⟨"--emit"⟩) ∧
    Options.read ["-e", "ast", "a", "-e"] = .error .manyInputs := by
  have hlong : "--emit" ∈ flags := List.mem_cons_self
  have hshort : "-e" ∈ flags := List.mem_cons_of_mem _ List.mem_cons_self
  have hinput : "a" ∉ flags := by decide
  have haccepts : Accepts ["--emit", "tokens", "-e", "ast", "a"] ⟨.ast, some "a"⟩ :=
    .file [⟨"--emit", .tokens, hlong⟩, ⟨"-e", .ast, hshort⟩] hinput
  have hunknown : Leaves ["-e"] ["-e", "--emit", "ast"] (.unknownStage ⟨"--emit"⟩) := by
    apply Leaves.unknownStage [] hshort
    intro stage
    cases stage <;> decide
  have hmany : Leaves ["-e", "ast", "a"] ["-e", "ast", "a", "-e"] .manyInputs :=
    .manyInputs [⟨"-e", .ast, hshort⟩] hinput
  refine ⟨haccepts, hunknown, hmany, ?_, ?_, ?_⟩
  · exact ((read_follows_grammar _).1 _).mpr haccepts
  · exact ((read_follows_grammar _).2.1 _).mpr ⟨_, hunknown, hunknown.fits⟩
  · exact ((read_follows_grammar _).2.1 _).mpr ⟨_, hmany, hmany.fits⟩

end Command

end MiniC
