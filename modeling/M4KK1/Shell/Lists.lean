import Mathlib.Data.List.Basic

/-!
# Lists of commands

`execute_command_list`, and the evaluation that POSIX gives an and-or list.
-/

namespace M4KK1.Shell

open List

/-- The bytes of a string of the shell. -/
abbrev Text := List UInt8

/-- `;`, `&&` and `||`. -/
inductive Op where
  | seq | and | or
deriving DecidableEq

/-- The operator as it stands in a line. -/
def Op.text : Op → Text
  | .seq => [59]
  | .and => [38, 38]
  | .or => [124, 124]

/-- The command behind the operator runs when the last one ended with this code. -/
def Op.goesOn : Op → Int → Prop
  | .seq, _ => True
  | .and, code => code = 0
  | .or, code => code ≠ 0

instance (op : Op) (code : Int) : Decidable (op.goesOn code) := by
  cases op <;> unfold Op.goesOn <;> infer_instance

/-- What `exec_one` meets: no word, an unknown command, a bad redirection, or a run. -/
inductive Outcome where
  | nothing | notFound | syntaxError | cannotOpen
  | ran (own : Option Int)
  | pipeFailed

def Outcome.status : Outcome → Int
  | .nothing => 0
  | .notFound => 127
  | .syntaxError => 2
  | .cannotOpen => 1
  | .ran own => own.getD 0
  | .pipeFailed => 1

/-- What `last_exit_code` is after `exec_one`. -/
def Outcome.leaves : Outcome → Int → Int
  | .nothing, last => last
  | .notFound, _ => 127
  | .syntaxError, _ => 2
  | .cannotOpen, _ => 1
  | .ran _, _ => 0
  | .pipeFailed, last => last

/-- A command is a pipeline: the outcomes of its stages, one for a simple command. -/
abbrev Execution := List Outcome

def Execution.status (e : Execution) : Int := (e.getLast?.map Outcome.status).getD 0

/-- What `last_exit_code` is after `run_pipeline` or `exec_one`. -/
def Execution.leaves (e : Execution) (last : Int) : Int :=
  e.foldl (fun last o => o.leaves last) last

/-- The character is put in front of the command that the text begins with. -/
def putFirst (c : UInt8) (parts : Text × List (Op × Text)) : Text × List (Op × Text) :=
  (c :: parts.1, parts.2)

def endCommand (op : Op) (parts : Text × List (Op × Text)) : Text × List (Op × Text) :=
  ([], (op, parts.1) :: parts.2)

/-- The first loop of `execute_command_list`; `ncmds` counts the commands so far. -/
def splitCommands : Text → Bool → Bool → Nat → Text × List (Op × Text)
  | [], _, _, _ => ([], [])
  | c :: rest, inSingle, inDouble, ncmds =>
    if 32 ≤ ncmds then (c :: rest, [])
    else if c = 39 ∧ inDouble = false then
      putFirst c (splitCommands rest (!inSingle) inDouble ncmds)
    else if c = 34 ∧ inSingle = false then
      putFirst c (splitCommands rest inSingle (!inDouble) ncmds)
    else if inSingle = false ∧ inDouble = false then
      if c = 59 then endCommand .seq (splitCommands rest inSingle inDouble (ncmds + 1))
      else
        match rest with
        | [] => putFirst c (splitCommands [] inSingle inDouble ncmds)
        | d :: rest' =>
          if c = 38 ∧ d = 38 then
            endCommand .and (splitCommands rest' inSingle inDouble (ncmds + 1))
          else if c = 124 ∧ d = 124 then
            endCommand .or (splitCommands rest' inSingle inDouble (ncmds + 1))
          else putFirst c (splitCommands (d :: rest') inSingle inDouble ncmds)
    else putFirst c (splitCommands rest inSingle inDouble ncmds)

/-- A command without the blanks in front of it. -/
def skipBlanks (text : Text) : Text := text.dropWhile (· = 32)

/-- The second loop of `execute_command_list`, with the commands that it runs. -/
@[simp] def runCommands (outcome : Nat → Execution) :
    Nat → Int → List (Op × Text) → List (Nat × Text) × Int
  | _, last, [] => ([], last)
  | i, last, (op, text) :: rest =>
    if op.goesOn last then
      if skipBlanks text = [] then runCommands outcome (i + 1) last rest
      else
        let result := runCommands outcome (i + 1) ((outcome i).leaves last) rest
        ((i, skipBlanks text) :: result.1, result.2)
    else ([], last)

/-- `execute_command_list`. There is no operator in front of the first command. -/
def executeCommandList (outcome : Nat → Execution) (last : Int) (line : Text) :
    List (Nat × Text) × Int :=
  let parts := splitCommands line false false 1
  runCommands outcome 0 last ((.seq, parts.1) :: parts.2)

/-- The text of a command: no operator stands outside its quotes, and they are closed. A backslash
is like any other character. -/
def closed : Bool → Bool → Text → Bool
  | inSingle, inDouble, [] => !inSingle && !inDouble
  | inSingle, inDouble, c :: rest =>
    if c = 39 ∧ inDouble = false then closed (!inSingle) inDouble rest
    else if c = 34 ∧ inSingle = false then closed inSingle (!inDouble) rest
    else if inSingle = false ∧ inDouble = false then
      c ≠ 59 && !(c = 38 && rest.head?.getD 38 = 38) && !(c = 124 && rest.head?.getD 124 = 124) &&
        closed inSingle inDouble rest
    else closed inSingle inDouble rest

structure Command where
  text : Text
  isClosed : closed false false text = true
  notBlank : skipBlanks text ≠ []

/-- A line `C0 op1 C1 … opn Cn`. -/
structure CommandLine where
  first : Command
  rest : List (Op × Command)

@[simp] def restText : List (Op × Command) → Text
  | [] => []
  | (op, command) :: rest => op.text ++ command.text ++ restText rest

def CommandLine.text (line : CommandLine) : Text := line.first.text ++ restText line.rest

/-- The evaluation of an and-or list from command `i` on: one that is not run leaves the status. -/
@[simp] def evaluate (outcome : Nat → Execution) :
    Nat → Int → List (Op × Command) → List (Nat × Text)
  | _, _, [] => []
  | i, status, (op, command) :: rest =>
    if op.goesOn status then
      (i, skipBlanks command.text) :: evaluate outcome (i + 1) (outcome i).status rest
    else evaluate outcome (i + 1) status rest

def CommandLine.evaluate (line : CommandLine) (outcome : Nat → Execution) : List (Nat × Text) :=
  (0, skipBlanks line.first.text) :: Shell.evaluate outcome 1 (outcome 0).status line.rest

/-- Where an operator looks at a code, it is zero exactly when the command succeeded. -/
def Sound (outcome : Nat → Execution) : Nat → Int → Int → List (Op × Command) → Prop
  | _, _, _, [] => True
  | i, last, status, (op, _) :: rest =>
    if op.goesOn status then op.goesOn last ∧
    Sound outcome (i + 1) ((outcome i).leaves last) (outcome i).status rest
    else ¬op.goesOn last ∧ ∀ later ∈ rest, ¬later.1.goesOn status

/-- The line is `Sound`, and has at most 32 commands or runs fewer than that. -/
def CommandLine.Sound (line : CommandLine) (outcome : Nat → Execution) (last : Int) : Prop :=
  Shell.Sound outcome 1 ((outcome 0).leaves last) (outcome 0).status line.rest ∧
    (1 + line.rest.length ≤ 32 ∨ (line.evaluate outcome).length < 32)

section Splitting

variable {n : Nat} {op : Op}

theorem splitCommands_full (text : Text) (full : 32 ≤ n) :
    splitCommands text false false n = (text, []) := by
  rw [splitCommands.eq_def]
  cases text with
  | nil => rfl
  | cons c rest => exact if_pos full

theorem splitCommands_op (room : n < 32) (op : Op) (text : Text) :
    splitCommands (op.text ++ text) false false n =
      endCommand op (splitCommands text false false (n + 1)) := by
  have notFull : ¬32 ≤ n := by omega
  rw [splitCommands.eq_def]
  cases op with
  | seq => simp [Op.text, notFull]
  | and => simp [Op.text, notFull]
  | or => simp [Op.text, notFull]

theorem splitCommands_closed (room : n < 32) {text : Text} {inSingle inDouble : Bool}
    (isClosed : closed inSingle inDouble text = true) (tail : Text) :
    splitCommands (text ++ tail) inSingle inDouble n =
      (text ++ (splitCommands tail false false n).1, (splitCommands tail false false n).2) := by
  have notFull : ¬32 ≤ n := by omega
  induction text generalizing inSingle inDouble with
  | nil =>
    simp only [closed, Bool.and_eq_true, Bool.not_eq_true'] at isClosed
    rw [isClosed.1, isClosed.2]
    rfl
  | cons c rest ih =>
    have passes : ∀ inSingle inDouble, closed inSingle inDouble rest = true →
        putFirst c (splitCommands (rest ++ tail) inSingle inDouble n) =
          (c :: rest ++ (splitCommands tail false false n).1,
            (splitCommands tail false false n).2) := by
      intro inSingle inDouble isClosed
      rw [ih isClosed]
      rfl
    rw [closed] at isClosed
    rw [cons_append, splitCommands.eq_def]
    dsimp only
    rw [if_neg notFull]
    split at isClosed
    · next quote =>
      rw [if_pos quote]
      exact passes _ _ isClosed
    next noSingle =>
    rw [if_neg noSingle]
    split at isClosed
    · next quote =>
      rw [if_pos quote]
      exact passes _ _ isClosed
    next noDouble =>
    rw [if_neg noDouble]
    split at isClosed
    · next outside =>
      rw [if_pos outside]
      simp only [Bool.and_eq_true, decide_eq_true_eq, Bool.not_eq_true', Bool.and_eq_false_iff,
        decide_eq_false_iff_not] at isClosed
      obtain ⟨⟨⟨noSeq, noAnd⟩, noOr⟩, later⟩ := isClosed
      rw [if_neg noSeq]
      -- The command does not end behind a single `&` or `|`, so the next character is its own.
      cases rest with
      | nil =>
        have noAnd : c ≠ 38 := by simpa using noAnd
        have noOr : c ≠ 124 := by simpa using noOr
        have whole := passes _ _ later
        rw [nil_append] at whole ⊢
        cases tail with
        | nil => exact whole
        | cons d tail =>
          dsimp only
          rw [if_neg (by simp [noAnd]), if_neg (by simp [noOr])]
          exact whole
      | cons d rest =>
        have noAnd : ¬(c = 38 ∧ d = 38) := by simpa [imp_iff_not_or] using noAnd
        have noOr : ¬(c = 124 ∧ d = 124) := by simpa [imp_iff_not_or] using noOr
        rw [cons_append]
        dsimp only
        rw [if_neg noAnd, if_neg noOr]
        exact passes _ _ later
    · next inside =>
      rw [if_neg inside]
      exact passes _ _ isClosed

theorem splitCommands_rest_first (room : n < 32) (rest : List (Op × Command)) :
    (splitCommands (restText rest) false false n).1 = [] := by
  cases rest with
  | nil => rfl
  | cons entry rest =>
    rw [restText, append_assoc, splitCommands_op room]
    rfl

end Splitting

section Running

variable {outcome : Nat → Execution} {i : Nat} {last status : Int}

theorem skipBlanks_append {text : Text} (notBlank : skipBlanks text ≠ []) (tail : Text) :
    skipBlanks (text ++ tail) = skipBlanks text ++ tail := by
  induction text with
  | nil => exact absurd rfl notBlank
  | cons c text ih =>
    rw [skipBlanks, dropWhile_cons] at notBlank
    rw [skipBlanks, skipBlanks, cons_append, dropWhile_cons, dropWhile_cons]
    split
    · next isBlank =>
      rw [if_pos isBlank] at notBlank
      exact ih notBlank
    · rfl

theorem evaluate_place {rest : List (Op × Command)} {entry : Nat × Text}
    (member : entry ∈ evaluate outcome i status rest) : i ≤ entry.1 := by
  induction rest generalizing i status with
  | nil => cases member
  | cons first rest ih =>
    rw [evaluate] at member
    split at member
    · rcases mem_cons.mp member with rfl | later
      · exact Nat.le_refl _
      · exact Nat.le_of_succ_le (ih later)
    · exact Nat.le_of_succ_le (ih member)

theorem evaluate_nil {rest : List (Op × Command)} :
    evaluate outcome i status rest = [] ↔ ∀ entry ∈ rest, ¬entry.1.goesOn status := by
  induction rest generalizing i with
  | nil => simp [evaluate]
  | cons first rest ih =>
    rw [evaluate, forall_mem_cons]
    split
    · next runs => simp [runs]
    · next skipped =>
      rw [ih]
      simp [skipped]

theorem restText_ne_nil {rest : List (Op × Command)} (some : rest ≠ []) : restText rest ≠ [] := by
  cases rest with
  | nil => exact absurd rfl some
  | cons entry rest =>
    obtain ⟨op, command⟩ := entry
    cases op <;> simp [restText, Op.text]

theorem splitCommands_notBlank (n : Nat) (command : Command) (tail : Text) :
    skipBlanks (splitCommands (command.text ++ tail) false false n).1 ≠ [] := by
  by_cases room : n < 32
  · rw [splitCommands_closed room command.isClosed, skipBlanks_append command.notBlank]
    simp [command.notBlank]
  · rw [splitCommands_full _ (Nat.le_of_not_lt room), skipBlanks_append command.notBlank]
    simp [command.notBlank]

theorem runCommands_iff {n : Nat} (room : n < 32) (rest : List (Op × Command)) :
    (runCommands outcome n last (splitCommands (restText rest) false false n).2).1 =
        evaluate outcome n status rest ↔
      Sound outcome n last status rest ∧
        (n + rest.length ≤ 32 ∨ n + (evaluate outcome n status rest).length < 32) := by
  induction rest generalizing n last status with
  | nil => simp [restText, splitCommands, runCommands, evaluate, Sound]; omega
  | cons first rest ih =>
    obtain ⟨op, command⟩ := first
    have notBlank := command.notBlank
    rw [restText, append_assoc, splitCommands_op room, endCommand, evaluate, Sound, length_cons]
    rw [runCommands]
    by_cases runs : op.goesOn status
    · rw [if_pos runs, if_pos runs, length_cons]
      by_cases goesOn : op.goesOn last
      · rw [if_pos goesOn]
        by_cases next : n + 1 < 32
        · -- The next command is cut off from the rest of the line.
          have parts := splitCommands_closed next command.isClosed (restText rest)
          rw [splitCommands_rest_first next, append_nil] at parts
          rw [parts, if_neg notBlank, cons_inj_right, ih next]
          simp only [goesOn, true_and]
          refine and_congr_right fun _ => or_congr ?_ ?_
          · omega
          · omega
        · -- The last command has the rest of the line.
          have full : 32 ≤ n + 1 := by omega
          rw [splitCommands_full _ full,
            if_neg (by rw [skipBlanks_append notBlank]; simp [notBlank])]
          rw [skipBlanks_append notBlank, runCommands]
          by_cases isLast : rest = []
          · subst isLast
            simp [restText, evaluate, Sound, goesOn]
            omega
          · have longer : rest.length ≠ 0 := fun none => isLast (length_eq_zero_iff.mp none)
            refine iff_of_false ?_ ?_
            · intro same
              have text := congrArg Prod.snd (List.cons.inj same).1
              exact restText_ne_nil isLast (append_right_eq_self.mp text)
            · omega
      · rw [if_neg goesOn]
        simp [goesOn]
    · rw [if_neg runs, if_neg runs]
      by_cases goesOn : op.goesOn last
      · rw [if_pos goesOn]
        refine iff_of_false ?_ fun sound => sound.1.1 goesOn
        rw [if_neg (splitCommands_notBlank (n + 1) command (restText rest))]
        intro same
        -- The loop runs the command at `n`, the evaluation only commands behind it.
        have member :
          (n, skipBlanks (splitCommands (command.text ++ restText rest) false false (n + 1)).1) ∈
            evaluate outcome (n + 1) status rest := by
          rw [← same]
          exact mem_cons_self
        exact absurd (evaluate_place member) (Nat.not_succ_le_self n)
      · rw [if_neg goesOn]
        have nothing := @evaluate_nil outcome (n + 1) status rest
        constructor
        · intro same
          refine ⟨⟨goesOn, nothing.mp same.symm⟩, .inr ?_⟩
          rw [← same]
          exact room
        · intro sound
          exact (nothing.mpr sound.1.2).symm

end Running

/-- A line runs the commands of its evaluation exactly when it is sound for their outcomes. -/
theorem list_evaluation_iff (line : CommandLine) (outcome : Nat → Execution) (last : Int) :
    (executeCommandList outcome last line.text).1 = line.evaluate outcome ↔
    line.Sound outcome last := by
  have parts := splitCommands_closed (n := 1) (by decide) line.first.isClosed (restText line.rest)
  rw [splitCommands_rest_first (by decide), append_nil] at parts
  have always : Op.seq.goesOn last := trivial
  rw [executeCommandList, CommandLine.text, parts, runCommands, if_pos always,
    if_neg line.first.notBlank,
    CommandLine.evaluate, cons_inj_right, runCommands_iff (by decide), CommandLine.Sound,
    CommandLine.evaluate, length_cons, Nat.zero_add]
  refine and_congr_right fun _ => or_congr_right ?_
  omega

def word (text : String) (isClosed : closed false false text.toByteArray.data.toList = true)
    (notBlank : skipBlanks text.toByteArray.data.toList ≠ []) : Command := ⟨_, isClosed, notBlank⟩

/-- `nosuch && date ; uname`, with a first command that is not found. -/
def skippedLine : CommandLine :=
  ⟨word "nosuch" (by decide) (by decide),
    [(.and, word "date" (by decide) (by decide)), (.seq, word "uname" (by decide) (by decide))]⟩

/-- The command behind the `;` is to run, and does not. -/
theorem skippedLine_stops :
    (executeCommandList (fun i => if i = 0 then [.notFound]
      else [.ran none]) 0 skippedLine.text).1 ≠
      skippedLine.evaluate fun i => if i = 0 then [.notFound] else [.ran none] := by
  decide

end M4KK1.Shell
