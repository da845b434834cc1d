import M4KK1.Shell.Lists

/-!
# The words of a command

The words of a command in `m4sh/core/m4sh_main.c`, and the stages of a pipeline.
-/

namespace M4KK1.Shell

/-- At most so many characters from the front of the text. -/
def takeName (belongs : UInt8 → Bool) : Nat → Text → Text × Text
  | 0, text => ([], text)
  | _, [] => ([], [])
  | n + 1, c :: rest =>
    if belongs c then
      let taken := takeName belongs n rest
      (c :: taken.1, taken.2)
    else ([], c :: rest)

def isNameChar (c : UInt8) : Bool :=
  (65 ≤ c && c ≤ 90) || (97 ≤ c && c ≤ 122) || (48 ≤ c && c ≤ 57) || c = 95

/-- The name behind a `$`, in braces or not, and the text behind it. -/
def variableName : Text → Text × Text
  | 123 :: rest =>
    let taken := takeName (· ≠ 125) 127 rest
    (taken.1, if taken.2.head? = some 125 then taken.2.drop 1 else taken.2)
  | text => takeName isNameChar 127 text

variable (envars : List Text)

/-- The value of a variable: the first entry `NAME=VALUE` with its name. -/
def lookupVariable (vname : Text) : Option Text :=
  envars.findSome? fun entry =>
    let name := entry.takeWhile (· ≠ 61)
    let val := entry.dropWhile (· ≠ 61)
    if name ≠ [] ∧ name = vname ∧ val ≠ [] then some (val.drop 1) else none

/-- The loop of `expand_vars`, with room for so many more characters. -/
def expandLoop (envars : List Text) : Nat → Nat → Bool → Bool → Text → Text
  | 0, _, _, _, _ => []
  | _, _, _, _, [] => []
  | fuel + 1, room, inSingle, inDouble, c :: rest =>
    if room = 0 then []
    else if c = 39 ∧ inDouble = false then c ::
      expandLoop envars fuel (room - 1) (!inSingle) inDouble rest
    else if c = 34 ∧ inSingle = false then c ::
      expandLoop envars fuel (room - 1) inSingle (!inDouble) rest
    else if c = 36 ∧ inSingle = false then
      let (vname, behind) := variableName rest
      let value := if vname = [] then [] else (lookupVariable envars vname).getD [36]
      value.take room ++ expandLoop envars fuel (room - value.length) inSingle inDouble behind
    else c :: expandLoop envars fuel (room - 1) inSingle inDouble rest

/-- `expand_vars` with a buffer of `osize` bytes. -/
def expandVars (line : Text) (osize : Nat) : Text :=
  expandLoop envars line.length (osize - 1) false false line

/-- Where a character of a word stands. -/
inductive Quote where
  | none | single | double

/-- The inner loop of `tokenize_quoted`: a word, and the text behind it. -/
def readWord : Quote → Text → Text × Text
  | _, [] => ([], [])
  | .none, c :: rest =>
    if c = 32 ∨ c = 9 then ([], rest)
    else if c = 39 then readWord .single rest
    else if c = 34 then readWord .double rest
    else if c = 92 then
      match rest with
      | [] => ([c], [])
      | d :: rest' =>
        let word := readWord .none rest'
        (d :: word.1, word.2)
    else
      let word := readWord .none rest
      (c :: word.1, word.2)
  | .single, c :: rest =>
    if c = 39 then readWord .none rest
    else
      let word := readWord .single rest
      (c :: word.1, word.2)
  | .double, c :: rest =>
    if c = 34 then readWord .none rest
    else
      match rest with
      | [] => ([c], [])
      | d :: rest' =>
        if c = 92 ∧ (d = 34 ∨ d = 92 ∨ d = 36) then
          let word := readWord .double rest'
          (d :: word.1, word.2)
        else
          let word := readWord .double (d :: rest')
          (c :: word.1, word.2)

/-- The outer loop of `tokenize_quoted`, with places for so many more words. -/
def readWords : Nat → Nat → Text → List Text
  | 0, _, _ => []
  | fuel + 1, places, text =>
    match text.dropWhile fun c => c = 32 || c = 9 with
    | [] => []
    | c :: rest =>
      if places = 0 then []
      else
        let word := readWord .none (c :: rest)
        word.1 :: readWords fuel (places - 1) word.2

/-- `tokenize_quoted` with an array of `mx` words, the last one of which stays empty. -/
def tokenizeQuoted (text : Text) (mx : Nat) : List Text := readWords text.length (mx - 1) text

/-- The words of the command that `exec_one` is given; the copy of the line holds 510 characters. -/
def commandWords (line : Text) : List Text :=
  tokenizeQuoted ((expandVars envars line 512).take 510) 32

/-- The inner loop of `run_pipeline`: a stage, and the text behind its `|`. -/
def readStage : Bool → Bool → Text → Text × Text
  | _, _, [] => ([], [])
  | inSingle, inDouble, c :: rest =>
    if c = 124 ∧ inSingle = false ∧ inDouble = false then ([], rest)
    else
      let stage :=
        if c = 39 ∧ inDouble = false then readStage (!inSingle) inDouble rest
        else if c = 34 ∧ inSingle = false then readStage inSingle (!inDouble) rest
        else readStage inSingle inDouble rest
      (c :: stage.1, stage.2)

/-- The first loop of `run_pipeline`, with places for so many more stages. -/
def readStages : Nat → Nat → Text → List Text
  | 0, _, _ => []
  | fuel + 1, places, text =>
    match skipBlanks text with
    | [] => []
    | c :: rest =>
      if places = 0 then []
      else
        let stage := readStage false false (c :: rest)
        stage.1 :: readStages fuel (places - 1) stage.2

def stages (cmdline : Text) : List Text := readStages cmdline.length 8 cmdline

end M4KK1.Shell

/-!
## Redirections and pipelines

The descriptors of the shell under `exec_one` and `run_pipeline` of
`m4sh/core/m4sh_main.c`, on a system whose `open`, `close`, `dup2` and `pipe` are those of
POSIX. A descriptor refers to an open file, which has a number of its own, so that two
descriptors refer to the same one when the numbers are equal. The texts of the messages
and what is copied through the descriptors are left out.
-/

namespace M4KK1.Shell

/-- What happened to a descriptor. A call of `close` counts although the descriptor is not open. -/
inductive Change where
  | opened (d : Nat)
  | closed (d : Nat)

/-- The descriptors, the next open file, what happened to them, and the variables. -/
structure Table where
  fds : Nat → Option Nat
  next : Nat
  calls : Nat
  changes : List Change
  outFd : Nat
  envars : List Text

/-- The number of descriptors, and the calls of `open` and `pipe` that succeed. -/
structure Posix where
  openMax : Nat
  enough : 20 ≤ openMax
  grants : Nat → Bool

namespace Posix

variable (P : Posix)

def lowest (fds : Nat → Option Nat) : Option Nat :=
  (List.range P.openMax).find? fun d => (fds d).isNone

/-- A new open file at the descriptor. -/
def install (s : Table) (d : Nat) : Table :=
  { s with
    fds := Function.update s.fds d (some s.next), next := s.next + 1,
    changes := s.changes ++ [.opened d] }

def scOpen (s : Table) : Option Nat × Table :=
  let tried := { s with calls := s.calls + 1 }
  match P.grants s.calls, P.lowest s.fds with
  | true, some d => (some d, install tried d)
  | _, _ => (none, tried)

def scClose (s : Table) : Option Nat → Table
  | none => s
  | some d => { s with fds := Function.update s.fds d none, changes := s.changes ++ [.closed d] }

def scDup2 (s : Table) (old : Option Nat) (new : Nat) : Option Nat × Table :=
  match old, old.bind s.fds with
  | some d, some file =>
    if P.openMax ≤ new then (none, s)
    else if d = new then (some new, s)
    else
      let implicit := if (s.fds new).isSome then [Change.closed new] else []
      (some new, { s with
        fds := Function.update s.fds new (some file)
        changes := s.changes ++ implicit ++ [.opened new] })
  | _, _ => (none, s)

def scPipe (s : Table) : Option (Nat × Nat) × Table :=
  let tried := { s with calls := s.calls + 1 }
  match P.grants s.calls, P.lowest s.fds with
  | true, some d =>
    match P.lowest (install tried d).fds with
    | some e => (some (d, e), install (install tried d) e)
    | none => (none, tried)
  | _, _ => (none, tried)

end Posix

/-- The local variables of `exec_one` that are about the descriptors. -/
structure Saved where
  savedIn : Option Nat
  savedOut : Option Nat
  redirectFd : Option Nat
  restoreIn : Bool
  restoreOut : Bool

/-- Their initial values. -/
def Saved.initial : Saved := ⟨none, none, none, false, false⟩

variable (P : Posix)

variable (saved : Saved)

/-- The branch for `<`. An error is the return behind a file that cannot be opened. -/
def redirectIn (s : Table) : Except Table (Saved × Table) :=
  match P.scOpen s with
  | (none, s) => .error s
  | (some fd, s) =>
    let (savedIn, s) := P.scDup2 s (some 0) 11
    let (_, s) := P.scDup2 s (some fd) 0
    .ok ({ saved with savedIn := savedIn, restoreIn := true }, Posix.scClose s (some fd))

def readOld (isAppend : Bool) (s : Table) : Table :=
  if isAppend then
    match P.scOpen s with
    | (none, s) => s
    | (some fd, s) => Posix.scClose s (some fd)
  else s

/-- The branch for `>` and `>>`. -/
def redirectOut (isAppend : Bool) (saved : Saved) (s : Table) : Except Table (Saved × Table) :=
  match P.scOpen (readOld P isAppend s) with
  | (none, s) => .error s
  | (some fd, s) =>
    let (savedOut, s) := P.scDup2 s (some 1) 10
    let (_, s) := P.scDup2 s (some fd) 1
    .ok ({ saved with savedOut := savedOut, redirectFd := some fd, restoreOut := true },
      { s with outFd := fd })

/-- The redirections. -/
inductive Direction where
  | input
  | output (isAppend : Bool)

def direction (word : Text) : Option Direction :=
  if word = [62] then some (.output false)
  else if word = [62, 62] then some (.output true)
  else if word = [60] then some .input
  else none

def redirect (s : Table) : Direction → Except Table (Saved × Table)
  | .input => redirectIn P saved s
  | .output isAppend => redirectOut P isAppend saved s

/-- How the loop over the words ends: with a return, or with the words that are left. -/
inductive Redirected where
  | failed (s : Table)
  | done (argv : List Text) (saved : Saved) (s : Table)

/-- The loop of `exec_one` over the words. -/
def redirections (argv : List Text) (saved : Saved) (s : Table) : List Text → Redirected
  | [] => .done argv saved s
  | word :: rest =>
    match direction word with
    | none => redirections (argv ++ [word]) saved s rest
    | some way =>
      match rest with
      | [] => .failed s
      | _ :: rest' =>
        match redirect P saved s way with
        | .error s' => .failed s'
        | .ok (saved', s') => redirections argv saved' s' rest'

def restoreOut (s : Table) : Table :=
  if saved.restoreOut then
    let (_, s) := P.scDup2 s saved.savedOut 1
    let s := Posix.scClose s saved.savedOut
    let s := Posix.scClose s saved.redirectFd
    { s with outFd := 1 }
  else s

def restoreIn (s : Table) : Table :=
  if saved.restoreIn then
    let (_, s) := P.scDup2 s saved.savedIn 0
    Posix.scClose s saved.savedIn
  else s

/-- `musr_cmd_table`: what the command of a name does with its arguments. -/
abbrev Commands := Text → Option (List Text → Table → Table)

def execOne (cmdTable : Commands) (line : Text) (s : Table) : Table :=
  match commandWords s.envars line with
  | [] => s
  | name :: args =>
    match cmdTable name with
    | none => s
    | some func =>
      match redirections P [] .initial s (name :: args) with
      | .failed s => s
      | .done argv saved s => restoreIn P saved (restoreOut P saved (func argv s))

/-- The read end of the last pipe becomes descriptor 0 in front of a stage. -/
def enterStage (s : Table) : Option Nat → Table
  | some prevRead => Posix.scClose (P.scDup2 s (some prevRead) 0).2 (some prevRead)
  | none => s

def leaveStage (s : Table) : Option Nat → Table
  | some prevRead => Posix.scClose (Posix.scClose s (some prevRead)) (some 0)
  | none => s

/-- The loop of `run_pipeline`; `prevRead` is the read end of the last pipe. -/
def pipelineLoop (cmdTable : Commands) (prevRead : Option Nat) (s : Table) : List Text → Table
  | [] => s
  | [last] =>
    let s := enterStage P s prevRead
    let s := execOne P cmdTable last { s with outFd := 1 }
    { leaveStage s prevRead with outFd := 1 }
  | stage :: next :: rest =>
    match P.scPipe s with
    | (none, s) => s
    | (some (fd0, fd1), s) =>
      let s := enterStage P s prevRead
      let (_, s) := P.scDup2 s (some fd1) 1
      let s := execOne P cmdTable stage { s with outFd := fd1 }
      let s := leaveStage (Posix.scClose s (some fd1)) prevRead
      pipelineLoop cmdTable (some fd0) { s with outFd := 1 } (next :: rest)

def runPipeline (cmdTable : Commands) (cmdline : Text) (s : Table) : Table :=
  match stages cmdline with
  | [] => s
  | [part] => execOne P cmdTable part s
  | parts => pipelineLoop P cmdTable none s parts

/-- The life of a descriptor, `wrong` when it is closed twice or opened while open. -/
inductive Life where
  | untouched | held | released | wrong
deriving DecidableEq

def Life.step (d : Nat) (life : Life) : Change → Life
  | .opened e =>
    if e ≠ d then life
    else match life with
      | .untouched | .released => .held
      | _ => .wrong
  | .closed e =>
    if e ≠ d then life
    else match life with
      | .untouched => .untouched
      | .held => .released
      | _ => .wrong

def life (d : Nat) (changes : List Change) : Life := changes.foldl (Life.step d) .untouched

/-- 0, 1 and `out_fd` are as before, and all others that were opened have been closed once. -/
structure Restored (before after : Table) : Prop where
  stdin : after.fds 0 = before.fds 0
  stdout : after.fds 1 = before.fds 1
  outFd : after.outFd = before.outFd
  closedOnce : ∃ changes, after.changes = before.changes ++ changes ∧
    ∀ d, 2 ≤ d → life d changes = .untouched ∨ life d changes = .released

end M4KK1.Shell
