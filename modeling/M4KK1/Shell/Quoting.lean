import M4KK1.Shell.Redirect

/-!
# Quoted words

A line of quoted words through the four scanners of `m4sh/core/m4sh_main.c`.
-/

namespace M4KK1.Shell

open List

/-- How a word is written. -/
inductive Quoting where
  | single | double | escaped

/-- The characters with a meaning outside quotes. -/
def isSpecial (c : UInt8) : Bool := c ∈ [32, 9, 39, 34, 92, 36, 59, 38, 124, 60, 62]

/-- With a backslash in front of some characters. -/
def escape (needed : UInt8 → Bool) (word : Text) : Text :=
  word.flatMap fun c => if needed c then [92, c] else [c]

/-- What a backslash escapes between double quotes. -/
def escapesInDouble (c : UInt8) : Bool := c = 34 || c = 92 || c = 36

structure QuotedWord where
  quoting : Quoting
  word : Text
  writable : match quoting with
    | .single => 39 ∉ word
    | .double => True
    | .escaped => word ≠ []

def QuotedWord.written (w : QuotedWord) : Text :=
  match w.quoting with
  | .single => 39 :: w.word ++ [39]
  | .double => 34 :: escape escapesInDouble w.word ++ [34]
  | .escaped => escape isSpecial w.word

def lineOf : List QuotedWord → Text
  | [] => []
  | [w] => w.written
  | w :: rest => w.written ++ 32 :: lineOf rest

variable (P : Posix) (cmdTable : Commands)

/-- What `execute_command_list` does with a command that it runs. -/
def runCommand (s : Table) (cmd : Text) : Table :=
  if 124 ∈ cmd then runPipeline P cmdTable cmd s else execOne P cmdTable cmd s

/-- The calls that `execute_command_list` makes for a line. -/
def runLine (outcome : Nat → Execution) (last : Int) (line : Text) (s : Table) : Table :=
  (executeCommandList outcome last line).1.foldl (fun s cmd => runCommand P cmdTable s cmd.2) s

/-- No `$` stands outside single quotes and no operator outside quotes, backslashes ignored. -/
def quiet : Bool → Bool → Text → Bool
  | _, _, [] => true
  | inSingle, inDouble, c :: rest =>
    if c = 39 ∧ inDouble = false then quiet (!inSingle) inDouble rest
    else if c = 34 ∧ inSingle = false then quiet inSingle (!inDouble) rest
    else
      (inSingle || c ≠ 36) &&
        (inSingle || inDouble || (c ≠ 59 && c ≠ 124 && (c ≠ 38 || rest.head? ≠ some 38))) &&
        quiet inSingle inDouble rest

variable {inSingle inDouble : Bool} {text : Text}

theorem splitCommands_quiet {n : Nat} (room : n < 32) (isQuiet : quiet inSingle inDouble text) :
    splitCommands text inSingle inDouble n = (text, []) := by
  have notFull : ¬32 ≤ n := by omega
  induction text generalizing inSingle inDouble with
  | nil => rfl
  | cons c rest ih =>
    rw [quiet] at isQuiet
    rw [splitCommands.eq_def]
    dsimp only
    rw [if_neg notFull]
    split at isQuiet
    · next quote => rw [if_pos quote, ih isQuiet]; rfl
    · next noSingle =>
      rw [if_neg noSingle]
      split at isQuiet
      · next quote => rw [if_pos quote, ih isQuiet]; rfl
      · next noDouble =>
        rw [if_neg noDouble]
        simp only [Bool.and_eq_true, Bool.or_eq_true, decide_eq_true_eq, ne_eq] at isQuiet
        obtain ⟨⟨-, outside⟩, isQuiet⟩ := isQuiet
        split
        · next isOutside =>
          have passes : ¬c = 59 ∧ ¬c = 124 ∧ (¬c = 38 ∨ ¬rest.head? = some 38) := by
            simpa [isOutside, and_assoc] using outside
          rw [if_neg passes.1]
          cases rest with
          | nil => simp only [ih isQuiet]; rfl
          | cons d rest =>
            have noAnd : ¬(c = 38 ∧ d = 38) := fun both =>
              passes.2.2.elim (· both.1) (· (congrArg some both.2))
            dsimp only
            rw [if_neg noAnd, if_neg (fun both => passes.2.1 both.1), ih isQuiet]
            rfl
        · rw [ih isQuiet]
          rfl

theorem readStage_quiet (isQuiet : quiet inSingle inDouble text) :
    readStage inSingle inDouble text = (text, []) := by
  induction text generalizing inSingle inDouble with
  | nil => rfl
  | cons c rest ih =>
    rw [quiet] at isQuiet
    rw [readStage]
    split at isQuiet
    · next quote => rw [if_neg (by simp [quote.1]), if_pos quote, ih isQuiet]
    · next noSingle =>
      split at isQuiet
      · next quote => rw [if_neg (by simp [quote.1]), if_neg noSingle, if_pos quote, ih isQuiet]
      · next noDouble =>
        simp only [Bool.and_eq_true, Bool.or_eq_true, decide_eq_true_eq] at isQuiet
        rw [if_neg, if_neg noSingle, if_neg noDouble, ih isQuiet.2]
        rintro ⟨rfl, rfl, rfl⟩
        simp at isQuiet

theorem expandLoop_quiet (envars : List Text) (fuel room : Nat) (enough : text.length ≤ fuel)
    (fits : text.length ≤ room) (isQuiet : quiet inSingle inDouble text) :
    expandLoop envars fuel room inSingle inDouble text = text := by
  induction text generalizing fuel room inSingle inDouble with
  | nil => cases fuel <;> rfl
  | cons c rest ih =>
    rw [length_cons] at enough fits
    obtain ⟨fuel, rfl⟩ : ∃ k, fuel = k + 1 := ⟨fuel - 1, by omega⟩
    rw [quiet] at isQuiet
    rw [expandLoop, if_neg (by omega)]
    have goesOn : ∀ inSingle inDouble, quiet inSingle inDouble rest →
        c :: expandLoop envars fuel (room - 1) inSingle inDouble rest = c :: rest := by
      intro inSingle inDouble isQuiet
      rw [ih fuel (room - 1) (by omega) (by omega) isQuiet]
    split at isQuiet
    · next quote => rw [if_pos quote, goesOn _ _ isQuiet]
    · next noSingle =>
      rw [if_neg noSingle]
      split at isQuiet
      · next quote => rw [if_pos quote, goesOn _ _ isQuiet]
      · next noDouble =>
        simp only [Bool.and_eq_true, Bool.or_eq_true, decide_eq_true_eq] at isQuiet
        rw [if_neg noDouble, if_neg, goesOn _ _ isQuiet.2]
        rintro ⟨rfl, rfl⟩
        simp at isQuiet

variable {tail : Text}

theorem readWord_single (word : Text) (writable : 39 ∉ word) :
    readWord .single (word ++ 39 :: tail) = (word ++ (readWord .none tail).1,
      (readWord .none tail).2) := by
  induction word with
  | nil => rfl
  | cons c word ih =>
    simp only [mem_cons, not_or] at writable
    rw [cons_append, readWord, if_neg (Ne.symm writable.1), ih writable.2]
    rfl

theorem readWord_double (word : Text) :
    readWord .double (escape escapesInDouble word ++ 34 :: tail) =
      (word ++ (readWord .none tail).1, (readWord .none tail).2) := by
  induction word with
  | nil => rw [readWord.eq_def]; rfl
  | cons c word ih =>
    by_cases escaped : escapesInDouble c
    · have spelled : escape escapesInDouble (c :: word) =
          92 :: c :: escape escapesInDouble word := by
        simp [escape, escaped]
      have known : c = 34 ∨ c = 92 ∨ c = 36 := by simpa [escapesInDouble, or_assoc] using escaped
      rw [spelled, cons_append, cons_append, readWord.eq_def]
      simp [known, ih]
    · have spelled : escape escapesInDouble (c :: word) = c :: escape escapesInDouble word := by
        simp [escape, escaped]
      obtain ⟨⟨noQuote, noSlash⟩, -⟩ : (c ≠ 34 ∧ c ≠ 92) ∧ c ≠ 36 := by
        simpa [escapesInDouble] using escaped
      obtain ⟨d, rest, more⟩ : ∃ d rest, escape escapesInDouble word ++ 34 :: tail = d :: rest := by
        cases escape escapesInDouble word <;> exact ⟨_, _, rfl⟩
      rw [spelled, cons_append, more, readWord.eq_def]
      simp [noQuote, noSlash, ← more, ih]

theorem readWord_escaped (word : Text) : readWord .none (escape isSpecial word ++ tail) =
      (word ++ (readWord .none tail).1, (readWord .none tail).2) := by
  induction word with
  | nil => rfl
  | cons c word ih =>
    by_cases special : isSpecial c
    · have spelled : escape isSpecial (c :: word) = 92 :: c :: escape isSpecial word := by
        simp [escape, special]
      rw [spelled, cons_append, cons_append, readWord.eq_def]
      simp [ih]
    · have spelled : escape isSpecial (c :: word) = c :: escape isSpecial word := by
        simp [escape, special]
      simp only [isSpecial, mem_cons, decide_eq_true_eq, not_or] at special
      rw [spelled, cons_append, readWord.eq_def]
      simp [special, ih]

theorem readWord_written (w : QuotedWord) :
    readWord .none (w.written ++ tail) = (w.word ++ (readWord .none tail).1,
      (readWord .none tail).2) := by
  obtain ⟨quoting, word, writable⟩ := w
  cases quoting with
  | single =>
    show readWord .none (39 :: (word ++ [39] ++ tail)) = _
    rw [append_assoc, readWord.eq_def]
    exact readWord_single word writable
  | double =>
    show readWord .none (34 :: (escape escapesInDouble word ++ [34] ++ tail)) = _
    rw [append_assoc, readWord.eq_def]
    exact readWord_double word
  | escaped => exact readWord_escaped word

/-- No word begins with a blank. -/
theorem written_head (w : QuotedWord) : ∃ c rest, w.written = c :: rest ∧ ¬(c = 32 ∨ c = 9) := by
  obtain ⟨quoting, word, writable⟩ := w
  cases quoting with
  | single => exact ⟨39, _, rfl, by decide⟩
  | double => exact ⟨34, _, rfl, by decide⟩
  | escaped =>
    cases word with
    | nil => exact absurd rfl writable
    | cons c word =>
      by_cases special : isSpecial c
      · exact ⟨92,
          c :: escape isSpecial word, by simp [QuotedWord.written, escape, special], by decide⟩
      · refine ⟨c, escape isSpecial word, by simp [QuotedWord.written, escape, special], ?_⟩
        rintro (rfl | rfl) <;> exact special rfl

theorem readWords_line (words : List QuotedWord) (fuel places : Nat)
    (enough : (lineOf words).length ≤ fuel) (room : words.length ≤ places) :
    readWords fuel places (lineOf words) = words.map (·.word) := by
  induction words generalizing fuel places with
  | nil => cases fuel <;> rfl
  | cons w rest ih =>
    obtain ⟨c, more, spelled, noBlank⟩ := written_head w
    obtain ⟨tail, isLine, behind, short⟩ : ∃ tail, lineOf (w :: rest) = w.written ++ tail ∧
        readWord .none tail = ([], lineOf rest) ∧ (lineOf rest).length ≤ tail.length := by
      cases rest with
      | nil => exact ⟨[], (append_nil _).symm, rfl, Nat.le_refl _⟩
      | cons v rest =>
        exact ⟨32 :: lineOf (v :: rest), rfl, by rw [readWord.eq_def]; rfl, Nat.le_succ _⟩
    rw [length_cons] at room
    rw [isLine, length_append, spelled, length_cons] at enough
    obtain ⟨fuel, rfl⟩ : ∃ k, fuel = k + 1 := ⟨fuel - 1, by omega⟩
    have word := @readWord_written tail w
    rw [isLine, readWords]
    rw [spelled, cons_append] at word ⊢
    rw [dropWhile_cons_of_neg (by simpa using noBlank)]
    dsimp only
    rw [if_neg (by omega), word, behind, append_nil, map_cons,
      ih fuel (places - 1) (by omega) (by omega)]

theorem redirections_plain (argv : List Text) (saved : Saved) (s : Table) (words : List Text)
    (plain : ∀ word ∈ words, direction word = none) :
    redirections P argv saved s words = .done (argv ++ words) saved s := by
  induction words generalizing argv with
  | nil => rw [redirections, append_nil]
  | cons word rest ih =>
    rw [redirections, plain word mem_cons_self]
    dsimp only
    rw [ih _ fun word inRest => plain word (mem_cons_of_mem _ inRest), append_assoc]
    rfl

theorem execOne_quoted {words : List QuotedWord} {func : List Text → Table → Table}
    (few : words.length ≤ 30) (fits : (lineOf words).length ≤ 510)
    (isQuiet : quiet false false (lineOf words))
    (plain : ∀ w ∈ words, direction w.word = none)
    (known : ∀ w ∈ words.head?, cmdTable w.word = some func) (some : words ≠ []) (s : Table) :
    execOne P cmdTable (lineOf words) s = func (words.map (·.word)) s := by
  have found : commandWords s.envars (lineOf words) = words.map (·.word) := by
    rw [commandWords, expandVars, expandLoop_quiet _ _ _ (Nat.le_refl _) (by omega) isQuiet,
      take_of_length_le fits]
    exact readWords_line words _ _ (Nat.le_refl _) (by omega)
  have plain := redirections_plain P [] .initial s (words.map (·.word)) (forall_mem_map.mpr plain)
  cases words with
  | nil => exact absurd rfl some
  | cons w rest =>
    rw [execOne, found, map_cons]
    dsimp only
    rw [known w rfl]
    dsimp only
    rw [← map_cons, plain]
    rfl

/-- The command is called once, with the words as they were written. -/
theorem quoted_words_passed (outcome : Nat → Execution) (last : Int) (command : QuotedWord)
    (args : List QuotedWord) (func : List Text → Table → Table)
    (known : cmdTable command.word = some func) (few : args.length ≤ 29)
    (fits : (lineOf (command :: args)).length ≤ 510)
    (isQuiet : quiet false false (lineOf (command :: args)))
    (plain : ∀ w ∈ command :: args, direction w.word = none) (s : Table) :
    runLine P cmdTable outcome last (lineOf (command :: args)) s =
      func ((command :: args).map (·.word)) s := by
  obtain ⟨c, rest, spelled, noBlank⟩ :
      ∃ c rest, lineOf (command :: args) = c :: rest ∧ ¬(c = 32 ∨ c = 9) := by
    obtain ⟨c, rest, spelled, noBlank⟩ := written_head command
    cases args with
    | nil => exact ⟨c, rest, spelled, noBlank⟩
    | cons v args => exact ⟨c, _, congrArg (· ++ 32 :: lineOf (v :: args)) spelled, noBlank⟩
  have noSkip : skipBlanks (lineOf (command :: args)) = lineOf (command :: args) := by
    rw [spelled, skipBlanks, dropWhile_cons_of_neg]
    simpa using fun isBlank => noBlank (.inl isBlank)
  have one : (executeCommandList outcome last (lineOf (command :: args))).1 =
      [(0, lineOf (command :: args))] := by
    rw [executeCommandList, splitCommands_quiet (by decide) isQuiet, runCommands,
      if_pos (show Op.seq.goesOn last from trivial)]
    dsimp only
    rw [noSkip, if_neg (by simp [spelled])]
    rfl
  have call : execOne P cmdTable (lineOf (command :: args)) s =
      func ((command :: args).map (·.word)) s :=
    execOne_quoted P cmdTable (show (command :: args).length ≤ 30 from Nat.succ_le_succ few) fits
      isQuiet
      plain (fun w isFirst => Option.some.inj isFirst ▸ known) (cons_ne_nil _ _) s
  rw [runLine, one, foldl_cons, foldl_nil, runCommand]
  split
  · have part : stages (lineOf (command :: args)) = [lineOf (command :: args)] := by
      rw [stages]
      conv_lhs => rw [spelled]
      rw [length_cons, readStages, ← spelled, noSkip, spelled]
      dsimp only
      rw [if_neg (by decide), ← spelled, readStage_quiet isQuiet]
      cases rest.length <;> rfl
    rw [runPipeline, part]
    exact call
  · exact call

/-- A shell whose only command is `echo`; it leaves its words in the variables. -/
def onlyEcho : Commands := fun name =>
  if name = [101, 99, 104, 111] then some fun argv s => { s with envars := argv } else none

def bareTable : Table := ⟨fun _ => none, 0, 0, [], 1, []⟩

def echo : QuotedWord := ⟨.escaped, [101, 99, 104, 111], by decide⟩

/-- `;`, a blank and `$` inside single quotes reach the command as they are. -/
theorem quoted_words_passed_single :
    runLine ⟨20, Nat.le_refl _, fun _ => true⟩ onlyEcho (fun _ => []) 0
        (lineOf [echo, ⟨.single, [97, 59, 98, 32, 36, 120], by decide⟩]) bareTable =
      { bareTable with envars := [[101, 99, 104, 111], [97, 59, 98, 32, 36, 120]] } := by
  refine quoted_words_passed _ _ _ _ echo [⟨.single, [97, 59, 98, 32, 36, 120], by decide⟩]
    (fun argv s => { s with envars := argv }) rfl (by decide) (by decide) (by decide) ?_
    bareTable
  simp only [mem_cons, not_mem_nil, or_false, forall_eq_or_imp, forall_eq]
  exact ⟨rfl, rfl⟩

/-- `echo a\;b` is taken for two commands. -/
theorem quoted_words_split :
    ¬ ∀ (P : Posix) (cmdTable : Commands) (outcome : Nat → Execution) (last : Int)
    (command : QuotedWord) (args : List QuotedWord) (func : List Text → Table → Table) (s : Table),
    cmdTable command.word = some func → args.length ≤ 29 → (lineOf (command :: args)).length ≤ 510 →
      runLine P cmdTable outcome last (lineOf (command :: args)) s =
        func ((command :: args).map (·.word)) s := by
  intro passed
  have wrong := passed ⟨20, Nat.le_refl _, fun _ => true⟩ onlyEcho (fun _ => []) 0 echo
    [⟨.escaped, [97, 59, 98], by decide⟩] (fun argv s => { s with envars := argv }) bareTable rfl
      (by decide)
    (by decide)
  exact absurd (congrArg Table.envars wrong) (by decide +kernel)

end M4KK1.Shell
