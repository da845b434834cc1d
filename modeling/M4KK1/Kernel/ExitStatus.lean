import Mathlib.Tactic.IntervalCases
import M4KK1.Kernel.Runs

/-!
# How a parent learns of the end of its child

From `mkrn_process_exit` or a signal through `mkrn_waitpid` to the macros of `signal.h`.
-/

namespace M4KK1.Kernel

open M4KK1.Lib Function

variable {s s' s'' : State} {p q c : Addr}

variable (status : BitVec 32)

def wtermsig : BitVec 32 := status &&& 0x7F#32

def wexitstatus : BitVec 32 := (status.sshiftRight 8) &&& 0xFF#32

def wifexited : Bool := wtermsig status = 0#32

def wifsignaled : Bool := (wtermsig status).toInt > 0

/-- How a process ended: it called `exit`, or a fatal signal reached it. -/
inductive Ending where
  | exited (code : BitVec 32)
  | signalled (sig : Int)

/-- What `exit_status` holds after an ending. -/
def Ending.word : Ending → BitVec 32
  | .exited code => code
  | .signalled sig => BitVec.ofInt 32 sig

def Reports : Ending → Prop
  | .exited code => wifexited status = true ∧ wexitstatus status = code &&& 0xFF#32
  | .signalled sig => wifsignaled status = true ∧ wtermsig status = BitVec.ofInt 32 sig

def Distinct : Ending → Prop
  | .exited code => code = 0#32 ∨ 11#32 ≤ code
  | .signalled _ => True

/-- The kernel, and how the process of each control block ended. -/
structure Watched where
  state : State
  endings : Addr → Option Ending

variable (watched : Watched)

/-- Who ended before does not end again, and a block that `fork` gets is a new process's. -/
def recordEnding : Call → Addr → Option Ending
  | .exit status =>
    match watched.state.current with
    | none => watched.endings
    | some c => update watched.endings c (some (.exited status))
  | .kill pid sig =>
    match processFind watched.state pid with
    | none => watched.endings
    | some target =>
      if signalIsFatal sig ∧ ¬ (pid = 1 ∧ sig = sigkill) ∧
          watched.state.has target .zombie = false then
        update watched.endings target (some (.signalled sig))
      else watched.endings
  | .fork _ _ (some child) _ => update watched.endings child none
  | _ => watched.endings

def WatchedStep (call : Call) (next : Watched) : Prop :=
  SchedStep watched.state call next.state ∧ next.endings = recordEnding watched call

/-- The first switch, with nothing ended. -/
def watchedBoot (idle : Addr) : Watched := ⟨boot idle, fun _ => none⟩

def Spared : Call → Prop
  | .kill pid sig => signalIsFatal sig = true → ¬ (pid = 1 ∧ sig = sigkill) →
      ∀ target, processFind watched.state pid = some target →
        watched.state.has target .zombie = false
  | _ => True

/-- No `exit_status` differs between the two states. -/
def SameExit (s s' : State) : Prop := ∀ q, (s'.pcbs q).exitStatus = (s.pcbs q).exitStatus

namespace SameExit

theorem refl (s : State) : SameExit s s := fun _ => rfl

theorem trans (first : SameExit s s') (second : SameExit s' s'') : SameExit s s'' :=
  fun q => (second q).trans (first q)

theorem modify {change : Process → Process}
    (keeps : (change (s.pcbs p)).exitStatus = (s.pcbs p).exitStatus) :
    SameExit s (s.modify p change) := by
  intro q
  by_cases isP : q = p
  · rw [isP, State.pcbs_modify_self, keeps]
  · rw [State.pcbs_modify_of_ne _ _ isP]

theorem setTags (s : State) (p : Addr) (tags : List Tag) : SameExit s (s.setTags p tags) :=
  modify rfl

theorem clearTags (s : State) (p : Addr) (tags : List Tag) : SameExit s (s.clearTags p tags) :=
  modify rfl

theorem enqueue (s : State) (p : Addr) : SameExit s (s.enqueue p) := by
  rw [State.enqueue]
  split <;> exact refl _

theorem leaveTimer (s : State) (p : Addr) : SameExit s (s.leaveTimer p) := by
  rw [State.leaveTimer]
  split
  · rw [dropTimerWaiter_eq]
    exact clearTags s p _
  · exact refl s

theorem processTerminate (s : State) (pid : BitVec 32) : SameExit s (processTerminate s pid) := by
  rw [Kernel.processTerminate]
  split
  · exact refl s
  · rename_i target _
    have left :
      SameExit s (((s.clearTags target [.schedSleeping]).setTags target [.terminate]).leaveTimer
        target) :=
      ((clearTags _ _ _).trans (setTags _ _ _)).trans (leaveTimer _ _)
    dsimp only
    split
    · split
      · exact left.trans (setTags _ _ _)
      · exact (left.trans (setTags _ _ _)).trans (enqueue _ _)
    · split
      · exact left
      · exact left.trans (enqueue _ _)

theorem signalDeliver (s : State) (p : Addr) {sig : Int} (spares : signalIsFatal sig = false) :
    SameExit s (signalDeliver s p sig) := by
  rw [Kernel.signalDeliver]
  split
  · exact refl s
  split
  · exact refl s
  dsimp only
  rw [if_neg (by rw [spares]; decide)]
  split
  · exact ((modify rfl).trans (setTags _ _ _)).trans (clearTags _ _ _)
  split
  · split
    · exact ((modify rfl).trans (clearTags _ _ _)).trans (setTags _ _ _)
    · exact (modify rfl).trans (clearTags _ _ _)
  · exact modify rfl

theorem kill (s : State) (pid : BitVec 32) {sig : Int} (spares : signalIsFatal sig = false) :
    SameExit s (kill s pid sig).1 := by
  rw [Kernel.kill]
  split
  · exact refl s
  split
  · exact refl s
  split
  · exact refl s
  · exact signalDeliver s _ spares

theorem reparentChildren (s : State) (parent : Addr) :
    SameExit s (processReparentChildren s parent) := by
  rw [processReparentChildren]
  generalize s.allProcs = children
  induction children generalizing s with
  | nil => exact refl s
  | cons p rest ih =>
    rw [List.foldl_cons]
    refine SameExit.trans ?_ (ih _)
    split
    · exact modify rfl
    · exact refl s

theorem processReap (s : State) (p : Addr) : SameExit s (processReap s p) := by
  rw [Kernel.processReap]
  refine SameExit.trans ?_ (reparentChildren _ _)
  have buried : SameExit s (bury s p) := (clearTags s p _).trans (setTags _ p _)
  refine buried.trans ?_
  dsimp only
  split
  · exact refl _
  · exact kill _ _ (by decide)

theorem switchPickLoop (fuel : Nat) : ∀ (s : State) (scanned : Nat),
    SameExit s (switchPickLoop fuel s scanned).1 := by
  induction fuel with
  | zero => exact fun s _ => refl s
  | succ fuel ih =>
    intro s scanned
    rcases switchPickLoop_round fuel s scanned with ⟨ends, -⟩ | ⟨cand, ready, -, round⟩
    · rw [ends]
      exact refl s
    · cases round with
      | reap _ goesOn =>
        rw [goesOn]
        exact (processReap { s with ready := ready } cand).trans (ih _ _)
      | choose _ ends =>
        rw [ends]
        exact refl s
      | putBack _ _ ready' _ goesOn =>
        rw [goesOn]
        exact ih { s with ready := ready' } _

theorem dequeueLiveLoop (fuel : Nat) : ∀ s : State, SameExit s (dequeueLiveLoop fuel s).1 := by
  induction fuel with
  | zero => exact refl
  | succ fuel ih =>
    intro s
    rw [Kernel.dequeueLiveLoop]
    split
    · exact refl s
    · rename_i cand ready _
      dsimp only
      split
      · exact (processReap { s with ready := ready } cand).trans (ih _)
      · exact refl s

theorem switchTo (s : State) (n : Addr) : SameExit s (switchTo s n) := by
  have switched : SameExit { s with current := some n } (Kernel.switchTo s n) :=
    (clearTags _ n _).trans (setTags _ n _)
  exact switched

theorem resumeCurrent (s : State) : SameExit s (resumeCurrent s) := by
  rw [Kernel.resumeCurrent]
  split
  · exact refl s
  split
  · exact (clearTags _ _ _).trans (modify rfl)
  · exact modify rfl
  · exact refl s

theorem requeueRunning (s : State) (c : Addr) : SameExit s (requeueRunning s c) := by
  rw [Kernel.requeueRunning]
  split
  · exact ((clearTags _ _ _).trans (setTags _ _ _)).trans (enqueue _ _)
  · exact refl s

theorem processYield (s : State) (point : Resume) : SameExit s (processYield s point) := by
  rw [Kernel.processYield]
  refine SameExit.trans ?_ (resumeCurrent _)
  rw [processSwitchPick]
  split
  · exact refl s
  split
  · exact refl s
  · rename_i c _
    have suspended : SameExit s (suspend s c point) := (modify rfl).trans (requeueRunning _ c)
    have searched := suspended.trans (switchPickLoop ((suspend s c point).ready.count + 1) _ 0)
    dsimp only
    split
    · rename_i found same
      rwa [show Kernel.switchPickLoop ((suspend s c point).ready.count + 1) (suspend s c point) 0 =
        (found, none) from same] at searched
    · rename_i found next same
      rw [show Kernel.switchPickLoop ((suspend s c point).ready.count + 1) (suspend s c point) 0 =
        (found, some next) from same] at searched
      have resumed : SameExit (Kernel.switchTo found next) ((Kernel.switchTo found next).modify next
          fun process => { process with lastResumeMs := (Kernel.switchTo found next).uptime }) :=
        modify rfl
      exact (searched.trans (switchTo found next)).trans resumed

theorem processSyscallYield (s : State) : SameExit s (processSyscallYield s) := by
  rw [Kernel.processSyscallYield]
  split
  · exact refl s
  split
  · exact refl s
  · rename_i c _
    dsimp only
    split <;> split
    · exact ((modify rfl).trans (modify rfl)).trans (processYield _ _)
    · exact (modify rfl).trans (processYield _ _)
    · exact modify rfl
    · exact refl s

theorem processBlock (s : State) : SameExit s (processBlock s) := by
  rw [Kernel.processBlock]
  split
  · exact refl s
  · exact ((clearTags _ _ _).trans (setTags _ _ _)).trans (processYield _ _)

theorem processWakeup (s : State) (p : Addr) : SameExit s (processWakeup s p) := by
  by_cases asleep : s.has p .schedSleeping = true
  · obtain ⟨word, ready, waiters, done, -⟩ := processWakeup_spec asleep
    rw [done]
    have tagged : SameExit s (s.modify p fun process => { process with stateTags := word }) :=
      modify rfl
    exact tagged
  · rw [Kernel.processWakeup, if_neg asleep]
    exact refl s

theorem processSleep (s : State) (ms freq : BitVec 32) : SameExit s (processSleep s ms freq) := by
  rw [Kernel.processSleep]
  split
  · exact refl s
  split
  · exact refl s
  split
  · exact processYield s .user
  · rename_i c _ _ _
    have asleep : SameExit s (((s.modify c fun process =>
        { process with sleepTicks := sleepTicksFor ms freq }).clearTags c [.schedRunning]).setTags c
          [.schedSleeping, .waitTimer]) :=
      ((modify rfl).trans (clearTags _ _ _)).trans (setTags _ _ _)
    exact asleep.trans (SameExit.trans (fun _ => rfl) (processYield _ _))

theorem timerTickOne (s : State) (p : Addr) : SameExit s (timerTickOne s p) := by
  rw [Kernel.timerTickOne]
  split
  · dsimp only
    split
    · split
      · exact (((modify rfl).trans (processWakeup _ _)).trans (modify rfl)).trans (setTags _ _ _)
      · exact (modify rfl).trans (processWakeup _ _)
    · exact modify rfl
  · exact refl s

theorem processTimerTick (s : State) : SameExit s (processTimerTick s) :=
  processTimerTick_induction (refl s) fun same _ => same.trans (timerTickOne _ _)

theorem handOver (s : State) : SameExit s (handOver s) := by
  have searched : SameExit s (processDequeueLive s).1 := dequeueLiveLoop _ s
  rw [Kernel.handOver]
  revert searched
  obtain ⟨s', next⟩ := processDequeueLive s
  intro searched
  cases next with
  | none => exact searched
  | some n =>
    have goesOn := resumeCurrent { Kernel.switchTo s' n with parked := false }
    exact (searched.trans (switchTo s' n)).trans goesOn

theorem leaveWaitpid (s : State) : SameExit s (leaveWaitpid s) := by
  rw [Kernel.leaveWaitpid]
  split
  · exact refl s
  · exact modify rfl

theorem waitpidRound (s : State) (pid options : BitVec 32) :
    SameExit s (waitpidRound s pid options).1 := by
  rw [Kernel.waitpidRound]
  split
  · rename_i child _
    exact leaveWaitpid (procFreeZombie s child)
  split
  · exact leaveWaitpid s
  · exact processYield s _

end SameExit

theorem forkStatus_pcbs {inheritMask : BitVec 64} {flags : BitVec 32} {child : Addr} {kstack : Bool}
    (other : q ≠ child) :
    (forkStatus s inheritMask flags (some child) kstack).1.pcbs q = s.pcbs q := by
  have queued : ∀ s : State, (s.enqueue child).pcbs = s.pcbs := by
    intro s
    obtain ⟨ready, done, -⟩ := enqueue_spec s child
    rw [done]
  rw [forkStatus]
  split
  · rfl
  split
  · rfl
  split
  · rfl
  dsimp only
  rw [forkChild]
  dsimp only
  split
  · simp [State.modify, other]
  split
  · simp [State.modify, other]
  · rw [queued]
    simp [State.modify, other]

variable {sig : Int}

theorem kill_exitStatus {pid : BitVec 32} {target : Addr}
    (fatal : signalIsFatal sig = true) (notInit : ¬ (pid = 1 ∧ sig = sigkill))
    (found : processFind s pid = some target) (q : Addr) :
    ((kill s pid sig).1.pcbs q).exitStatus =
      if q = target then BitVec.ofInt 32 sig else (s.pcbs q).exitStatus := by
  have inRange : ¬ (sig ≤ 0 ∨ sig ≥ nsig) := by
    rcases of_decide_eq_true fatal with rfl | rfl <;> decide
  have isPid : (s.pcbs target).pid = pid := (processFind_some found).1
  simp only [kill, found, if_neg inRange, if_neg notInit, signalDeliver, isPid, fatal, if_true]
  rw [SameExit.processTerminate _ _ q]
  by_cases isTarget : q = target
  · rw [isTarget, if_pos rfl, State.pcbs_modify_self]
  · rw [if_neg isTarget, State.pcbs_modify_of_ne _ _ isTarget, State.pcbs_modify_of_ne _ _ isTarget]

theorem kill_ignored {pid : BitVec 32}
    (ignored : signalIsFatal sig = true → ¬ (pid = 1 ∧ sig = sigkill) → processFind s pid = none) :
    SameExit s (kill s pid sig).1 := by
  cases fatal : signalIsFatal sig with
  | false => exact SameExit.kill s pid fatal
  | true =>
    rw [kill]
    split
    · exact SameExit.refl s
    split
    · exact SameExit.refl s
    · rename_i target found
      split
      · exact SameExit.refl s
      · rename_i notInit
        exact absurd (found.symm.trans (ignored fatal notInit)) (Option.some_ne_none target)

/-- Every recorded ending is that of `exit_status`, and every recorded signal fatal. -/
def Recorded : Prop :=
  ∀ p ending, watched.endings p = some ending →
    (watched.state.pcbs p).exitStatus = ending.word ∧
      ∀ sig, ending = .signalled sig → signalIsFatal sig = true

theorem Recorded.same {watched next : Watched} (recorded : Recorded watched)
    (same : SameExit watched.state next.state) (sameEndings : next.endings = watched.endings) :
    Recorded next := by
  intro p ending isEnding
  rw [sameEndings] at isEnding
  rw [same p]
  exact recorded p ending isEnding

theorem Recorded.update {watched next : Watched} {ending : Ending} (recorded : Recorded watched)
    (ended : (next.state.pcbs p).exitStatus = ending.word)
    (others : ∀ q, q ≠ p → (next.state.pcbs q).exitStatus = (watched.state.pcbs q).exitStatus)
    (fatal : ∀ sig, ending = .signalled sig → signalIsFatal sig = true)
    (isRecord : next.endings = update watched.endings p (some ending)) : Recorded next := by
  intro q other isOther
  rw [isRecord] at isOther
  by_cases isP : q = p
  · subst isP
    rw [update_self] at isOther
    obtain rfl := Option.some.inj isOther
    exact ⟨ended, fatal⟩
  · rw [update_of_ne isP] at isOther
    rw [others q isP]
    exact recorded q other isOther

theorem Recorded.step {watched next : Watched} {call : Call} (recorded : Recorded watched)
    (transition : Guarded WatchedStep Spared watched call next) : Recorded next := by
  obtain ⟨spared, ⟨-, isNext⟩, isRecord⟩ := transition
  cases call with
  | fork inheritMask flags pcb kstack =>
    cases pcb with
    | none =>
      refine recorded.same ?_ isRecord
      rw [← isNext, perform]
      rcases forkStatus_cases watched.state inheritMask flags none kstack with
        unchanged | ⟨_, _, isPcb, _⟩
      · rw [unchanged]
        exact SameExit.refl _
      · cases isPcb
    | some child =>
      intro q ending isEnding
      rw [isRecord, recordEnding] at isEnding
      have other : q ≠ child := by
        rintro rfl
        rw [update_self] at isEnding
        cases isEnding
      rw [update_of_ne other] at isEnding
      rw [← isNext, perform, forkStatus_pcbs other]
      exact recorded q ending isEnding
  | exit status =>
    simp only [perform, processExit] at isNext
    simp only [recordEnding] at isRecord
    cases isCurrent : watched.state.current with
    | none =>
      simp only [isCurrent] at isNext isRecord
      exact recorded.same (isNext ▸ SameExit.refl _) isRecord
    | some c =>
      simp only [isCurrent] at isNext isRecord
      have same :
        SameExit (watched.state.modify c fun process => { process with exitStatus := status })
          next.state := isNext ▸ (SameExit.processReap _ c).trans (SameExit.handOver _)
      apply recorded.update ?_ ?_ ?_ isRecord
      · rw [same c, State.pcbs_modify_self]
        rfl
      · intro q other
        rw [same q, State.pcbs_modify_of_ne _ _ other]
      · intro other isSignal
        cases isSignal
  | kill pid sig =>
    simp only [perform] at isNext
    simp only [recordEnding] at isRecord
    cases found : processFind watched.state pid with
    | none =>
      simp only [found] at isRecord
      exact recorded.same (isNext ▸ kill_ignored fun _ _ => found) isRecord
    | some target =>
      simp only [found] at isRecord
      by_cases hits : signalIsFatal sig = true ∧ ¬ (pid = 1 ∧ sig = sigkill)
      · have live := spared hits.1 hits.2 target found
        rw [if_pos ⟨hits.1, hits.2, live⟩] at isRecord
        have stored := kill_exitStatus hits.1 hits.2 found
        apply recorded.update ?_ ?_ ?_ isRecord
        · rw [← isNext, stored, if_pos rfl]
          rfl
        · intro q other
          rw [← isNext, stored, if_neg other]
        · intro other isSignal
          obtain rfl := Ending.signalled.inj isSignal
          exact hits.1
      · rw [if_neg fun all => hits ⟨all.1, all.2.1⟩] at isRecord
        exact recorded.same (isNext ▸ kill_ignored fun fatal notInit =>
          absurd ⟨fatal, notInit⟩ hits)
          isRecord
  | yield => exact recorded.same (isNext ▸ SameExit.processYield _ _) isRecord
  | syscallYield => exact recorded.same (isNext ▸ SameExit.processSyscallYield _) isRecord
  | block => exact recorded.same (isNext ▸ SameExit.processBlock _) isRecord
  | sleep ms freq => exact recorded.same (isNext ▸ SameExit.processSleep _ _ _) isRecord
  | waitpid pid options =>
    refine recorded.same ?_ isRecord
    rw [← isNext, perform, waitpid]
    split
    · exact SameExit.waitpidRound _ _ _
    · exact SameExit.refl _
  | terminate pid => exact recorded.same (isNext ▸ SameExit.processTerminate _ _) isRecord
  | wakeup p => exact recorded.same (isNext ▸ SameExit.processWakeup _ _) isRecord
  | tick uptime =>
    have ticked := SameExit.processTimerTick { watched.state with uptime := uptime }
    exact recorded.same (isNext ▸ ticked) isRecord
  | rescan =>
    refine recorded.same ?_ isRecord
    rw [← isNext, perform]
    split
    · exact SameExit.refl _
    · exact SameExit.waitpidRound _ _ _
  | probe => exact recorded.same (isNext ▸ SameExit.handOver _) isRecord

variable (code : BitVec 32)

theorem wtermsig_shifted : wtermsig ((code &&& 0xFF#32) <<< 8) = 0#32 := by
  rw [wtermsig]
  ext i bound
  interval_cases i <;> simp [BitVec.getElem_shiftLeft]

theorem wexitstatus_shifted : wexitstatus ((code &&& 0xFF#32) <<< 8) = code &&& 0xFF#32 := by
  rw [wexitstatus]
  ext i bound
  interval_cases i <;> simp [BitVec.getElem_shiftLeft, BitVec.getElem_sshiftRight]

theorem reports_exited_iff : Reports (waitStatus code) (.exited code) ↔
    Distinct (.exited code) := by
  rw [waitStatus]
  split
  · rename_i small
    have below : code.toNat < 11 := small
    obtain ⟨n, rfl⟩ : ∃ n, code = BitVec.ofNat 32 n := ⟨code.toNat, by simp⟩
    simp only [Reports, Distinct, wifexited, wexitstatus, wtermsig]
    rw [BitVec.toNat_ofNat] at below
    generalize isCode : n % 2 ^ 32 = code at below
    have same : BitVec.ofNat 32 n = BitVec.ofNat 32 code := by
      apply BitVec.eq_of_toNat_eq
      simp [← isCode]
    rw [same]
    interval_cases code <;> decide
  · rename_i large
    simp only [Reports, Distinct, wifexited, wtermsig_shifted, wexitstatus_shifted]
    simp [BitVec.not_lt.mp large]

theorem reports_signalled (fatal : signalIsFatal sig = true) :
    Reports (waitStatus (BitVec.ofInt 32 sig)) (.signalled sig) := by
  simp only [signalIsFatal, decide_eq_true_eq] at fatal
  rcases fatal with rfl | rfl <;> exact ⟨by decide, by decide⟩

theorem reports_disjoint {status code : BitVec 32}
    (exited : Reports status (.exited code)) : ¬ Reports status (.signalled sig) := by
  rintro ⟨signaled, -⟩
  have noSignal := exited.1
  rw [wifexited, decide_eq_true_eq] at noSignal
  rw [wifsignaled, noSignal] at signaled
  exact absurd signaled (by decide)

/-- The status tells how a child ended exactly when it did not exit with a signal's number. -/
theorem exit_status_iff {idle : Addr} {calls : List Call} {watched : Watched}
    (run : Steps (Guarded WatchedStep Spared) (watchedBoot idle) calls watched) :
    (∀ pid options child ending, waitpidZombie watched.state pid = some child →
      watched.endings child = some ending →
      ∃ status, (waitpidRound watched.state pid options).2 =
          .returned (watched.state.pcbs child).pid (some status) ∧
        (Reports status ending ↔ Distinct ending)) ∧
    ∀ code sig, Distinct (.exited code) → signalIsFatal sig = true →
      waitStatus code ≠ waitStatus (BitVec.ofInt 32 sig) := by
  have recorded : Recorded watched :=
    run.invariant Recorded (fun _ _ _ recorded transition => recorded.step transition)
      fun _ _ isEnding => nomatch isEnding
  constructor
  · intro pid options child ending isZombie isEnding
    obtain ⟨isWord, fatal⟩ := recorded child ending isEnding
    refine ⟨waitStatus ending.word, ?_, ?_⟩
    · rw [waitpidRound, isZombie, ← isWord]
    · cases ending with
      | exited code => exact reports_exited_iff code
      | signalled sig => exact iff_of_true (reports_signalled (fatal sig rfl)) trivial
  · intro code sig distinct fatal same
    have exited := (reports_exited_iff code).mpr distinct
    rw [same] at exited
    exact reports_disjoint exited (reports_signalled fatal)

/-- A child that exits with 42 is reported so to its parent. -/
theorem exit_status_forty_two :
    ∃ watched, Steps (Guarded WatchedStep Spared) (watchedBoot 4096)
        [.fork 0 1 (some 8192) true, .yield, .exit 42] watched ∧
      ∃ status, (waitpidRound watched.state 2 0).2 = .returned 2 (some status) ∧
        Reports status (.exited 42) := by
  have run := Steps.refl.step (show Guarded WatchedStep Spared (watchedBoot 4096)
    (.fork 0 1 (some 8192) true) ⟨_, _⟩ from ⟨trivial, ⟨by decide, rfl⟩, rfl⟩)
  have run := run.step (show Guarded WatchedStep Spared _ .yield ⟨_, _⟩ from
    ⟨trivial, ⟨by decide, rfl⟩, rfl⟩)
  have run := run.step (show Guarded WatchedStep Spared _ (.exit 42) ⟨_, _⟩ from
    ⟨trivial, ⟨by decide, rfl⟩, rfl⟩)
  obtain ⟨status, returned, reports⟩ :=
    (exit_status_iff run).1 2 0 8192 (.exited 42) (by decide) rfl
  exact ⟨_, run, status, returned, reports.mpr (.inr (by decide))⟩

/-- A child exits with the code 1, and its parent sees the end by a signal. -/
theorem exit_status_one :
    ∃ watched, Steps WatchedStep (watchedBoot 4096)
        [.fork 0 1 (some 8192) true, .yield, .exit 1] watched ∧
      waitpidZombie watched.state 2 = some 8192 ∧ watched.endings 8192 = some (.exited 1) ∧
      (waitpidRound watched.state 2 0).2 = .returned 2 (some 1) ∧ ¬ Reports 1 (.exited 1) := by
  have run := Steps.refl.step (show WatchedStep (watchedBoot 4096)
    (.fork 0 1 (some 8192) true) ⟨_, _⟩ from ⟨⟨by decide, rfl⟩, rfl⟩)
  have run := run.step (show WatchedStep _ .yield ⟨_, _⟩ from ⟨⟨by decide, rfl⟩, rfl⟩)
  have run := run.step (show WatchedStep _ (.exit 1) ⟨_, _⟩ from ⟨⟨by decide, rfl⟩, rfl⟩)
  refine ⟨_, run, by decide, rfl, by decide, ?_⟩
  rintro ⟨exited, -⟩
  exact absurd exited (by decide)

end M4KK1.Kernel
