import M4KK1.Lib.Run
import M4KK1.Kernel.Dispatch

/-!
# Runs of the scheduler

Calls, interrupts and rounds of waiting loops; `Preserved.step` is the case analysis, done once.
-/

namespace M4KK1.Kernel

open M4KK1.Lib

/-- The calls of processes, the interrupts, and the rounds of the waiting loops. -/
inductive Call where
  | fork (inheritMask : BitVec 64) (flags : BitVec 32) (pcb : Option Addr) (kstack : Bool)
  | yield
  | syscallYield
  | block
  | sleep (ms freq : BitVec 32)
  | exit (status : BitVec 32)
  | waitpid (pid options : BitVec 32)
  | terminate (pid : BitVec 32)
  | kill (pid : BitVec 32) (sig : Int)
  /-- An interrupt handler or a kernel thread wakes a sleeping process. -/
  | wakeup (p : Addr)
  /-- The timer interrupt, with the uptime that the clock then shows. -/
  | tick (uptime : BitVec 32)
  /-- The current process, resumed inside `mkrn_waitpid`, scans again. -/
  | rescan
  /-- The loop at the end of `mkrn_process_exit` looks at the queue again. -/
  | probe

/-- The arguments of the `mkrn_waitpid` that the current process is in. -/
def waiting (s : State) : Option (BitVec 32 × BitVec 32) :=
  match s.current.map fun c => (s.pcbs c).resume with
  | some (.inWaitpid pid options) => some (pid, options)
  | _ => none

/-- A process has the CPU and is not inside a call. -/
def inUser (s : State) : Bool :=
  !s.parked && match s.current with
    | none => false
    | some c => (s.pcbs c).resume = .user

/-- `mkrn_alloc` returns no block in use, and only those that exist are woken. -/
def enabled (s : State) : Call → Bool
  | .wakeup p => p ∈ s.allProcs
  | .tick _ => true
  | .rescan => !s.parked && (waiting s).isSome
  | .probe => s.parked
  | .fork _ _ pcb _ => inUser s && pcb.all fun child => child ∉ s.allProcs
  | _ => inUser s

def perform (s : State) : Call → State
  | .fork inheritMask flags pcb kstack => (forkStatus s inheritMask flags pcb kstack).1
  | .yield => processYield s .user
  | .syscallYield => processSyscallYield s
  | .block => processBlock s
  | .sleep ms freq => processSleep s ms freq
  | .exit status => processExit s status
  | .waitpid pid options => (waitpid s pid options).1
  | .terminate pid => processTerminate s pid
  | .kill pid sig => (kill s pid sig).1
  | .wakeup p => processWakeup s p
  | .tick uptime => processTimerTick { s with uptime := uptime }
  | .rescan =>
    match waiting s with
    | none => s
    | some (pid, options) => (waitpidRound s pid options).1
  | .probe => handOver s

/-- The call is one that this state allows, and leads to `s'`. -/
def SchedStep (s : State) (call : Call) (s' : State) : Prop :=
  enabled s call = true ∧ perform s call = s'

def performAll (s : State) : List Call → State
  | [] => s
  | call :: calls => performAll (perform s call) calls

/-- Several steps can happen one after the other. -/
def allEnabled (s : State) : List Call → Bool
  | [] => true
  | call :: calls => enabled s call && allEnabled (perform s call) calls

theorem steps_performAll {calls : List Call} : ∀ {s : State}, allEnabled s calls = true →
    Steps SchedStep s calls (performAll s calls) := by
  induction calls with
  | nil => exact fun _ => .refl
  | cons call calls ih =>
    intro s isEnabled
    rw [allEnabled, Bool.and_eq_true] at isEnabled
    exact (Steps.refl.step ⟨isEnabled.1, rfl⟩).trans (ih isEnabled.2)

/-- A condition on the state before a yield, block, sleep, wake or terminate. -/
structure Conditions where
  yield : State → Prop
  block : State → Prop := fun _ => True
  sleep : State → Prop
  wakeup : State → Addr → Prop
  terminate : State → Addr → Prop

/-- A round of `mkrn_waitpid` yields: there is no zombie, and the caller waits. -/
def waitpidYields (s : State) (pid options : BitVec 32) : Prop :=
  waitpidZombie s pid = none ∧ options &&& wnohang = 0

/-- The conditions of the operations, for the calls that use them. -/
def Conditions.Meets (conditions : Conditions) (s : State) : Call → Prop
  | .yield => conditions.yield s
  | .syscallYield => (∀ c, s.current = some c → quantumElapsed s c = true) → conditions.yield s
  | .block => conditions.block s
  | .sleep ms _ => if ms = 0#32 then conditions.yield s else conditions.sleep s
  | .waitpid pid options => s.allProcs.any (waitpidMatches s pid) = true →
      waitpidYields s pid options → conditions.yield s
  | .rescan => ∀ pid options, waiting s = some (pid, options) →
      waitpidYields s pid options → conditions.yield s
  | .wakeup p => conditions.wakeup s p
  | .terminate pid => ∀ target, processFind s pid = some target → conditions.terminate s target
  | .kill pid sig => signalIsFatal sig = true → ¬ (pid = 1 ∧ sig = sigkill) →
      ∀ target, processFind s pid = some target → conditions.terminate s target
  | _ => True

/-- A process runs. -/
def HasCpu (s : State) : Prop := s.parked = false ∧ ∃ c, s.current = some c

theorem hasCpu_of_inUser {s : State} (user : inUser s = true) : HasCpu s := by
  rw [inUser, Bool.and_eq_true, Bool.not_eq_true'] at user
  cases isCurrent : s.current with
  | none =>
    rw [isCurrent] at user
    exact nomatch user.2
  | some c => exact ⟨user.1, c, isCurrent⟩

theorem hasCpu_of_waiting {s : State} (running : s.parked = false) (waits : (waiting s).isSome) :
    HasCpu s := by
  cases isCurrent : s.current with
  | none =>
    rw [waiting, isCurrent] at waits
    exact nomatch waits
  | some c => exact ⟨running, c, isCurrent⟩

theorem processSyscallYield_spec {s : State} {c : Addr} (isCurrent : s.current = some c) :
    ∃ stamped, Untouched s stamped ∧ stamped.processCount = s.processCount ∧
      (processSyscallYield s = stamped ∨
        quantumElapsed s c = true ∧ processSyscallYield s = processYield stamped .user) := by
  rw [processSyscallYield]
  split
  · exact ⟨s, Untouched.refl s, rfl, Or.inl rfl⟩
  · simp only [isCurrent]
    generalize isStamped : (if (s.pcbs c).lastResumeMs = 0 then
        s.modify c fun process => { process with lastResumeMs := s.uptime } else s) = stamped
    have touched : Untouched s stamped ∧ stamped.processCount = s.processCount := by
      rw [← isStamped]
      split
      · exact ⟨Untouched.modify rfl rfl rfl, rfl⟩
      · exact ⟨Untouched.refl s, rfl⟩
    obtain ⟨touched, sameCount⟩ := touched
    split
    · rename_i elapsed
      exact ⟨_, touched.trans (Untouched.modify rfl rfl rfl), sameCount, Or.inr ⟨elapsed, rfl⟩⟩
    · exact ⟨stamped, touched, sameCount, Or.inl rfl⟩

/-- An invariant survives every primitive change of the scheduler, each under its
condition. -/
structure Preserved (Inv : State → Prop) (conditions : Conditions) : Prop where
  stable : ∀ {s s'}, Untouched s s' → conditions.yield s → conditions.yield s'
  untouched : ∀ {s s'}, Untouched s s' → s'.processCount = s.processCount → Inv s → Inv s'
  yield : ∀ {s} point, Inv s → HasCpu s → conditions.yield s → Inv (processYield s point)
  block : ∀ {s}, Inv s → HasCpu s → conditions.block s → Inv (processBlock s)
  sleep : ∀ {s} ms freq, Inv s → HasCpu s → ms ≠ 0#32 → conditions.sleep s →
      Inv (processSleep s ms freq)
  wakeup : ∀ {s p}, Inv s → p ∈ s.allProcs → conditions.wakeup s p → Inv (processWakeup s p)
  tickOne : ∀ {s p}, Inv s → p ∈ s.allProcs → Inv (timerTickOne s p)
  exit : ∀ {s c}, Inv s → HasCpu s → s.current = some c → Inv (handOver (processReap s c))
  probe : ∀ {s}, Inv s → s.parked = true → Inv (handOver s)
  fork : ∀ {s} inheritMask flags pcb kstack, Inv s → HasCpu s → (∀ child, pcb = some child →
    child ∉ s.allProcs) → Inv (forkStatus s inheritMask flags pcb kstack).1
  free : ∀ {s p}, Inv s → s.current ≠ some p → s.has p .zombie = true → Inv (procFreeZombie s p)
  leave : ∀ {s}, Inv s → Inv (leaveWaitpid s)
  terminated : ∀ {s p process ready waiters}, Inv s → HasCpu s →
      p ∈ s.allProcs ∨ s.current = some p →
    conditions.terminate s p → Terminated s p process ready waiters →
    Inv (s.edit p process ready waiters)
  signalled : ∀ {s p sig process}, Inv s → Signalled s p sig process →
    Inv (s.edit p process s.ready s.timerWaiters)

namespace Preserved

variable {Inv : State → Prop} {conditions : Conditions} {s s' : State}

theorem yield_touched (preserved : Preserved Inv conditions) (touched : Untouched s s')
    (sameCount : s'.processCount = s.processCount) (inv : Inv s) (cpu : HasCpu s)
    (meets : conditions.yield s) : Inv (processYield s' .user) := by
  obtain ⟨running, c, isCurrent⟩ := cpu
  exact preserved.yield .user (preserved.untouched touched sameCount inv)
    ⟨touched.parked.trans running, c, touched.current.trans isCurrent⟩
    (preserved.stable touched meets)

theorem syscallYield (preserved : Preserved Inv conditions) (inv : Inv s) (cpu : HasCpu s)
    (meets : conditions.Meets s .syscallYield) : Inv (processSyscallYield s) := by
  obtain ⟨running, c, isCurrent⟩ := cpu
  obtain ⟨stamped, touched, sameCount, stays | ⟨elapsed, yields⟩⟩ :=
    processSyscallYield_spec isCurrent
  · rw [stays]
    exact preserved.untouched touched sameCount inv
  · rw [yields]
    refine preserved.yield_touched touched sameCount inv ⟨running, c, isCurrent⟩ (meets ?_)
    intro other isOther
    obtain rfl := Option.some.inj (isCurrent.symm.trans isOther)
    exact elapsed

theorem waitpidScan_mem {s : State} {pid : BitVec 32} {p : Addr} :
    ∀ (procs : List Addr) (child : Option Addr), waitpidScan s pid procs child = some p →
      child = some p ∨ p ∈ procs ∧ waitpidMatches s pid p = true
  | [], child, found => Or.inl found
  | q :: rest, child, found => by
    rw [waitpidScan] at found
    split at found
    · rename_i matched
      split at found
      · obtain rfl := Option.some.inj found
        exact Or.inr ⟨List.mem_cons_self, matched⟩
      · rcases waitpidScan_mem rest (some q) found with isQ | ⟨member, matched'⟩
        · obtain rfl := Option.some.inj isQ
          exact Or.inr ⟨List.mem_cons_self, matched⟩
        · exact Or.inr ⟨List.mem_cons_of_mem _ member, matched'⟩
    · rcases waitpidScan_mem rest child found with isChild | ⟨member, matched'⟩
      · exact Or.inl isChild
      · exact Or.inr ⟨List.mem_cons_of_mem _ member, matched'⟩

theorem waitpidRound_preserved (preserved : Preserved Inv conditions) {pid options : BitVec 32}
    (inv : Inv s) (cpu : HasCpu s)
    (meets : waitpidYields s pid options → conditions.yield s) :
    Inv (waitpidRound s pid options).1 := by
  rw [waitpidRound]
  split
  · rename_i child found
    obtain ⟨isChild, dead⟩ := Option.filter_eq_some_iff.mp found
    rcases waitpidScan_mem _ _ isChild with isNone | ⟨-, matched⟩
    · exact nomatch isNone
    · simp only [waitpidMatches, decide_eq_true_eq] at matched
      exact preserved.leave (preserved.free inv matched.2.1 dead)
  · rename_i noZombie
    split
    · exact preserved.leave inv
    · rename_i hangs
      exact preserved.yield _ inv cpu (meets ⟨noZombie, not_not.mp hangs⟩)

/-- The case analysis over the calls: each part of `Preserved` serves one of them. -/
theorem step (preserved : Preserved Inv conditions) {call : Call} (inv : Inv s)
    (transition : Guarded SchedStep conditions.Meets s call s') : Inv s' := by
  obtain ⟨meets, isEnabled, rfl⟩ := transition
  cases call with
  | fork inheritMask flags pcb kstack =>
    simp only [enabled, Bool.and_eq_true] at isEnabled
    refine preserved.fork inheritMask flags pcb kstack inv (hasCpu_of_inUser isEnabled.1) ?_
    rintro child rfl
    simpa using isEnabled.2
  | yield => exact preserved.yield .user inv (hasCpu_of_inUser isEnabled) meets
  | syscallYield => exact preserved.syscallYield inv (hasCpu_of_inUser isEnabled) meets
  | block => exact preserved.block inv (hasCpu_of_inUser isEnabled) meets
  | sleep ms freq =>
    have cpu := hasCpu_of_inUser isEnabled
    simp only [Conditions.Meets] at meets
    by_cases isZero : ms = 0#32
    · rw [if_pos isZero] at meets
      obtain ⟨-, c, isCurrent⟩ := id cpu
      simp only [perform, processSleep, isCurrent, if_pos isZero]
      split
      · exact inv
      · exact preserved.yield .user inv cpu meets
    · rw [if_neg isZero] at meets
      exact preserved.sleep ms freq inv cpu isZero meets
  | exit status =>
    obtain ⟨running, c, isCurrent⟩ := hasCpu_of_inUser isEnabled
    simp only [perform, processExit, isCurrent]
    exact preserved.exit (preserved.untouched (Untouched.modify rfl rfl rfl) rfl inv)
      ⟨running, c, isCurrent⟩ isCurrent
  | waitpid pid options =>
    simp only [perform, waitpid]
    split
    · rename_i hasChild
      exact preserved.waitpidRound_preserved inv (hasCpu_of_inUser isEnabled) (meets hasChild)
    · exact inv
  | terminate pid =>
    cases found : processFind s pid with
    | none =>
      simp only [perform, processTerminate, found]
      exact inv
    | some target =>
      obtain ⟨process, ready, waiters, done, terminated⟩ := processTerminate_spec found
      rw [perform, done]
      exact preserved.terminated inv (hasCpu_of_inUser isEnabled) (processFind_some found).2
        (meets target found) terminated
  | kill pid sig =>
    rcases kill_spec s pid sig with unchanged | ⟨target, found,
      ⟨fatal, notInit, process, ready, waiters, done, terminated⟩ | ⟨-, process, done, signalled⟩⟩
    · rw [perform, unchanged]
      exact inv
    · rw [perform, done]
      exact preserved.terminated inv (hasCpu_of_inUser isEnabled) (processFind_some found).2
        (meets fatal notInit target found) terminated
    · rw [perform, done]
      exact preserved.signalled inv signalled
  | wakeup p =>
    rw [enabled, decide_eq_true_eq] at isEnabled
    exact preserved.wakeup inv isEnabled meets
  | tick uptime =>
    have touched : Untouched s { s with uptime := uptime } :=
      ⟨rfl, rfl, rfl, rfl, rfl, rfl, fun _ => rfl, fun _ => rfl, fun _ => rfl⟩
    exact processTimerTick_induction (preserved.untouched touched rfl inv) preserved.tickOne
  | rescan =>
    rw [enabled, Bool.and_eq_true, Bool.not_eq_true'] at isEnabled
    have cpu := hasCpu_of_waiting isEnabled.1 isEnabled.2
    simp only [perform]
    cases waits : waiting s with
    | none => exact inv
    | some arguments =>
      obtain ⟨pid, options⟩ := arguments
      exact preserved.waitpidRound_preserved inv cpu (meets pid options waits)
  | probe => exact preserved.probe inv isEnabled

/-- By `step`, over a whole run. -/
theorem run (preserved : Preserved Inv conditions) {calls : List Call} (inv : Inv s)
    (steps : Steps (Guarded SchedStep conditions.Meets) s calls s') : Inv s' :=
  steps.invariant Inv (fun _ _ _ inv transition => preserved.step inv transition) inv

end Preserved

end M4KK1.Kernel
