import M4KK1.Kernel.ReadyQueue

/-!
# Processes and their scheduling

`kernel/process.c` and signals. A freed block keeps its contents until `fork` gets its address.
-/

namespace M4KK1.Kernel

/-- The tags of `state_tags` that the scheduler reads. -/
inductive Tag where
  | schedReady
  | schedRunning
  | schedSleeping
  | waitTimer
  | stopped
  | terminate
  | zombie
  | idle
  deriving DecidableEq

/-- The bit of a tag, from `include/process.h`. -/
def Tag.mask : Tag → BitVec 64
  | .schedReady => 0x00000001#64
  | .schedRunning => 0x00000002#64
  | .schedSleeping => 0x00000004#64
  | .waitTimer => 0x00000400#64
  | .stopped => 0x00020000#64
  | .terminate => 0x00040000#64
  | .zombie => 0x01000000#64
  | .idle => 0x02000000#64

def masks : List Tag → BitVec 64
  | [] => 0#64
  | tag :: tags => tag.mask ||| masks tags

def stateSchedMask : BitVec 64 := 0x00000007#64

def stateReserved : BitVec 64 := ~~~0x0307FF07#64

variable (word : BitVec 64)

/-- `state_tags & tag`. -/
def hasTag (tag : Tag) : Bool := word &&& tag.mask != 0#64

variable (tags : List Tag)

/-- `state_tags |= tags`. -/
def withTags : BitVec 64 := word ||| masks tags

/-- `state_tags &= ~tags`. -/
def withoutTags : BitVec 64 := word &&& ~~~masks tags

theorem hasTag_or (left right : BitVec 64) (tag : Tag) :
    hasTag (left ||| right) tag = (hasTag left tag || hasTag right tag) := by
  simp only [hasTag, BitVec.and_comm _ tag.mask, BitVec.and_or_distrib_left]
  rw [Bool.eq_iff_iff]
  simp only [bne_iff_ne, ne_eq, BitVec.or_eq_zero_iff, Bool.or_eq_true]
  exact not_and_or

theorem hasTag_mask (other tag : Tag) : hasTag other.mask tag = decide (tag = other) := by
  cases other <;> cases tag <;> decide

theorem hasTag_masks (tag : Tag) : hasTag (masks tags) tag = decide (tag ∈ tags) := by
  induction tags with
  | nil => simp [masks, hasTag]
  | cons other tags ih => simp [masks, hasTag_or, hasTag_mask, ih]

/-- Tags that are set are the old ones and the new. -/
@[simp] theorem hasTag_withTags (tag : Tag) :
    hasTag (withTags word tags) tag = (hasTag word tag || decide (tag ∈ tags)) := by
  rw [withTags, hasTag_or, hasTag_masks]

theorem hasTag_and_not_mask (other tag : Tag) :
    hasTag (word &&& ~~~other.mask) tag = (hasTag word tag && decide (tag ≠ other)) := by
  by_cases same : tag = other
  · subst same
    have nothing : ~~~tag.mask &&& tag.mask = 0#64 := by cases tag <;> rfl
    rw [hasTag, BitVec.and_assoc, nothing]
    simp
  · have apart : ~~~other.mask &&& tag.mask = tag.mask := by
      cases other <;> cases tag <;> first | rfl | exact absurd rfl same
    rw [hasTag, BitVec.and_assoc, apart]
    simp [same, hasTag]

@[simp] theorem hasTag_withoutTags (tag : Tag) :
    hasTag (withoutTags word tags) tag = (hasTag word tag && decide (tag ∉ tags)) := by
  rw [withoutTags]
  induction tags generalizing word with
  | nil =>
    rw [masks, BitVec.not_zero, BitVec.and_allOnes]
    simp
  | cons other tags ih =>
    rw [masks, BitVec.not_or, ← BitVec.and_assoc, ih, hasTag_and_not_mask]
    simp [Bool.and_assoc]

theorem hasTag_of_and {word mask : BitVec 64} {tag : Tag} (inherited : hasTag (word &&& mask) tag) :
    hasTag word tag := by
  simp only [hasTag, bne_iff_ne, ne_eq] at inherited ⊢
  intro absent
  apply inherited
  rw [BitVec.and_assoc, BitVec.and_comm mask, ← BitVec.and_assoc, absent, BitVec.zero_and]

/-- What the saved kernel context of a process returns into. -/
inductive Resume where
  | user
  | inSleep
  | inBlock
  | inWaitpid (pid options : BitVec 32)
  deriving DecidableEq

/-- `mkrn_process_t`, as far as scheduling reads it; `resume` stands for the
context at `thread_esp`. -/
structure Process where
  pid : BitVec 32
  ppid : BitVec 32
  stateTags : BitVec 64
  sleepTicks : BitVec 32
  lastResumeMs : BitVec 32
  exitStatus : BitVec 32
  pendingSignals : BitVec 32
  resume : Resume
  deriving DecidableEq

/-- A control block after `mkrn_memset`. -/
def Process.zero : Process := ⟨0, 0, 0, 0, 0, 0, 0, .user⟩

/-- `parked`: the CPU is in the last loop of `mkrn_process_exit`. -/
structure State where
  pcbs : Addr → Process
  allProcs : List Addr
  ready : ReadyQueue
  current : Option Addr
  schedulerEnabled : Bool
  timerWaiters : BitVec 32
  processCount : BitVec 32
  nextPid : BitVec 32
  uptime : BitVec 32
  parked : Bool

namespace State

/-- Write the control block at `p`. -/
def modify (s : State) (p : Addr) (change : Process → Process) : State :=
  { s with pcbs := Function.update s.pcbs p (change (s.pcbs p)) }

/-- `p->state_tags & tag`. -/
def has (s : State) (p : Addr) (tag : Tag) : Bool := hasTag (s.pcbs p).stateTags tag

/-- `p->state_tags |= tags`. -/
def setTags (s : State) (p : Addr) (tags : List Tag) : State :=
  s.modify p fun process => { process with stateTags := withTags process.stateTags tags }

/-- `p->state_tags &= ~tags`. -/
def clearTags (s : State) (p : Addr) (tags : List Tag) : State :=
  s.modify p fun process => { process with stateTags := withoutTags process.stateTags tags }

/-- `ready_enqueue(p);` with the result ignored. -/
def enqueue (s : State) (p : Addr) : State :=
  match readyEnqueue s.ready p with
  | none => s
  | some ready => { s with ready := ready }

/-- `if (u32TimerWaiters > 0) u32TimerWaiters--;` -/
def dropTimerWaiter (s : State) : State :=
  if s.timerWaiters > 0#32 then { s with timerWaiters := s.timerWaiters - 1#32 } else s

/-- `if (p->state_tags & M4K_WAIT_TIMER) …`: leave the set of timer waiters. -/
def leaveTimer (s : State) (p : Addr) : State :=
  if s.has p .waitTimer then (s.clearTags p [.waitTimer]).dropTimerWaiter else s

/-- The processes in the ready queue, the next one first. -/
def queued (s : State) : List Addr := s.ready.contents

end State

def processIsReady (s : State) (pid : BitVec 32) : Bool :=
  s.queued.any fun p => (s.pcbs p).pid = pid

def processFind (s : State) (pid : BitVec 32) : Option Addr :=
  match s.allProcs.find? fun p => (s.pcbs p).pid = pid with
  | some p => some p
  | none => s.current.filter fun p => (s.pcbs p).pid = pid

def processGetPid (s : State) : BitVec 32 :=
  match s.current with
  | none => 0
  | some c => (s.pcbs c).pid

/-- `mkrn_process_terminate`: mark for the scheduler to reap, and queue. -/
def processTerminate (s : State) (pid : BitVec 32) : State :=
  match processFind s pid with
  | none => s
  | some target =>
    let s := s.clearTags target [.schedSleeping]
    let s := s.setTags target [.terminate]
    let s := s.leaveTimer target
    let s :=
      if (s.pcbs target).stateTags &&& stateSchedMask = 0 then s.setTags target [.schedReady] else s
    if processIsReady s (s.pcbs target).pid then s else s.enqueue target

/-- `M4K_SIGABRT`, `M4K_SIGKILL`, `M4K_SIGSTOP`, `M4K_SIGCONT`, `M4K_SIGCHLD`, `M4K_NSIG`. -/
def sigabrt : Int := 1
def sigkill : Int := 2
def sigstop : Int := 4
def sigcont : Int := 5
def sigchld : Int := 7
def nsig : Int := 11

def signalIsFatal (sig : Int) : Bool := sig = sigkill ∨ sig = sigabrt

def signalIsStop (sig : Int) : Bool := sig = sigstop

def signalIsCont (sig : Int) : Bool := sig = sigcont

def signalDeliver (s : State) (proc : Addr) (sig : Int) : State :=
  if sig ≤ 0 ∨ sig ≥ nsig then s
  else if (s.pcbs proc).pid = 1 ∧ sig = sigkill then s
  else
    let s := s.modify proc fun process =>
      { process with pendingSignals := process.pendingSignals ||| 1#32 <<< sig.toNat }
    if signalIsFatal sig then
      let s := s.modify proc fun process => { process with exitStatus := BitVec.ofInt 32 sig }
      processTerminate s (s.pcbs proc).pid
    else if signalIsStop sig then (s.setTags proc [.stopped]).clearTags proc [.schedReady]
    else if signalIsCont sig then
      let s := s.clearTags proc [.stopped]
      if (s.pcbs proc).stateTags &&& stateSchedMask = 0 then s.setTags proc [.schedReady] else s
    else s

/-- `mkrn_kill`, with the value it returns. -/
def kill (s : State) (pid : BitVec 32) (sig : Int) : State × Int :=
  if sig ≤ 0 ∨ sig ≥ nsig then (s, -1)
  else
    match processFind s pid with
    | none => (s, -1)
    | some target =>
      if pid = 1 ∧ sig = sigkill then (s, 0) else (signalDeliver s target sig, 0)

def processReparentChildren (s : State) (parent : Addr) : State :=
  s.allProcs.foldl (fun s p =>
    if (s.pcbs p).ppid = (s.pcbs parent).pid ∧ p ≠ parent then
      s.modify p fun process => { process with ppid := 1 }
    else s) s

/-- `mkrn_process_reap`: `p` becomes a zombie. -/
def processReap (s : State) (p : Addr) : State :=
  let s := s.clearTags p [.schedRunning, .schedReady, .schedSleeping, .stopped, .terminate]
  let s := s.setTags p [.zombie]
  let s := { s with ready := readyRemove s.ready p }
  let s :=
    match processFind s (s.pcbs p).ppid with
    | none => s
    | some _ => (kill s (s.pcbs p).ppid sigchld).1
  let s := { s with processCount := s.processCount - 1#32 }
  processReparentChildren s p

/-- The loop of `mkrn_process_dequeue_live`; every round shortens the queue. -/
def dequeueLiveLoop : Nat → State → State × Option Addr
  | 0, s => (s, none)
  | fuel + 1, s =>
    match readyDequeue s.ready with
    | none => (s, none)
    | some (p, ready) =>
      let s := { s with ready := ready }
      if s.has p .terminate then dequeueLiveLoop fuel (processReap s p) else (s, some p)

def processDequeueLive (s : State) : State × Option Addr := dequeueLiveLoop (s.ready.count + 1) s

/-- Make `next` the running process. -/
def switchTo (s : State) (next : Addr) : State :=
  let s := { s with current := some next }
  let s := s.clearTags next [.schedReady, .schedSleeping]
  s.setTags next [.schedRunning]

/-- What a process does first when it becomes current. -/
def resumeCurrent (s : State) : State :=
  match s.current with
  | none => s
  | some c =>
    match (s.pcbs c).resume with
    | .inSleep =>
      (s.clearTags c [.waitTimer]).modify c fun process => { process with resume := .user }
    | .inBlock => s.modify c fun process => { process with resume := .user }
    | _ => s

/-- The loop of `mkrn_process_switch_pick`; `scanned` bounds the rounds. -/
def switchPickLoop : Nat → State → Nat → State × Option Addr
  | 0, s, _ => (s, none)
  | fuel + 1, s, scanned =>
    if scanned < s.ready.count + 1 then
      match readyDequeue s.ready with
      | none => (s, none)
      | some (cand, ready) =>
        let s := { s with ready := ready }
        if s.has cand .terminate then switchPickLoop fuel (processReap s cand) scanned
        else if !s.has cand .stopped && s.has cand .schedReady then (s, some cand)
        else switchPickLoop fuel (s.enqueue cand) (scanned + 1)
    else (s, none)

/-- Who yields goes to the end of the queue, if there is room. -/
def requeueRunning (s : State) (c : Addr) : State :=
  if s.has c .schedRunning then
    let s := s.clearTags c [.schedRunning]
    let s := s.setTags c [.schedReady]
    s.enqueue c
  else s

/-- `mkrn_process_switch_pick`, called from `point`. -/
def processSwitchPick (s : State) (point : Resume) : State × Option Addr :=
  if s.schedulerEnabled = false then (s, none)
  else
    match s.current with
    | none => (s, none)
    | some c =>
      let s := s.modify c fun process => { process with resume := point }
      let s := requeueRunning s c
      match switchPickLoop (s.ready.count + 1) s 0 with
      | (s, none) => (s, none)
      | (s, some next) =>
        let s := switchTo s next
        (s.modify next fun process => { process with lastResumeMs := s.uptime }, some next)

/-- `mkrn_process_yield`, called from `point`. -/
def processYield (s : State) (point : Resume) : State :=
  resumeCurrent (processSwitchPick s point).1

/-- `mkrn_process_syscall_yield` gives the CPU up after `SYSCALL_YIELD_QUANTUM_MS`. -/
def quantumElapsed (s : State) (c : Addr) : Bool :=
  let last := if (s.pcbs c).lastResumeMs = 0 then s.uptime else (s.pcbs c).lastResumeMs
  ¬ s.uptime - last < 1#32

def processSyscallYield (s : State) : State :=
  if s.schedulerEnabled = false then s
  else
    match s.current with
    | none => s
    | some c =>
      let elapsed := quantumElapsed s c
      let s :=
        if (s.pcbs c).lastResumeMs = 0 then
          s.modify c fun process => { process with lastResumeMs := s.uptime }
        else s
      if elapsed then
        processYield (s.modify c fun process => { process with lastResumeMs := s.uptime }) .user
      else s

def processBlock (s : State) : State :=
  match s.current with
  | none => s
  | some c =>
    let s := s.clearTags c [.schedRunning]
    let s := s.setTags c [.schedSleeping]
    processYield s .inBlock

def processWakeup (s : State) (p : Addr) : State :=
  if s.has p .schedSleeping then
    let s := s.leaveTimer p
    let s := s.clearTags p [.schedSleeping]
    let s := s.setTags p [.schedReady]
    match readyEnqueue s.ready p with
    | some ready => { s with ready := ready }
    | none =>
      let s := s.clearTags p [.schedReady]
      s.setTags p [.schedSleeping]
  else s

/-- The ticks for which `mkrn_process_sleep` parks its caller. -/
def sleepTicksFor (ms freq : BitVec 32) : BitVec 32 :=
  let ms := if ms > 10000#32 then 10000#32 else ms
  let freq := if freq = 0#32 then 1000#32 else freq
  let q := ms / 1000#32
  let r := ms % 1000#32
  let ticks := q * freq + (r * freq + 500#32) / 1000#32
  if ticks = 0#32 then 1#32 else ticks

/-- `mkrn_process_sleep`; `freq` is what `mkrn_timer_get_frequency` returns. -/
def processSleep (s : State) (ms freq : BitVec 32) : State :=
  match s.current with
  | none => s
  | some c =>
    if s.schedulerEnabled = false then s
    else if ms = 0#32 then processYield s .user
    else
      let s := s.modify c fun process => { process with sleepTicks := sleepTicksFor ms freq }
      let s := s.clearTags c [.schedRunning]
      let s := s.setTags c [.schedSleeping, .waitTimer]
      let s := { s with timerWaiters := s.timerWaiters + 1#32 }
      processYield s .inSleep

/-- One process in the walk of `mkrn_process_timer_tick`. -/
def timerTickOne (s : State) (p : Addr) : State :=
  if s.has p .schedSleeping ∧ s.has p .waitTimer ∧ (s.pcbs p).sleepTicks ≠ 0 then
    let s := s.modify p fun process => { process with sleepTicks := process.sleepTicks - 1#32 }
    if (s.pcbs p).sleepTicks = 0 then
      let s := processWakeup s p
      if s.has p .schedSleeping then
        let s := s.modify p fun process => { process with sleepTicks := 1#32 }
        let s := s.setTags p [.waitTimer]
        { s with timerWaiters := s.timerWaiters + 1#32 }
      else s
    else s
  else s

def processTimerTick (s : State) : State :=
  if s.schedulerEnabled = false then s
  else if s.timerWaiters = 0 then s
  else s.allProcs.foldl timerTickOne s

def handOver (s : State) : State :=
  match processDequeueLive s with
  | (s, some next) => resumeCurrent { switchTo s next with parked := false }
  | (s, none) => { s with parked := true }

def processExit (s : State) (status : BitVec 32) : State :=
  match s.current with
  | none => s
  | some c =>
    let s := s.modify c fun process => { process with exitStatus := status }
    handOver (processReap s c)

def rfproc : BitVec 32 := 0x0001#32

/-- The tags that a child gets from its parent; without a scheduling class among
them it is ready. -/
def inheritedTags (parentTags inheritMask : BitVec 64) : BitVec 64 :=
  let inherited := parentTags &&& inheritMask
  if inherited &&& stateSchedMask = 0 then withTags inherited [.schedReady] else inherited

/-- `mkrn_fork_status` from the child's control block on. -/
def forkChild (s : State) (inheritMask : BitVec 64) (parent child : Addr) (kstack : Bool) :
    State × BitVec 32 :=
  let pid := s.nextPid
  let s := { s.modify child fun _ => { Process.zero with pid := pid } with nextPid := pid + 1#32 }
  let tags := inheritedTags (s.pcbs parent).stateTags inheritMask
  let s := s.modify child fun process =>
    { process with ppid := (s.pcbs parent).pid, stateTags := tags }
  if kstack = false then (s, -1)
  else
    let s := { s with processCount := s.processCount + 1#32, allProcs := child :: s.allProcs }
    if s.ready.count ≥ readyQueueSize then
      -- The queue is full: the fork is undone.
      ({ s with allProcs := s.allProcs.erase child, processCount := s.processCount - 1#32 }, -1)
    else (s.enqueue child, pid)

/-- `mkrn_fork_status` with the pid; `kstack`: the kernel stack could be allocated. -/
def forkStatus (s : State) (inheritMask : BitVec 64) (flags : BitVec 32) (pcb : Option Addr)
    (kstack : Bool) : State × BitVec 32 :=
  if flags &&& rfproc = 0 then (s, -1)
  else if inheritMask &&& (Tag.zombie.mask ||| Tag.idle.mask ||| stateReserved) ≠ 0 then (s, -1)
  else
    match s.current with
    | none => (s, -1)
    | some parent =>
      match pcb with
      | none => (s, -1)
      | some child => forkChild s inheritMask parent child kstack

/-- `p` is a child of the current process that `waitpid(pid, …)` waits for. -/
def waitpidMatches (s : State) (pid : BitVec 32) (p : Addr) : Bool :=
  (s.pcbs p).ppid = processGetPid s ∧ s.current ≠ some p ∧ (pid = -1 ∨ pid = (s.pcbs p).pid)

/-- The first zombie among the matching children, else the last matching child. -/
def waitpidScan (s : State) (pid : BitVec 32) : List Addr → Option Addr → Option Addr
  | [], child => child
  | p :: rest, child =>
    if waitpidMatches s pid p then
      if s.has p .zombie then some p else waitpidScan s pid rest (some p)
    else waitpidScan s pid rest child

/-- The zombie that a round of `mkrn_waitpid` harvests. -/
def waitpidZombie (s : State) (pid : BitVec 32) : Option Addr :=
  (waitpidScan s pid s.allProcs none).filter fun child => s.has child .zombie

def wnohang : BitVec 32 := 1#32

/-- `proc_free_zombie`: take the control block out of the registry and free it. -/
def procFreeZombie (s : State) (p : Addr) : State := { s with allProcs := s.allProcs.erase p }

/-- The status word that `mkrn_waitpid` stores. -/
def waitStatus (exitStatus : BitVec 32) : BitVec 32 :=
  if exitStatus < 11#32 then exitStatus else (exitStatus &&& 0xFF#32) <<< 8

/-- Return from `mkrn_waitpid`. -/
def leaveWaitpid (s : State) : State :=
  match s.current with
  | none => s
  | some c => s.modify c fun process => { process with resume := .user }

/-- `mkrn_waitpid` has yielded, to scan again, or returned with the status stored. -/
inductive WaitOutcome where
  | again
  | returned (pid : BitVec 32) (status : Option (BitVec 32))
  deriving DecidableEq

/-- One round of the loop of `mkrn_waitpid`. -/
def waitpidRound (s : State) (pid options : BitVec 32) : State × WaitOutcome :=
  match waitpidZombie s pid with
  | some child =>
    (leaveWaitpid (procFreeZombie s child),
      .returned (s.pcbs child).pid (some (waitStatus (s.pcbs child).exitStatus)))
  | none =>
    if options &&& wnohang ≠ 0 then (leaveWaitpid s, .returned 0 none)
    else (processYield s (.inWaitpid pid options), .again)

/-- `mkrn_waitpid` up to its first yield. -/
def waitpid (s : State) (pid options : BitVec 32) : State × WaitOutcome :=
  if s.allProcs.any (waitpidMatches s pid) then waitpidRound s pid options
  else (s, .returned (-1) none)

/-- The idle process runs and nothing is queued. -/
def boot (idle : Addr) : State where
  pcbs := Function.update (fun _ => Process.zero) idle
    { Process.zero with pid := 1, stateTags := Tag.schedRunning.mask }
  allProcs := [idle]
  ready := ReadyQueue.empty
  current := some idle
  schedulerEnabled := true
  timerWaiters := 0
  processCount := 1
  nextPid := 2
  uptime := 0
  parked := false

end M4KK1.Kernel
