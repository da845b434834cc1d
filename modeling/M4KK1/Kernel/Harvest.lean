import M4KK1.Kernel.Runs

/-!
# What waitpid harvests

`mkrn_waitpid` looks through `all_procs`. A control block may be used again, counted by `born`.
-/

namespace M4KK1.Kernel

open M4KK1.Lib Function List

variable {s s' : State} {p c : Addr}

theorem resumeCurrent_allProcs (s : State) : (resumeCurrent s).allProcs = s.allProcs := by
  rw [resumeCurrent]
  split
  · rfl
  · split <;> rfl

theorem Picked.allProcs {result : State} (picked : Picked s result) :
    result.allProcs = s.allProcs := by
  obtain ⟨s', next, scan, ⟨-, rfl, -⟩ | ⟨chosen, switched, -, -, same, rfl, -⟩⟩ := picked
  · exact (resumeCurrent_allProcs s').trans scan.reaps.allProcs
  · have goesOn : switched.allProcs = s'.allProcs := same.allProcs
    exact (resumeCurrent_allProcs switched).trans (goesOn.trans scan.reaps.allProcs)

theorem processYield_allProcs (s : State) (point : Resume) :
    (processYield s point).allProcs = s.allProcs := by
  cases isEnabled : s.schedulerEnabled with
  | false =>
    rw [processYield, processSwitchPick, if_pos isEnabled]
    exact resumeCurrent_allProcs s
  | true =>
    cases isCurrent : s.current with
    | none =>
      have stays : processSwitchPick s point = (s, none) := by
        rw [processSwitchPick, if_neg (by rw [isEnabled]; decide)]
        simp only [isCurrent]
      rw [processYield, stays]
      exact resumeCurrent_allProcs s
    | some c =>
      have suspended : (suspend s c point).allProcs = s.allProcs := by
        obtain ⟨word, ready, isSuspended, -⟩ := suspend_spec s c point
        rw [isSuspended]
        rfl
      exact (processYield_picked isEnabled isCurrent).allProcs.trans suspended

theorem processSyscallYield_allProcs (s : State) :
    (processSyscallYield s).allProcs = s.allProcs := by
  rw [processSyscallYield]
  split
  · rfl
  · split
    · rfl
    · dsimp only
      split
      · rw [processYield_allProcs]
        split <;> rfl
      · split <;> rfl

theorem processBlock_allProcs (s : State) : (processBlock s).allProcs = s.allProcs := by
  rw [processBlock]
  split
  · rfl
  · exact processYield_allProcs _ _

theorem processSleep_allProcs (s : State) (ms freq : BitVec 32) :
    (processSleep s ms freq).allProcs = s.allProcs := by
  rw [processSleep]
  split
  · rfl
  · split
    · rfl
    · split
      · exact processYield_allProcs _ _
      · exact processYield_allProcs _ _

theorem processWakeup_allProcs (s : State) (p : Addr) :
    (processWakeup s p).allProcs = s.allProcs := by
  by_cases asleep : s.has p .schedSleeping = true
  · obtain ⟨word, ready, waiters, done, -⟩ := processWakeup_spec asleep
    rw [done]
    rfl
  · rw [processWakeup, if_neg asleep]

theorem processTimerTick_allProcs (s : State) : (processTimerTick s).allProcs = s.allProcs :=
  @processTimerTick_induction s (fun t => t.allProcs = s.allProcs) rfl
    fun same _ => (timerTickOne_allProcs _ _).trans same

theorem processTerminate_allProcs (s : State) (pid : BitVec 32) :
    (processTerminate s pid).allProcs = s.allProcs := by
  cases found : processFind s pid with
  | none => simp only [processTerminate, found]
  | some target =>
    obtain ⟨process, ready, waiters, done, -⟩ := processTerminate_spec found
    rw [done]
    rfl

theorem kill_allProcs (s : State) (pid : BitVec 32) (sig : Int) :
    (kill s pid sig).1.allProcs = s.allProcs := by
  rcases kill_spec s pid sig with unchanged | ⟨target, -,
    ⟨-, -, process, ready, waiters, done, -⟩ | ⟨-, process, done, -⟩⟩
  · rw [unchanged]
  · rw [done]
    rfl
  · rw [done]
    rfl

theorem handOver_allProcs (s : State) : (handOver s).allProcs = s.allProcs := by
  have scan : Scan s (processDequeueLive s).1 (processDequeueLive s).2 := dequeueLiveLoop_scan _ s
  rw [handOver]
  revert scan
  obtain ⟨s', next⟩ := processDequeueLive s
  intro scan
  cases next with
  | none => exact scan.reaps.allProcs
  | some n => exact (resumeCurrent_allProcs _).trans scan.reaps.allProcs

theorem processExit_allProcs (s : State) (status : BitVec 32) :
    (processExit s status).allProcs = s.allProcs := by
  rw [processExit]
  split
  · rfl
  · rw [handOver_allProcs, (processReap_spec _ _).1.allProcs]
    rfl

theorem leaveWaitpid_allProcs (s : State) : (leaveWaitpid s).allProcs = s.allProcs := by
  rw [leaveWaitpid]
  split <;> rfl

theorem forkStatus_allProcs (s : State) (inheritMask : BitVec 64) (flags : BitVec 32)
    (pcb : Option Addr) (kstack : Bool) :
    (forkStatus s inheritMask flags pcb kstack).1.allProcs = s.allProcs ∨ ∃ child,
    pcb = some child ∧
        (forkStatus s inheritMask flags pcb kstack).1.allProcs = child :: s.allProcs := by
  rcases forkStatus_cases s inheritMask flags pcb kstack with
    unchanged | ⟨child, parent, isPcb, -, allowed, isFork⟩
  · rw [unchanged]
    exact .inl rfl
  · obtain ⟨process, -, -, -, ⟨same, -⟩ | ⟨ready, -, -, same, -⟩⟩ :=
      forkChild_spec s parent child kstack allowed
    · exact .inl (isFork ▸ same.allProcs)
    · exact .inr ⟨child, isPcb, isFork ▸ same.allProcs⟩

/-- `p` is a child of `c`. -/
def IsChild (s : State) (c p : Addr) : Prop :=
  p ∈ s.allProcs ∧ p ≠ c ∧ (s.pcbs p).ppid = (s.pcbs c).pid

/-- The request `waitpid(pid, …)` of `c` is about `p`, and `p` is a zombie. -/
structure Awaited (s : State) (c : Addr) (pid : BitVec 32) (p : Addr) : Prop where
  child : IsChild s c p
  named : pid = -1 ∨ pid = (s.pcbs p).pid
  zombie : s.has p .zombie = true

/-- A round returns the pid and the status of `p`, whose block is freed, and no other. -/
structure Harvested (s s' : State) (c : Addr) (pid : BitVec 32) (outcome : WaitOutcome) (p : Addr) :
    Prop where
  awaited : Awaited s c pid p
  returned : outcome = .returned (s.pcbs p).pid (some (waitStatus (s.pcbs p).exitStatus))
  freed : ∀ q, q ∈ s'.allProcs ↔ q ∈ s.allProcs ∧ q ≠ p
  kept : ∀ q, q ≠ c → s'.pcbs q = s.pcbs q

/-- A round that does not return with a process frees none: it waits on, or it returns 0 or -1. -/
structure Empty (s s' : State) (outcome : WaitOutcome) : Prop where
  returned : outcome = .again ∨ outcome = .returned 0 none ∨ outcome = .returned (-1) none
  kept : s'.allProcs = s.allProcs

/-- What a round should do. -/
structure Answers (s s' : State) (c : Addr) (pid : BitVec 32) (outcome : WaitOutcome) : Prop where
  found : (∃ p, Awaited s c pid p) → ∃ p, Harvested s s' c pid outcome p
  only : (∃ p, Harvested s s' c pid outcome p) ∨ Empty s s' outcome

section Round

variable {pid options : BitVec 32}

theorem waitpidMatches_iff (isCurrent : s.current = some c) (p : Addr) :
    waitpidMatches s pid p = true ↔
      (s.pcbs p).ppid = (s.pcbs c).pid ∧ p ≠ c ∧ (pid = -1 ∨ pid = (s.pcbs p).pid) := by
  simp only [waitpidMatches, processGetPid, isCurrent, decide_eq_true_eq, ne_eq, Option.some.injEq]
  rw [eq_comm (a := c)]

theorem waitpidScan_finds (procs : List Addr) : ∀ child : Option Addr,
    (∃ p ∈ procs, waitpidMatches s pid p = true ∧ s.has p .zombie = true) →
      ∃ p, waitpidScan s pid procs child = some p ∧ s.has p .zombie = true := by
  induction procs with
  | nil =>
    rintro child ⟨p, member, -⟩
    exact absurd member not_mem_nil
  | cons q rest ih =>
    rintro child ⟨p, member, matched, dead⟩
    rw [waitpidScan]
    by_cases isDead : waitpidMatches s pid q = true ∧ s.has q .zombie = true
    · rw [if_pos isDead.1, if_pos isDead.2]
      exact ⟨q, rfl, isDead.2⟩
    · have inRest : p ∈ rest := by
        rcases mem_cons.mp member with rfl | inRest
        · exact absurd ⟨matched, dead⟩ isDead
        · exact inRest
      split
      · rw [if_neg fun isZombie => isDead ⟨‹_›, isZombie⟩]
        exact ih (some q) ⟨p, inRest, matched, dead⟩
      · exact ih child ⟨p, inRest, matched, dead⟩

section

variable (isCurrent : s.current = some c)

include isCurrent

theorem waitpidZombie_awaited (found : waitpidZombie s pid = some p) : Awaited s c pid p := by
  obtain ⟨isChild, dead⟩ := Option.filter_eq_some_iff.mp found
  rcases Preserved.waitpidScan_mem _ _ isChild with isNone | ⟨member, matched⟩
  · exact nomatch isNone
  · obtain ⟨isParent, apart, named⟩ := (waitpidMatches_iff isCurrent p).mp matched
    exact ⟨⟨member, apart, isParent⟩, named, dead⟩

theorem waitpidZombie_finds (awaited : Awaited s c pid p) : ∃ q, waitpidZombie s pid = some q := by
  obtain ⟨⟨member, apart, isParent⟩, named, dead⟩ := awaited
  have matched := (waitpidMatches_iff isCurrent p).mpr ⟨isParent, apart, named⟩
  obtain ⟨q, isFound, isDead⟩ := waitpidScan_finds s.allProcs none ⟨p, member, matched, dead⟩
  exact ⟨q, Option.filter_eq_some_iff.mpr ⟨isFound, isDead⟩⟩

theorem harvested (distinct : s.allProcs.Nodup) (found : waitpidZombie s pid = some p) :
    Harvested s (leaveWaitpid (procFreeZombie s p)) c pid
      (.returned (s.pcbs p).pid (some (waitStatus (s.pcbs p).exitStatus))) p := by
  refine ⟨waitpidZombie_awaited isCurrent found, rfl, ?_, ?_⟩
  · intro q
    rw [leaveWaitpid_allProcs, procFreeZombie, distinct.mem_erase_iff, and_comm]
  · intro q apart
    have stays : (procFreeZombie s p).current = some c := isCurrent
    simp only [leaveWaitpid, stays]
    exact State.pcbs_modify_of_ne _ _ apart

theorem waitpidRound_answers (distinct : s.allProcs.Nodup) :
    Answers s (waitpidRound s pid options).1 c pid (waitpidRound s pid options).2 := by
  rw [waitpidRound]
  split
  · rename_i p found
    have done := harvested isCurrent distinct found
    exact ⟨fun _ => ⟨p, done⟩, .inl ⟨p, done⟩⟩
  · rename_i nobody
    have alone : ¬ ∃ p, Awaited s c pid p := by
      rintro ⟨p, awaited⟩
      obtain ⟨q, found⟩ := waitpidZombie_finds isCurrent awaited
      cases nobody.symm.trans found
    split
    · exact ⟨fun some => absurd some alone, .inr ⟨.inr (.inl rfl), leaveWaitpid_allProcs s⟩⟩
    · exact ⟨fun some => absurd some alone, .inr ⟨.inl rfl, processYield_allProcs s _⟩⟩

theorem waitpid_answers (distinct : s.allProcs.Nodup) :
    Answers s (waitpid s pid options).1 c pid (waitpid s pid options).2 := by
  rw [waitpid]
  split
  · exact waitpidRound_answers isCurrent distinct
  · rename_i childless
    refine ⟨?_, .inr ⟨.inr (.inr rfl), rfl⟩⟩
    rintro ⟨p, ⟨member, apart, isParent⟩, named, -⟩
    have matched := (waitpidMatches_iff isCurrent p).mpr ⟨isParent, apart, named⟩
    exact absurd (any_eq_true.mpr ⟨p, member, matched⟩) childless

end

end Round

def waitOutcome (s : State) : Call → Option (BitVec 32 × WaitOutcome)
  | .waitpid pid options => some (pid, (waitpid s pid options).2)
  | .rescan => (waiting s).map fun request => (request.1, (waitpidRound s request.1 request.2).2)
  | _ => none

/-- The kernel, with how often `fork` was given each block, and the processes gone. -/
structure Ledger where
  state : State
  born : Addr → Nat
  gone : List (Addr × Nat)

/-- The count of the blocks that were given, after a call. -/
def bornAfter (born : Addr → Nat) : Call → Addr → Nat
  | .fork _ _ (some child) _ => update born child (born child + 1)
  | _ => born

/-- The control blocks that went from the registry. -/
def removed (s s' : State) : List Addr := s.allProcs.filter (· ∉ s'.allProcs)

structure LedgerStep (ledger : Ledger) (call : Call) (next : Ledger) : Prop where
  step : SchedStep ledger.state call next.state
  born : next.born = bornAfter ledger.born call
  gone :
      next.gone = (removed ledger.state next.state).map (fun p => (p, ledger.born p)) ++ ledger.gone

/-- The first switch. -/
def ledgerBoot (idle : Addr) : Ledger := ⟨boot idle, fun _ => 0, []⟩

inductive RegistryStep (s : State) (call : Call) (s' : State) : Prop where
  | register (inheritMask : BitVec 64) (flags : BitVec 32) (child : Addr) (kstack : Bool)
      (isFork : call = .fork inheritMask flags (some child) kstack) (fresh : child ∉ s.allProcs)
      (procs : s'.allProcs = child :: s.allProcs)
  | harvest (p : Addr) (waits : (waitOutcome s call).isSome) (member : p ∈ s.allProcs)
      (procs : s'.allProcs = s.allProcs.erase p)
  | keep (procs : s'.allProcs = s.allProcs)

theorem waitpidRound_registry (s : State) (pid options : BitVec 32) :
    (∃ p ∈ s.allProcs, (waitpidRound s pid options).1.allProcs = s.allProcs.erase p) ∨
      (waitpidRound s pid options).1.allProcs = s.allProcs := by
  rw [waitpidRound]
  split
  · rename_i p found
    obtain ⟨isChild, -⟩ := Option.filter_eq_some_iff.mp found
    rcases Preserved.waitpidScan_mem _ _ isChild with isNone | ⟨member, -⟩
    · cases isNone
    · exact .inl ⟨p, member, leaveWaitpid_allProcs _⟩
  · split
    · exact .inr (leaveWaitpid_allProcs s)
    · exact .inr (processYield_allProcs s _)

theorem registry_step {call : Call} (transition : SchedStep s call s') :
    RegistryStep s call s' := by
  obtain ⟨isEnabled, rfl⟩ := transition
  cases call with
  | fork inheritMask flags pcb kstack =>
    rcases forkStatus_allProcs s inheritMask flags pcb kstack with same | ⟨child, rfl, more⟩
    · exact .keep same
    · simp only [enabled, Bool.and_eq_true, Option.all_some, decide_eq_true_eq] at isEnabled
      exact .register inheritMask flags child kstack rfl isEnabled.2 more
  | yield => exact .keep (processYield_allProcs s .user)
  | syscallYield => exact .keep (processSyscallYield_allProcs s)
  | block => exact .keep (processBlock_allProcs s)
  | sleep ms freq => exact .keep (processSleep_allProcs s ms freq)
  | exit status => exact .keep (processExit_allProcs s status)
  | waitpid pid options =>
    by_cases hasChild : s.allProcs.any (waitpidMatches s pid) = true
    · have isRound : perform s (.waitpid pid options) = (waitpidRound s pid options).1 := by
        rw [perform, waitpid, if_pos hasChild]
      rcases waitpidRound_registry s pid options with ⟨p, member, procs⟩ | same
      · exact .harvest p rfl member (isRound ▸ procs)
      · exact .keep (isRound ▸ same)
    · refine .keep ?_
      rw [perform, waitpid, if_neg hasChild]
  | terminate pid => exact .keep (processTerminate_allProcs s pid)
  | kill pid sig => exact .keep (kill_allProcs s pid sig)
  | wakeup p => exact .keep (processWakeup_allProcs s p)
  | tick uptime => exact .keep (processTimerTick_allProcs { s with uptime := uptime })
  | rescan =>
    cases waits : waiting s with
    | none =>
      refine .keep ?_
      simp only [perform, waits]
    | some request =>
      obtain ⟨pid, options⟩ := request
      have isRound : perform s .rescan = (waitpidRound s pid options).1 := by
        simp only [perform, waits]
      rcases waitpidRound_registry s pid options with ⟨p, member, procs⟩ | same
      · exact .harvest p (by rw [waitOutcome, waits]; rfl) member (isRound ▸ procs)
      · exact .keep (isRound ▸ same)
  | probe => exact .keep (handOver_allProcs s)

/-- A process that is gone is not registered, as long as its block is not given again. -/
structure Ledger.Sound (ledger : Ledger) : Prop where
  procs : ledger.state.allProcs.Nodup
  gone : ledger.gone.Nodup
  past : ∀ process ∈ ledger.gone, process.2 ≤ ledger.born process.1
  absent : ∀ process ∈ ledger.gone, process.2 = ledger.born process.1 →
    process.1 ∉ ledger.state.allProcs

theorem removed_eq_nil (kept : ∀ p ∈ s.allProcs, p ∈ s'.allProcs) : removed s s' = [] := by
  rw [removed, filter_eq_nil_iff]
  intro p member
  simpa using kept p member

theorem removed_erase (distinct : s.allProcs.Nodup) (member : p ∈ s.allProcs)
    (procs : s'.allProcs = s.allProcs.erase p) : removed s s' = [p] := by
  have only : ∀ q ∈ s.allProcs, (decide (q ∉ s'.allProcs)) = (q == p) := by
    intro q isMember
    rw [Bool.eq_iff_iff, beq_iff_eq, decide_eq_true_eq, procs, distinct.mem_erase_iff]
    constructor
    · intro absent
      by_contra other
      exact absent ⟨other, isMember⟩
    · rintro rfl ⟨other, -⟩
      exact other rfl
  rw [removed, filter_congr only, filter_beq, distinct.count, if_pos member]
  rfl

theorem born_le_bornAfter (born : Addr → Nat) (call : Call) (p : Addr) :
    born p ≤ bornAfter born call p := by
  unfold bornAfter
  split
  · next child _ =>
    by_cases isChild : p = child
    · rw [isChild, update_self]
      exact Nat.le_succ _
    · exact Nat.le_of_eq (update_of_ne isChild _ _).symm
  · exact Nat.le_refl _

theorem Ledger.Sound.step {ledger next : Ledger} {call : Call} (sound : ledger.Sound)
    (transition : LedgerStep ledger call next) : next.Sound := by
  obtain ⟨step, isBorn, isGone⟩ := transition
  obtain ⟨procs, distinct, past, absent⟩ := sound
  have later : ∀ process ∈ ledger.gone, process.2 ≤ next.born process.1 := by
    intro process member
    rw [isBorn]
    exact Nat.le_trans (past process member) (born_le_bornAfter _ _ _)
  -- a process of the past whose block was not given again since
  have unchanged : ∀ process ∈ ledger.gone, process.2 = next.born process.1 →
      process.2 = ledger.born process.1 := by
    intro process member same
    have atMost := born_le_bornAfter ledger.born call process.1
    have before := past process member
    rw [isBorn] at same
    omega
  cases registry_step step with
  | register inheritMask flags child kstack isFork fresh more =>
    rw [removed_eq_nil (by rw [more]; exact fun p member => mem_cons_of_mem _ member),
      map_nil, nil_append] at isGone
    rw [← isGone] at distinct later unchanged
    refine ⟨more ▸ nodup_cons.mpr ⟨fresh, procs⟩, distinct, later, ?_⟩
    intro process member same
    rw [more, mem_cons, not_or]
    refine ⟨?_, absent process (isGone ▸ member) (unchanged process member same)⟩
    rintro rfl
    have before := past process (isGone ▸ member)
    rw [isBorn, isFork, bornAfter, update_self] at same
    omega
  | harvest p waits member fewer =>
    rw [removed_erase procs member fewer] at isGone
    have sameBorn : next.born = ledger.born := by
      rw [isBorn]
      cases call with
      | fork => exact nomatch waits
      | _ => rfl
    have fresh : (p, ledger.born p) ∉ ledger.gone := fun isPast => absent _ isPast rfl member
    refine ⟨fewer ▸ procs.erase p, ?_, ?_, ?_⟩
    · rw [isGone]
      exact nodup_cons.mpr ⟨fresh, distinct⟩
    · rw [isGone]
      intro process isProcess
      rcases mem_cons.mp isProcess with rfl | old
      · exact Nat.le_of_eq (congrFun sameBorn p).symm
      · exact later process old
    · rw [isGone, fewer, sameBorn]
      intro process isProcess same
      rw [procs.mem_erase_iff]
      rcases mem_cons.mp isProcess with rfl | old
      · exact fun still => still.1 rfl
      · exact fun still => absent process old same still.2
  | keep same =>
    rw [removed_eq_nil (by rw [same]; exact fun p member => member), map_nil, nil_append] at isGone
    rw [← isGone] at distinct later unchanged
    refine ⟨same ▸ procs, distinct, later, ?_⟩
    intro process member isLast
    rw [same]
    exact absent process (isGone ▸ member) (unchanged process member isLast)

theorem ledgerBoot_sound (idle : Addr) : (ledgerBoot idle).Sound := by
  refine ⟨nodup_cons.mpr ⟨not_mem_nil, nodup_nil⟩, nodup_nil, ?_, ?_⟩
  · exact fun _ member => absurd member not_mem_nil
  · exact fun _ member => absurd member not_mem_nil

/-- Each round of `waitpid` harvests a zombie child that is asked for, if there is one, and no
process goes twice. -/
theorem waitpid_harvests {idle : Addr} {calls : List Call} {ledger : Ledger}
    (run : Steps LedgerStep (ledgerBoot idle) calls ledger) :
    ledger.gone.Nodup ∧ ∀ call s', SchedStep ledger.state call s' →
      (∀ c pid outcome, ledger.state.current = some c →
        waitOutcome ledger.state call = some (pid, outcome) →
        Answers ledger.state s' c pid outcome) ∧
      (waitOutcome ledger.state call = none → removed ledger.state s' = []) := by
  have sound : ledger.Sound :=
    run.invariant Ledger.Sound (fun _ _ _ sound transition => sound.step transition)
      (ledgerBoot_sound idle)
  refine ⟨sound.gone, fun call s' transition => ⟨?_, ?_⟩⟩
  · intro c pid outcome isCurrent waits
    obtain ⟨-, rfl⟩ := transition
    cases call with
    | waitpid pid' options =>
      obtain ⟨rfl, rfl⟩ := Prod.mk.inj (Option.some.inj waits)
      exact waitpid_answers isCurrent sound.procs
    | rescan =>
      obtain ⟨⟨pid', options⟩, isRequest, isOutcome⟩ := Option.map_eq_some_iff.mp waits
      obtain ⟨rfl, rfl⟩ := Prod.mk.inj isOutcome
      have isRound : perform ledger.state .rescan = (waitpidRound ledger.state pid' options).1 := by
        simp only [perform, isRequest]
      rw [isRound]
      exact waitpidRound_answers isCurrent sound.procs
    | _ => cases waits
  · intro elsewhere
    cases registry_step transition with
    | register _ _ _ _ _ _ more =>
      exact removed_eq_nil (by rw [more]; exact fun p member => mem_cons_of_mem _ member)
    | harvest p waits =>
      rw [elsewhere] at waits
      cases waits
    | keep same => exact removed_eq_nil (by rw [same]; exact fun p member => member)

/-- The parent harvests the status 42 of the one child it has. -/
theorem waitpid_harvests_child :
    ∃ ledger,
      Steps LedgerStep (ledgerBoot 4096) [.fork 0 1 (some 8192) true, .yield, .exit 42] ledger ∧
      ∃ s', SchedStep ledger.state (.waitpid (-1) 0) s' ∧
        ∃ p, Harvested ledger.state s' 4096 (-1) (.returned 2 (some (42#32 <<< 8))) p := by
  have run :=
    Steps.refl.step (show LedgerStep (ledgerBoot 4096) (.fork 0 1 (some 8192) true) ⟨_, _, _⟩
    from ⟨⟨by decide, rfl⟩, rfl, rfl⟩)
  have run := run.step (show LedgerStep _ .yield ⟨_, _, _⟩ from ⟨⟨by decide, rfl⟩, rfl, rfl⟩)
  have run := run.step (show LedgerStep _ (.exit 42) ⟨_, _, _⟩ from ⟨⟨by decide, rfl⟩, rfl, rfl⟩)
  refine ⟨_, run, _, ⟨by decide, rfl⟩, ?_⟩
  have answers := ((waitpid_harvests run).2 (.waitpid (-1) 0) _ ⟨by decide, rfl⟩).1 4096 (-1)
    (.returned 2 (some (42#32 <<< 8))) (by decide) (by decide)
  exact answers.found ⟨8192, ⟨by decide, by decide, by decide⟩, .inl rfl, by decide⟩

end M4KK1.Kernel
