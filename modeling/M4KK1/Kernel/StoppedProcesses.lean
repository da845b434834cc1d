import M4KK1.Kernel.Runs

/-!
# Stopped processes

`mkrn_process_dequeue_live` does not pass over stopped processes (`Exposed`).
-/

namespace M4KK1.Kernel

open M4KK1.Lib List State

variable {s s' : State} {p q c : Addr}

/-- Only marked processes are queued in front of `p`; reaping one takes its next entry out. -/
def Exposed (marked : Addr → Bool) (queue : List Addr) (p : Addr) : Prop :=
  ∃ front back, queue = front ++ p :: back ∧ (∀ q ∈ front, marked q = true ∧ front.count q ≤ 2) ∧
    (marked p = true → front.count p = 2)

/-- The marks after a process was reaped. -/
def unmark (marked : Addr → Bool) (c q : Addr) : Bool := decide (q ≠ c) && marked q

variable {marked : Addr → Bool}

theorem unmark_eq_true : unmark marked c q = true ↔ q ≠ c ∧ marked q = true := by
  rw [unmark, Bool.and_eq_true, decide_eq_true_eq]

theorem exposed_cons_unmarked (live : marked q = false) (queue : List Addr) :
    Exposed marked (q :: queue) p ↔ q = p := by
  constructor
  · rintro ⟨front, back, split, passed, -⟩
    cases front with
    | nil => exact (List.cons.inj split).1
    | cons first front =>
      obtain rfl : q = first := (List.cons.inj split).1
      exact nomatch live.symm.trans (passed q mem_cons_self).1
  · rintro rfl
    exact ⟨[], queue, rfl, forall_mem_nil _, fun isMarked => nomatch live.symm.trans isMarked⟩

theorem erase_split {front : List Addr} (back : List Addr) (another : p = q → q ∈ front) :
    ∃ back', (front ++ p :: back).erase q = front.erase q ++ p :: back' := by
  by_cases early : q ∈ front
  · exact ⟨back, erase_append_left _ early⟩
  · refine ⟨back.erase q, ?_⟩
    have other : ¬ (p == q) = true := fun same => early (another (beq_iff_eq.mp same))
    rw [erase_append_right _ early, erase_cons_tail other, erase_of_not_mem early]

theorem split_of_erase {queue front back : List Addr} (split : queue.erase q = front ++ p :: back)
    (absent : q ∉ front) :
    ∃ front' back', queue = front' ++ p :: back' ∧ front'.erase q = front ∧
      (p = q → q ∈ front') := by
  by_cases more : q ∈ queue
  · obtain ⟨early, late, notEarly, isQueue, erased⟩ := exists_erase_eq more
    rcases append_eq_append_iff.mp (erased.symm.trans split) with
      ⟨between, rfl, rfl⟩ | ⟨between, rfl, isLate⟩
    · refine ⟨early ++ q :: between, back, by rw [isQueue, append_assoc, cons_append], ?_, ?_⟩
      · rw [erase_append_right _ notEarly, erase_cons_head]
      · exact fun _ => mem_append_right _ mem_cons_self
    · cases between with
      | nil =>
        rw [append_nil] at isQueue
        refine ⟨front ++ [q], back, ?_, ?_, fun _ => mem_append_right _ mem_cons_self⟩
        · rw [isQueue, append_assoc, singleton_append, ← nil_append late, ← isLate]
        · rw [erase_append_right _ absent, erase_cons_head, append_nil]
      | cons first between =>
        obtain rfl : p = first := (List.cons.inj isLate).1
        refine ⟨front, between ++ q :: late, ?_, erase_of_not_mem absent, ?_⟩
        · rw [isQueue, append_assoc, cons_append]
        · rintro rfl
          exact absurd (mem_append_right _ mem_cons_self) notEarly
  · rw [erase_of_not_mem more] at split
    refine ⟨front, back, split, erase_of_not_mem absent, ?_⟩
    rintro rfl
    exact absurd (split ▸ mem_append_right _ mem_cons_self) more

theorem exposed_cons_marked (isMarked : marked q = true) (queue : List Addr) :
    Exposed marked (q :: queue) p ↔ Exposed (unmark marked q) (queue.erase q) p := by
  -- Entries of others are counted alike with and without those of the head.
  have rest (front : List Addr) {r : Addr} (other : r ≠ q) : (front.erase q).count r =
      (q :: front).count r := by
    rw [count_erase_of_ne other, count_cons_of_ne other.symm]
  constructor
  · rintro ⟨front, back, split, passed, third⟩
    cases front with
    | nil =>
      obtain rfl : q = p := (List.cons.inj split).1
      exact nomatch third isMarked
    | cons first front =>
      obtain ⟨rfl, rfl⟩ : q = first ∧ queue = front ++ p :: back := List.cons.inj split
      have twice := (passed q mem_cons_self).2
      rw [count_cons_self] at twice
      have another : p = q → q ∈ front := by
        rintro rfl
        have isThird := third isMarked
        rw [count_cons_self] at isThird
        exact count_pos_iff.mp (by omega)
      have gone : q ∉ front.erase q := by
        rw [← count_eq_zero, count_erase_self]
        omega
      obtain ⟨back', erased⟩ := erase_split back another
      refine ⟨front.erase q, back', erased, fun r member => ?_, fun stillMarked => ?_⟩
      · have other : r ≠ q := fun same => gone (same ▸ member)
        have before := passed r (mem_cons_of_mem _ (mem_of_mem_erase member))
        rw [rest front other]
        exact ⟨unmark_eq_true.mpr ⟨other, before.1⟩, before.2⟩
      · have other := unmark_eq_true.mp stillMarked
        rw [rest front other.1, third other.2]
  · rintro ⟨erased, back, split, passed, third⟩
    have gone : q ∉ erased := fun member => (unmark_eq_true.mp (passed q member).1).1 rfl
    obtain ⟨front, back', rfl, rfl, another⟩ := split_of_erase split gone
    rw [← count_eq_zero, count_erase_self] at gone
    refine ⟨q :: front, back', rfl, fun r member => ?_, fun stillMarked => ?_⟩
    · by_cases other : r = q
      · rw [other, count_cons_self]
        exact ⟨isMarked, by omega⟩
      · have before := passed r ((mem_erase_of_ne other).mpr (mem_of_ne_of_mem other member))
        rw [rest front other] at before
        exact ⟨(unmark_eq_true.mp before.1).2, before.2⟩
    · by_cases other : p = q
      · have present := count_pos_iff.mpr (another other)
        rw [other, count_cons_self]
        omega
      · rw [← rest front other]
        exact third (unmark_eq_true.mpr ⟨other, stillMarked⟩)

def markedIn (s : State) (q : Addr) : Bool := s.has q .terminate

theorem markedIn_reap (s : State) (c : Addr) :
    markedIn (processReap s c) = unmark (markedIn s) c := by
  funext q
  by_cases same : q = c
  · rw [markedIn, same, processReap_has_self, unmark, decide_eq_false (not_not.mpr rfl),
      Bool.false_and]
    rfl
  · rw [markedIn, (processReap_spec s c).2.2.2 q _ same, unmark, decide_eq_true same, Bool.true_and,
      markedIn]

theorem dequeueLiveLoop_eq_some (fuel : Nat) : ∀ s : State, s.ready.count < fuel →
    ((dequeueLiveLoop fuel s).2 = some p ↔ Exposed (markedIn s) s.queued p) := by
  induction fuel with
  | zero => exact fun _ few => absurd few (Nat.not_lt_zero _)
  | succ fuel ih =>
    intro s few
    rw [dequeueLiveLoop]
    cases dequeued : readyDequeue s.ready with
    | none =>
      have isQueue : s.queued = [] := readyDequeue_eq_none.mp dequeued
      rw [isQueue]
      constructor
      · intro isNext
        cases isNext
      · rintro ⟨front, back, split, -⟩
        exact absurd split.symm (append_ne_nil_of_right_ne_nil _ (cons_ne_nil _ _))
    | some taken =>
      obtain ⟨head, ready⟩ := taken
      have isQueue : s.queued = head :: ready.contents := readyDequeue_contents dequeued
      have fewer := readyDequeue_count dequeued
      dsimp only
      rw [isQueue]
      split
      · next marked =>
        have reaped : (processReap { s with ready := ready } head).queued =
            ready.contents.erase head :=
          (processReap_spec _ _).2.1
        have notMore : (processReap { s with ready := ready } head).ready.count ≤ ready.count :=
          processReap_count _ head
        rw [exposed_cons_marked marked, ← reaped, ih _ (by omega), markedIn_reap]
        rfl
      · next live =>
        rw [exposed_cons_unmarked (Bool.eq_false_iff.mpr live), Option.some.injEq]

theorem handOver_eq (s : State) :
    ∃ s' next, Scan s s' next ∧ (next = some p ↔ Exposed (markedIn s) s.queued p) ∧
      (next = none ∧ handOver s = { s' with parked := true } ∨
        ∃ chosen, next = some chosen ∧ handOver s =
          resumeCurrent { switchTo s' chosen with parked := false }) := by
  have scan : Scan s (processDequeueLive s).1 (processDequeueLive s).2 := dequeueLiveLoop_scan _ s
  have found : (processDequeueLive s).2 = some p ↔ Exposed (markedIn s) s.queued p :=
    dequeueLiveLoop_eq_some _ s (Nat.lt_succ_self _)
  rw [handOver]
  revert scan found
  obtain ⟨s', next⟩ := processDequeueLive s
  intro scan found
  refine ⟨s', next, scan, found, ?_⟩
  cases next with
  | none => exact Or.inl ⟨rfl, rfl⟩
  | some chosen => exact Or.inr ⟨chosen, rfl, rfl⟩

theorem resumeCurrent_edit (isCurrent : s.current = some c) :
    ∃ process, resumeCurrent s = s.edit c process s.ready s.timerWaiters := by
  simp only [resumeCurrent, isCurrent]
  split
  · refine ⟨{ s.pcbs c with
      stateTags := withoutTags (s.pcbs c).stateTags [.waitTimer], resume := .user }, ?_⟩
    simp only [clearTags_eq_edit, modify_eq_edit, edit_edit, pcbs_edit_self, ready_edit,
      timerWaiters_edit]
  · exact ⟨_, rfl⟩
  · exact ⟨s.pcbs c, (s.edit_self c).symm⟩

theorem current_resumeCurrent (s : State) : (resumeCurrent s).current = s.current := by
  cases isCurrent : s.current with
  | none =>
    simp only [resumeCurrent, isCurrent]
  | some c =>
    obtain ⟨process, resumed⟩ := resumeCurrent_edit isCurrent
    rw [resumed]
    exact isCurrent

theorem current_handOver (exposed : Exposed (markedIn s) s.queued p) :
    (handOver s).current = some p := by
  obtain ⟨s', next, -, found, ⟨nobody, -⟩ | ⟨chosen, isChosen, handed⟩⟩ := handOver_eq (p := p) s
  · exact nomatch nobody.symm.trans (found.mpr exposed)
  · obtain rfl := Option.some.inj (isChosen.symm.trans (found.mpr exposed))
    rw [handed, current_resumeCurrent]
    rfl

/-- `p` does not run and no `mkrn_process_switch_pick` chooses it. -/
structure Halted (s : State) (p : Addr) : Prop where
  registered : p ∈ s.allProcs
  notCurrent : s.current ≠ some p
  unfit : s.has p .stopped = true ∨
    s.has p .schedSleeping = false ∧ (s.has p .schedReady = true → s.has p .terminate = true)

namespace Halted

theorem not_runnable (halted : Halted s p) : ¬ Runnable s p := by
  rintro ⟨ready, notStopped, live⟩
  rcases halted.unfit with stopped | ⟨-, terminated⟩
  · exact nomatch notStopped.symm.trans stopped
  · exact nomatch live.symm.trans (terminated ready)

theorem congr (halted : Halted s p) (registered : p ∈ s'.allProcs)
    (notCurrent : s'.current ≠ some p)
    (tags : ∀ tag, s'.has p tag = s.has p tag) : Halted s' p := by
  refine ⟨registered, notCurrent, ?_⟩
  rw [tags, tags, tags, tags]
  exact halted.unfit

theorem untouched (same : Untouched s s') (halted : Halted s p) : Halted s' p :=
  halted.congr (same.allProcs.symm ▸ halted.registered) (same.current.symm ▸ halted.notCurrent)
    (same.has p)

section

variable (halted : Halted s p)

include halted

theorem edit_of_ne (other : p ≠ q) (process : Process) (ready : ReadyQueue)
    (waiters : BitVec 32) : Halted (s.edit q process ready waiters) p :=
  halted.congr halted.registered halted.notCurrent fun _ => has_edit_of_ne _ _ _ other

theorem edit_stopped {process : Process} (stopped : hasTag process.stateTags .stopped = true)
    (ready : ReadyQueue) (waiters : BitVec 32) : Halted (s.edit p process ready waiters) p :=
  ⟨halted.registered, halted.notCurrent, Or.inl (by rw [has_edit_self, stopped])⟩

theorem stopped_of_sleeping (asleep : s.has p .schedSleeping = true) : s.has p .stopped = true := by
  rcases halted.unfit with stopped | ⟨awake, -⟩
  · exact stopped
  · exact nomatch awake.symm.trans asleep

theorem reaps (reaps : Reaps s s') : Halted s' p := by
  have registered : p ∈ s'.allProcs := reaps.allProcs.symm ▸ halted.registered
  have notCurrent : s'.current ≠ some p := reaps.current.symm ▸ halted.notCurrent
  rcases reaps.tags p with kept | reaped
  · exact halted.congr registered notCurrent kept
  · refine ⟨registered, notCurrent, Or.inr ⟨reaped .schedSleeping, fun ready => ?_⟩⟩
    exact nomatch ready.symm.trans (reaped .schedReady)

theorem switchTo (other : p ≠ q) : Halted (switchTo s q) p := by
  obtain ⟨word, switched, -⟩ := switchTo_spec s q
  rw [switched]
  exact (halted.edit_of_ne other { s.pcbs q with stateTags := word } s.ready s.timerWaiters).congr
    halted.registered (fun same => other (Option.some.inj same).symm) fun _ => rfl

theorem resume : Halted (resumeCurrent s) p := by
  cases isCurrent : s.current with
  | none => simpa only [resumeCurrent, isCurrent] using halted
  | some c =>
    obtain ⟨process, resumed⟩ := resumeCurrent_edit isCurrent
    rw [resumed]
    exact halted.edit_of_ne (fun same => halted.notCurrent (same ▸ isCurrent)) _ _ _

theorem picked {result : State} (picked : Picked s result) : Halted result p := by
  obtain ⟨s', next, scan, ⟨-, rfl, -⟩ | ⟨chosen, switched, -, runnable, same, rfl, -⟩⟩ := picked
  · exact (halted.reaps scan.reaps).resume
  · have still := halted.reaps scan.reaps
    have other : p ≠ chosen := fun same => still.not_runnable (same ▸ runnable)
    exact ((still.switchTo other).untouched same).resume

end

/-! ### The operations -/

section

variable (halted : Halted s p)

include halted

theorem yield {point : Resume} (isCurrent : s.current = some c) :
    Halted (processYield s point) p := by
  have other : p ≠ c := fun same => halted.notCurrent (same ▸ isCurrent)
  cases isEnabled : s.schedulerEnabled with
  | false =>
    rw [processYield, processSwitchPick, if_pos isEnabled]
    exact halted.resume
  | true =>
    obtain ⟨word, ready, suspended, -⟩ := suspend_spec s c point
    refine picked ?_ (processYield_picked isEnabled isCurrent)
    rw [suspended]
    exact halted.edit_of_ne other _ _ _

theorem syscallYield (isCurrent : s.current = some c) : Halted (processSyscallYield s) p := by
  obtain ⟨stamped, touched, -, stays | ⟨-, yields⟩⟩ := processSyscallYield_spec isCurrent
  · rw [stays]
    exact halted.untouched touched
  · rw [yields]
    exact (halted.untouched touched).yield (touched.current.trans isCurrent)

theorem block (isCurrent : s.current = some c) : Halted (processBlock s) p := by
  have other : p ≠ c := fun same => halted.notCurrent (same ▸ isCurrent)
  rw [processBlock_eq isCurrent]
  exact (halted.edit_of_ne other _ _ _).yield isCurrent

theorem sleep (isCurrent : s.current = some c) (ms freq : BitVec 32) :
    Halted (processSleep s ms freq) p := by
  have other : p ≠ c := fun same => halted.notCurrent (same ▸ isCurrent)
  cases isEnabled : s.schedulerEnabled with
  | false =>
    simp only [processSleep, isCurrent, if_pos isEnabled]
    exact halted
  | true =>
    by_cases isZero : ms = 0#32
    · have enabled : ¬ s.schedulerEnabled = false := Bool.not_eq_false _ ▸ isEnabled
      simp only [processSleep, isCurrent, if_neg enabled, if_pos isZero]
      exact halted.yield isCurrent
    · rw [processSleep_eq isEnabled isCurrent isZero]
      exact (halted.edit_of_ne other _ _ _).yield isCurrent

theorem wakeup (q : Addr) : Halted (processWakeup s q) p := by
  by_cases asleep : s.has q .schedSleeping = true
  · obtain ⟨word, ready, waiters, woken, -, change⟩ := processWakeup_spec asleep
    rw [woken]
    by_cases other : p = q
    · subst other
      have stopped := halted.stopped_of_sleeping asleep
      refine halted.edit_stopped ?_ _ _
      rcases change with ⟨-, -, tags⟩ | ⟨-, -, tags⟩
      · simp [tags, stopped]
      · simp [tags, stopped]
    · exact halted.edit_of_ne other _ _ _
  · rw [processWakeup, if_neg asleep]
    exact halted

theorem tickOne (q : Addr) : Halted (timerTickOne s q) p := by
  by_cases due : s.has q .schedSleeping = true ∧ s.has q .waitTimer = true ∧
    (s.pcbs q).sleepTicks ≠ 0
  · obtain ⟨process, ready, waiters, ticked, -, change⟩ := timerTickOne_spec due
    rw [ticked]
    by_cases other : p = q
    · subst other
      have stopped := halted.stopped_of_sleeping due.1
      refine halted.edit_stopped ?_ _ _
      rcases change with ⟨same, -⟩ | ⟨-, -, -, tags⟩ | ⟨-, -, -, -, tags⟩
      · rw [same]
        exact stopped
      · simp [tags, stopped]
      · simp [tags, stopped]
    · exact halted.edit_of_ne other _ _ _
  · rw [timerTickOne, if_neg due]
    exact halted

theorem fork (inheritMask : BitVec 64) (flags : BitVec 32) (pcb : Option Addr)
    (kstack : Bool) (unused : ∀ child, pcb = some child → child ∉ s.allProcs) :
    Halted (forkStatus s inheritMask flags pcb kstack).1 p := by
  rcases forkStatus_cases s inheritMask flags pcb kstack with
    unchanged | ⟨child, parent, isChild, -, allowed, forks⟩
  · rw [unchanged]
    exact halted
  · have other : p ≠ child := fun same => unused child isChild (same ▸ halted.registered)
    obtain ⟨process, -, -, -, ⟨same, -⟩ | ⟨ready, -, -, same, -⟩⟩ :=
      forkChild_spec s parent child kstack allowed
    · rw [forks]
      exact (halted.edit_of_ne other _ _ _).untouched same
    · rw [forks]
      refine untouched same
        (halted.congr (mem_cons_of_mem _ halted.registered) halted.notCurrent ?_)
      exact fun _ => has_edit_of_ne process ready s.timerWaiters other

theorem terminated {process : Process} {ready : ReadyQueue} {waiters : BitVec 32}
    (terminated : Terminated s q process ready waiters) :
    Halted (s.edit q process ready waiters) p := by
  by_cases other : p = q
  · subst other
    refine ⟨halted.registered, halted.notCurrent, Or.inr ⟨?_, fun _ => ?_⟩⟩
    · rw [has_edit_self, terminated.tags _ (by decide)]
      simp
    · rw [has_edit_self, terminated.tags _ (by decide)]
      simp
  · exact halted.edit_of_ne other _ _ _

end

end Halted

/-! ### Signals -/

theorem kill_sigstop {pid : BitVec 32} (found : processFind s pid = some p) :
    ∃ process, (kill s pid sigstop).1 = s.edit p process s.ready s.timerWaiters ∧
      hasTag process.stateTags .stopped = true := by
  have inRange : ¬ (sigstop ≤ 0 ∨ sigstop ≥ nsig) := by decide
  have notKill (n : BitVec 32) : ¬ (n = 1 ∧ sigstop = sigkill) :=
    fun same => absurd same.2 (by decide)
  have notFatal : signalIsFatal sigstop = false := by decide
  have isStop : signalIsStop sigstop = true := by decide
  have killed : (kill s pid sigstop).1 = signalDeliver s p sigstop := by
    simp only [kill, if_neg inRange, found, if_neg (notKill pid)]
  rw [killed]
  simp only [signalDeliver, if_neg inRange, if_neg (notKill _), notFatal, Bool.false_eq_true,
    if_false, isStop, if_true,
    setTags_eq_edit, clearTags_eq_edit, modify_eq_edit, edit_edit, pcbs_edit_self,
    ready_edit, timerWaiters_edit]
  exact ⟨_, rfl, by simp⟩

/-- The call delivers SIGCONT to `p`. -/
def Continues (p : Addr) (s : State) : Call → Prop
  | .kill pid sig => sig = sigcont ∧ processFind s pid = some p
  | _ => False

theorem Halted.signal {pid : BitVec 32} {sig : Int} (halted : Halted s p)
    (stays : ¬ Continues p s (.kill pid sig)) : Halted (kill s pid sig).1 p := by
  rcases kill_spec s pid sig with unchanged | ⟨target, found,
    ⟨-, -, process, ready, waiters, killed, terminated⟩ | ⟨-, process, killed, signalled⟩⟩
  · rw [unchanged]
    exact halted
  · rw [killed]
    exact halted.terminated terminated
  · by_cases other : p = target
    · subst other
      have notCont : signalIsCont sig = false := decide_eq_false fun isCont => stays ⟨isCont, found⟩
      cases stops : signalIsStop sig with
      | true =>
        obtain rfl : sig = sigstop := of_decide_eq_true stops
        obtain ⟨process, killed, stopped⟩ := kill_sigstop found
        rw [killed]
        exact halted.edit_stopped stopped _ _
      | false =>
        rw [killed]
        refine halted.congr halted.registered halted.notCurrent fun tag => ?_
        rw [has_edit_self, signalled.ignored stops notCont, State.has]
    · rw [killed]
      exact halted.edit_of_ne other _ _ _

/-! ### Hand-overs -/

theorem Halted.handOver (halted : Halted s p) (passed : ¬ Exposed (markedIn s) s.queued p) :
    Halted (handOver s) p := by
  obtain ⟨s', next, scan, found, ⟨-, parks⟩ | ⟨chosen, isChosen, handed⟩⟩ := handOver_eq (p := p) s
  · have still := halted.reaps scan.reaps
    rw [parks]
    exact still.congr still.registered still.notCurrent fun _ => rfl
  · have other : p ≠ chosen :=
      fun same => passed (found.mp (isChosen.trans (congrArg some same.symm)))
    have switched := (halted.reaps scan.reaps).switchTo other
    have unparked : Halted { Kernel.switchTo s' chosen with parked := false } p :=
      switched.congr switched.registered switched.notCurrent fun _ => rfl
    rw [handed]
    exact unparked.resume

/-- The state in which `mkrn_process_exit` hands over. -/
def exiting (s : State) (c : Addr) (status : BitVec 32) : State :=
  processReap (s.modify c fun process => { process with exitStatus := status }) c

theorem processExit_eq {status : BitVec 32} (isCurrent : s.current = some c) :
    processExit s status = handOver (exiting s c status) := by
  simp only [processExit, isCurrent, exiting]

theorem exposed_exiting (s : State) (c : Addr) (status : BitVec 32) :
    Exposed (markedIn (exiting s c status)) (exiting s c status).queued p ↔
      Exposed (unmark (markedIn s) c) (s.queued.erase c) p := by
  have touched : Untouched s (s.modify c fun process => { process with exitStatus := status }) :=
    Untouched.modify rfl rfl rfl
  have marks : markedIn (s.modify c fun process => { process with exitStatus := status }) =
      markedIn s :=
    funext fun q => touched.has q .terminate
  have shorter : (exiting s c status).queued = s.queued.erase c := (processReap_spec _ c).2.1
  rw [exiting, markedIn_reap, marks, ← exiting, shorter]

theorem Halted.exiting (halted : Halted s p) (c : Addr) (status : BitVec 32) :
    Halted (exiting s c status) p :=
  (halted.untouched (Untouched.modify rfl rfl rfl)).reaps (processReap_spec _ c).1

/-- No hand-over in the call gets to `p`. The exiting process is reaped before the search. -/
def PassesOver (p : Addr) (s : State) : Call → Prop
  | .exit _ => ∀ c, s.current = some c → ¬ Exposed (unmark (markedIn s) c) (s.queued.erase c) p
  | .probe => ¬ Exposed (markedIn s) s.queued p
  | _ => True

/-- The calls other than `mkrn_waitpid`, which frees control blocks. -/
def Schedules : Call → Prop
  | .waitpid _ _ | .rescan => False
  | _ => True

theorem Halted.step {call : Call} (halted : Halted s p) (schedules : Schedules call)
    (stays : ¬ Continues p s call)
    (passes : PassesOver p s call) (transition : SchedStep s call s') : Halted s' p := by
  obtain ⟨isEnabled, rfl⟩ := transition
  cases call with
  | fork inheritMask flags pcb kstack =>
    simp only [enabled, Bool.and_eq_true] at isEnabled
    refine halted.fork inheritMask flags pcb kstack ?_
    rintro child rfl
    simpa using isEnabled.2
  | yield =>
    obtain ⟨-, c, isCurrent⟩ := hasCpu_of_inUser isEnabled
    exact halted.yield isCurrent
  | syscallYield =>
    obtain ⟨-, c, isCurrent⟩ := hasCpu_of_inUser isEnabled
    exact halted.syscallYield isCurrent
  | block =>
    obtain ⟨-, c, isCurrent⟩ := hasCpu_of_inUser isEnabled
    exact halted.block isCurrent
  | sleep ms freq =>
    obtain ⟨-, c, isCurrent⟩ := hasCpu_of_inUser isEnabled
    exact halted.sleep isCurrent ms freq
  | exit status =>
    obtain ⟨-, c, isCurrent⟩ := hasCpu_of_inUser isEnabled
    rw [perform, processExit_eq isCurrent]
    exact (halted.exiting c status).handOver fun exposed =>
      passes c isCurrent ((exposed_exiting s c status).mp exposed)
  | waitpid pid options => exact schedules.elim
  | terminate pid =>
    cases found : processFind s pid with
    | none => simpa only [perform, processTerminate, found] using halted
    | some target =>
      obtain ⟨process, ready, waiters, done, terminated⟩ := processTerminate_spec found
      rw [perform, done]
      exact halted.terminated terminated
  | kill pid sig => exact halted.signal stays
  | wakeup q => exact halted.wakeup q
  | tick uptime =>
    have ticking : Halted { s with uptime := uptime } p :=
      halted.congr halted.registered halted.notCurrent fun _ => rfl
    exact @processTimerTick_induction _ (fun s => Halted s p) ticking fun still _ => still.tickOne _
  | rescan => exact schedules.elim
  | probe => exact halted.handOver passes

theorem passesOver_of_notCurrent {call : Call} (transition : SchedStep s call s')
    (notCurrent : s'.current ≠ some p) :
    PassesOver p s call := by
  obtain ⟨-, rfl⟩ := transition
  cases call with
  | exit status =>
    intro c isCurrent exposed
    rw [perform, processExit_eq isCurrent] at notCurrent
    exact notCurrent (current_handOver ((exposed_exiting s c status).mpr exposed))
  | probe => exact fun exposed => notCurrent (current_handOver exposed)
  | fork _ _ _ _ => trivial
  | yield => trivial
  | syscallYield => trivial
  | block => trivial
  | sleep _ _ => trivial
  | waitpid _ _ => trivial
  | terminate _ => trivial
  | kill _ _ => trivial
  | wakeup _ => trivial
  | tick _ => trivial
  | rescan => trivial

/-- Between SIGSTOP and SIGCONT a process never becomes current if and only if no hand-over gets to
it. -/
theorem stopped_stays_off_iff {pid : BitVec 32} {calls : List Call}
    (found : processFind s pid = some p)
    (notCurrent : s.current ≠ some p) (stop : SchedStep s (.kill pid sigstop) s')
    (schedule : ∀ call ∈ calls, Schedules call)
    (stays : Throughout SchedStep (fun before call _ => ¬ Continues p before call) s' calls) :
    Throughout SchedStep (fun _ _ after => after.current ≠ some p) s' calls ↔
      Throughout SchedStep (fun before call _ => PassesOver p before call) s' calls := by
  have stopped : Halted s' p := by
    obtain ⟨-, rfl⟩ := stop
    obtain ⟨process, killed, stopped⟩ := kill_sigstop found
    rw [perform, killed]
    refine ⟨(processFind_some found).2.resolve_right notCurrent, notCurrent, Or.inl ?_⟩
    rw [has_edit_self, stopped]
  constructor
  · intro off prior call rest before after split run transition
    exact passesOver_of_notCurrent transition
      (off prior call rest before after split run transition)
  · intro passes prior call rest before after split run transition
    have both : Throughout SchedStep (fun before call _ => ¬ Continues p before call ∧
      PassesOver p before call)
        s' calls := fun prior call rest before after split run transition =>
      ⟨stays prior call rest before after split run transition,
        passes prior call rest before after split run transition⟩
    have split' : calls = (prior ++ [call]) ++ rest := by rw [split, append_assoc, singleton_append]
    have halted : Halted after p := both.invariant (fun s => Halted s p)
      (fun _ call _ taken halted holds step =>
        halted.step (schedule call taken) holds.1 holds.2 step)
      stopped (run.step transition) split'
    exact halted.notCurrent

/-- The first process has forked twice. -/
def twoChildren : State :=
  performAll (boot 4096) [.fork 0 1 (some 8192) true, .fork 0 1 (some 12288) true]

/-- A stopped child is not chosen when the parent exits: its sibling is. -/
theorem stopped_stays_off_exit :
    processFind twoChildren 3 = some 12288 ∧ twoChildren.current ≠ some 12288 ∧
      Throughout SchedStep (fun _ _ after => after.current ≠ some 12288)
        (perform twoChildren (.kill 3 sigstop))
        [.exit 0] := by
  have found : processFind twoChildren 3 = some 12288 := by decide
  have notCurrent : twoChildren.current ≠ some 12288 := by decide
  have only {prior rest : List Call} {call : Call} (split : [.exit 0] = prior ++ call :: rest) :
      prior = [] ∧ call = .exit 0 := by
    cases prior with
    | nil => exact ⟨rfl, (List.cons.inj split).1.symm⟩
    | cons first prior => exact absurd split (by simp)
  refine ⟨found, notCurrent, (stopped_stays_off_iff found notCurrent ⟨by decide, rfl⟩ ?_ ?_).mpr ?_⟩
  · intro call member
    rw [mem_singleton.mp member]
    trivial
  · intro prior call rest before after split _ _
    rw [(only split).2]
    exact id
  · intro prior call rest before after split run _
    obtain ⟨rfl, rfl⟩ := only split
    intro c isCurrent
    rw [run.eq_of_nil] at isCurrent ⊢
    obtain rfl : 4096 = c := Option.some.inj ((show _ = some 4096 by decide).symm.trans isCurrent)
    rw [show (perform twoChildren (.kill 3 sigstop)).queued.erase 4096 = [8192, 12288] by decide,
      exposed_cons_unmarked (by decide)]
    decide

/-- The first child stops the second and exits; the second is next and runs, though stopped. -/
theorem stopped_runs :
    let s := perform twoChildren .yield
    let s' := perform s (.kill 3 sigstop)
    Steps SchedStep (boot 4096) [.fork 0 1 (some 8192) true, .fork 0 1 (some 12288) true,
      .yield] s ∧
      processFind s 3 = some 12288 ∧ s.current = some 8192 ∧ SchedStep s (.kill 3 sigstop) s' ∧
      s'.has 12288 .stopped = true ∧
      ¬ Throughout SchedStep (fun _ _ after => after.current ≠ some 12288) s' [.exit 0] := by
  intro s s'
  refine ⟨steps_performAll (by decide), by decide, by decide, ⟨by decide, rfl⟩, by decide,
    fun off => ?_⟩
  exact off [] (.exit 0) [] s' _ rfl .refl ⟨by decide, rfl⟩ (by decide)

end M4KK1.Kernel
