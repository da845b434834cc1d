import Mathlib.Data.List.Count
import M4KK1.Kernel.NoneLost

/-!
# The timer waiters are counted

A sleeper that is not switched away or is reaped stays counted; `timerConditions` excludes that.
-/

namespace M4KK1.Kernel

open M4KK1.Lib List State

variable {s s' : State} {p q c : Addr}

/-- The count is that of the tags, and a timer interrupt does what the whole walk
does. -/
structure WaitersCounted (s : State) : Prop where
  count : s.timerWaiters.toNat = timerCount s
  walk : processTimerTick s = s.allProcs.foldl timerTickOne s

/-- A process that sleeps is registered, no zombie, not queued, and leaves the CPU to a runnable
one. -/
def timerConditions : Conditions where
  yield _ := True
  sleep s := (∃ p ∈ s.queued, Runnable s p) ∧ s.timerWaiters ≠ -1 ∧
    ∀ c, s.current = some c → c ∈ s.allProcs ∧ s.has c .zombie = false ∧ c ∉ s.queued
  wakeup _ _ := True
  terminate _ _ := True

/-- A process that waits for the timer is neither queued nor a zombie, also during a switch. -/
structure Counted (s : State) : Prop where
  count : timerCount s = s.timerWaiters.toNat
  nodup : s.allProcs.Nodup
  timed : ∀ p, s.has p .waitTimer = true →
    p ∉ s.queued ∧ s.has p .zombie = false ∧ (s.pcbs p).resume = .inSleep
  enabled : s.schedulerEnabled = true

/-- The invariant between two steps. -/
structure Ticking (s : State) : Prop extends Counted s where
  awake : ∀ c, s.current = some c → s.has c .waitTimer = false

theorem foldl_timerTickOne {procs : List Addr} (untimed : ∀ p ∈ procs, s.has p .waitTimer = false) :
    procs.foldl timerTickOne s = s := by
  induction procs with
  | nil => rfl
  | cons p procs ih =>
    have skipped : timerTickOne s p = s := by
      rw [timerTickOne, if_neg]
      rintro ⟨-, timed, -⟩
      exact absurd ((untimed p mem_cons_self).symm.trans timed) Bool.false_ne_true
    rw [foldl_cons, skipped]
    exact ih fun q member => untimed q (mem_cons_of_mem _ member)

theorem Counted.waitersCounted (counted : Counted s) : WaitersCounted s := by
  refine ⟨counted.count.symm, ?_⟩
  rw [processTimerTick, if_neg (by rw [counted.enabled]; decide)]
  split
  · rename_i zero
    have none : timerCount s = 0 := by rw [counted.count, zero]; rfl
    refine (foldl_timerTickOne fun p registered => ?_).symm
    exact Bool.eq_false_iff.mpr (countP_eq_zero.mp none p registered)
  · rfl

theorem timerCount_edit_same {process : Process} (ready : ReadyQueue) (waiters : BitVec 32)
    (nodup : s.allProcs.Nodup) (same : hasTag process.stateTags .waitTimer = s.has p .waitTimer) :
    timerCount (s.edit p process ready waiters) = timerCount s := by
  by_cases member : p ∈ s.allProcs
  · have changed := timerCount_edit process ready waiters nodup member
    rw [same] at changed
    exact Nat.add_right_cancel changed
  · exact timerCount_edit_of_not_mem process ready waiters member

theorem timerCount_edit_out {process : Process} {ready : ReadyQueue} {waiters : BitVec 32}
    (counted : Counted s) (registered : p ∈ s.allProcs ∨ s.has p .waitTimer = false)
    (untimed : hasTag process.stateTags .waitTimer = false)
    (counts : waiters.toNat = s.timerWaiters.toNat - (if s.has p .waitTimer then 1 else 0)) :
    timerCount (s.edit p process ready waiters) = waiters.toNat := by
  have before := counted.count
  cases timed : s.has p .waitTimer with
  | false =>
    rw [timed, if_neg nofun] at counts
    rw [timerCount_edit_same ready waiters counted.nodup (untimed.trans timed.symm)]
    omega
  | true =>
    have member := registered.resolve_right (by rw [timed]; nofun)
    have changed := timerCount_edit process ready waiters counted.nodup member
    rw [timed, if_pos rfl] at counts
    rw [timed, untimed, Bool.toNat_true, Bool.toNat_false] at changed
    omega

namespace Counted

theorem untouched (same : Untouched s s') (counted : Counted s) : Counted s' := by
  obtain ⟨count, nodup, timed, enabled⟩ := counted
  refine ⟨?_, ?_, ?_, ?_⟩
  · rw [timerCount, same.allProcs, same.timerWaiters]
    simp only [same.has]
    exact count
  · rwa [same.allProcs]
  · simpa only [State.queued, same.ready, same.has, same.resume] using timed
  · rwa [same.schedulerEnabled]

section

variable (counted : Counted s)

include counted

theorem edit {process : Process} {ready : ReadyQueue} {waiters : BitVec 32}
    (queue : ∀ q ∈ ready.contents, q ∈ s.queued ∨ q = p)
    (timed : hasTag process.stateTags .waitTimer = true →
      p ∉ ready.contents ∧ hasTag process.stateTags .zombie = false ∧ process.resume = .inSleep)
    (count : timerCount (s.edit p process ready waiters) = waiters.toNat) :
    Counted (s.edit p process ready waiters) := by
  refine ⟨count, counted.nodup, ?_, counted.enabled⟩
  intro q isTimed
  by_cases isP : q = p
  · subst isP
    rw [has_edit_self] at isTimed ⊢
    rw [pcbs_edit_self]
    exact timed isTimed
  · rw [has_edit_of_ne _ _ _ isP] at isTimed ⊢
    rw [pcbs_edit_of_ne _ _ _ isP]
    obtain ⟨notQueued, rest⟩ := counted.timed q isTimed
    exact ⟨fun member => (queue q member).elim notQueued isP, rest⟩

theorem editUntimed {process : Process} {ready : ReadyQueue}
    (queue : ∀ q ∈ ready.contents, q ∈ s.queued ∨ q = p) (awake : s.has p .waitTimer = false)
    (untimed : hasTag process.stateTags .waitTimer = false) :
    Counted (s.edit p process ready s.timerWaiters) := by
  apply counted.edit queue
  · intro isTimed
    exact absurd (untimed.symm.trans isTimed) nofun
  · rw [timerCount_edit_same ready _ counted.nodup (untimed.trans awake.symm)]
    exact counted.count

theorem reaps (reaps : Reaps s s') (queue : ∀ q ∈ s'.queued, q ∈ s.queued)
    (outside : ∀ q, s.has q .waitTimer = true → s'.has q .zombie = s.has q .zombie) :
    Counted s' := by
  refine ⟨?_, ?_, ?_, ?_⟩
  · rw [timerCount, reaps.allProcs, reaps.timerWaiters]
    simp only [reaps.waitTimer]
    exact counted.count
  · rw [reaps.allProcs]
    exact counted.nodup
  · intro q isTimed
    rw [reaps.waitTimer] at isTimed
    obtain ⟨notQueued, live, point⟩ := counted.timed q isTimed
    refine ⟨fun member => notQueued (queue q member), ?_, ?_⟩
    · rw [outside q isTimed, live]
    · rw [reaps.resume, point]
  · rw [reaps.schedulerEnabled]
    exact counted.enabled

theorem scan {next : Option Addr} (scan : Scan s s' next) :
    Counted s' ∧ ∀ n, next = some n → s'.has n .waitTimer = false := by
  constructor
  · apply counted.reaps scan.reaps
    · exact fun q member => scan.subperm.subset (mem_append_right _ member)
    · exact fun q isTimed => scan.outside q (counted.timed q isTimed).1 .zombie
  · rintro n rfl
    have queued : n ∈ s.queued :=
      scan.subperm.subset (mem_append_left _ (Option.mem_toList.mpr rfl))
    rw [scan.reaps.waitTimer, Bool.eq_false_iff]
    exact fun isTimed => (counted.timed n isTimed).1 queued

theorem resume (isCurrent : s.current = some c)
    (awake : s.has c .waitTimer = false) : Ticking (resumeCurrent s) := by
  obtain ⟨word, point, isResumed, tags⟩ :=
    resumeCurrent_spec isCurrent fun isTimed => (counted.timed c isTimed).2.2
  have untimed : hasTag word .waitTimer = false := by simp [tags]
  rw [isResumed]
  refine ⟨counted.editUntimed (fun q member => Or.inl member) awake untimed, ?_⟩
  intro d isD
  obtain rfl := Option.some.inj (isCurrent.symm.trans isD)
  rw [has_edit_self, untimed]

theorem dispatch (awake : s.has p .waitTimer = false)
    (same : Untouched { Kernel.switchTo s p with parked := s'.parked } s') :
    Ticking (resumeCurrent s') := by
  obtain ⟨word, isSwitched, tags⟩ := switchTo_spec s p
  have untimed : hasTag word .waitTimer = false := by simp [tags, awake]
  have edited : Counted (s.edit p { s.pcbs p with stateTags := word } s.ready s.timerWaiters) :=
    counted.editUntimed (fun q member => Or.inl member) awake untimed
  have switched : Counted { Kernel.switchTo s p with parked := s'.parked } := by
    rw [isSwitched]
    exact { edited with }
  apply (switched.untouched same).resume same.current
  rw [same.has]
  exact (has_switchTo_self s p .waitTimer).trans (by simp [awake])

theorem picked {result : State} (picked : Picked s result) (isCurrent : s.current = some c)
    (stays : (∀ q ∈ s.queued, ¬ Runnable s q) → s.has c .waitTimer = false) : Ticking result := by
  obtain ⟨s', next, scan, ⟨rfl, rfl, noneRunnable⟩ | ⟨n, switched, rfl, -, same, rfl, -⟩⟩ := picked
  · apply (counted.scan scan).1.resume (scan.reaps.current.trans isCurrent)
    rw [scan.reaps.waitTimer]
    exact stays noneRunnable
  · obtain ⟨counted', awake⟩ := counted.scan scan
    exact counted'.dispatch (awake n rfl) { same with parked := rfl }

theorem handOver (awake : ∀ c, s.current = some c → s.has c .waitTimer = false) :
    Ticking (handOver s) := by
  have scan : Scan s (processDequeueLive s).1 (processDequeueLive s).2 := dequeueLiveLoop_scan _ s
  rw [Kernel.handOver]
  revert scan
  obtain ⟨s', next⟩ := processDequeueLive s
  intro scan
  have reaps : Reaps s s' := scan.reaps
  obtain ⟨counted', chosen⟩ := counted.scan scan
  cases next with
  | none =>
    refine ⟨{ counted' with }, ?_⟩
    intro c isCurrent
    exact (reaps.waitTimer c).trans (awake c (reaps.current.symm.trans isCurrent))
  | some n => exact counted'.dispatch (chosen n rfl) (Untouched.refl _)

end

end Counted

namespace Ticking

theorem untouched (same : Untouched s s') (ticking : Ticking s) : Ticking s' := by
  refine ⟨ticking.toCounted.untouched same, ?_⟩
  intro c isCurrent
  rw [same.has]
  exact ticking.awake c (same.current.symm.trans isCurrent)

variable {process : Process} {ready : ReadyQueue} {waiters : BitVec 32}

section

variable (ticking : Ticking s)

include ticking

theorem edit (queue : ∀ q ∈ ready.contents, q ∈ s.queued ∨ q = p)
    (timed : hasTag process.stateTags .waitTimer = true → s.current ≠ some p ∧
      p ∉ ready.contents ∧ hasTag process.stateTags .zombie = false ∧ process.resume = .inSleep)
    (count : timerCount (s.edit p process ready waiters) = waiters.toNat) :
    Ticking (s.edit p process ready waiters) := by
  refine ⟨ticking.toCounted.edit queue (fun isTimed => (timed isTimed).2) count, ?_⟩
  intro c isCurrent
  by_cases isP : c = p
  · subst isP
    rw [has_edit_self]
    exact Bool.eq_false_iff.mpr fun isTimed => (timed isTimed).1 isCurrent
  · rw [has_edit_of_ne _ _ _ isP]
    exact ticking.awake c isCurrent

theorem editOut (queue : ∀ q ∈ ready.contents, q ∈ s.queued ∨ q = p)
    (registered : p ∈ s.allProcs ∨ s.current = some p)
    (untimed : hasTag process.stateTags .waitTimer = false)
    (counts : waiters.toNat = s.timerWaiters.toNat - (if s.has p .waitTimer then 1 else 0)) :
    Ticking (s.edit p process ready waiters) := by
  apply ticking.edit queue
  · intro isTimed
    exact absurd (untimed.symm.trans isTimed) nofun
  · exact timerCount_edit_out ticking.toCounted (registered.imp_right (ticking.awake p)) untimed
      counts

theorem yield {point : Resume} (isCurrent : s.current = some c) :
    Ticking (processYield s point) := by
  have picked : Picked (suspend s c point) (processYield s point) :=
    processYield_picked ticking.enabled isCurrent
  have awake := ticking.awake c isCurrent
  obtain ⟨word, ready, isSuspended, suspended⟩ := suspend_spec s c point
  have untimed : hasTag word .waitTimer = false := by
    rcases suspended with ⟨-, rfl, -⟩ | ⟨-, -, tags⟩
    · exact awake
    · simp [tags, awake]
  have queue : ∀ q ∈ ready.contents, q ∈ s.queued ∨ q = c := by
    intro q member
    rcases suspended with ⟨-, -, rfl⟩ | ⟨-, enqueued, -⟩
    · exact Or.inl member
    · exact (enqueued.mem member).imp_right And.left
  rw [isSuspended] at picked
  apply (ticking.toCounted.editUntimed queue awake untimed).picked picked isCurrent
  intro _
  rw [has_edit_self, untimed]

theorem goesToSleep (isCurrent : s.current = some c) (process : Process)
    (waiters : BitVec 32) (point : Resume) (idle : hasTag process.stateTags .schedRunning = false)
    (timed : hasTag process.stateTags .waitTimer = true → c ∉ s.queued ∧
      hasTag process.stateTags .zombie = false ∧ point = .inSleep ∧ ∃ p ∈ s.queued, Runnable s p)
    (count : timerCount (s.edit c { process with resume := point } s.ready waiters) =
      waiters.toNat) :
    Ticking (processYield (s.edit c process s.ready waiters) point) := by
  have picked : Picked (suspend (s.edit c process s.ready waiters) c point)
      (processYield (s.edit c process s.ready waiters) point) :=
    processYield_picked ticking.enabled isCurrent
  obtain ⟨word, ready, isSuspended, ⟨-, rfl, rfl⟩ | ⟨isRunning, -⟩⟩ :=
    suspend_spec (s.edit c process s.ready waiters) c point
  · rw [isSuspended, pcbs_edit_self, edit_edit] at picked
    have counted : Counted (s.edit c { process with resume := point } s.ready waiters) := by
      refine ticking.toCounted.edit (fun q member => Or.inl member) (fun isTimed => ?_) count
      obtain ⟨notQueued, live, isPoint, -⟩ := timed isTimed
      exact ⟨notQueued, live, isPoint⟩
    apply counted.picked picked isCurrent
    intro noneRunnable
    rw [has_edit_self, Bool.eq_false_iff]
    intro isTimed
    obtain ⟨notQueued, -, -, n, queued, runnable⟩ := timed isTimed
    have other : n ≠ c := fun isC => notQueued (isC ▸ queued)
    apply noneRunnable n queued
    rwa [Runnable, has_edit_of_ne _ _ _ other, has_edit_of_ne _ _ _ other,
      has_edit_of_ne _ _ _ other]
  · rw [has_edit_self, idle] at isRunning
    cases isRunning

theorem block (isCurrent : s.current = some c) : Ticking (processBlock s) := by
  have untimed : hasTag (s.pcbs c).stateTags .waitTimer = false := ticking.awake c isCurrent
  rw [processBlock_eq isCurrent]
  apply ticking.goesToSleep isCurrent
  · simp
  · simp [untimed]
  · rw [timerCount_edit_same _ _ ticking.nodup (by simp [State.has])]
    exact ticking.count

theorem sleep (isCurrent : s.current = some c) {ms freq : BitVec 32}
    (notZero : ms ≠ 0#32) (meets : timerConditions.sleep s) : Ticking (processSleep s ms freq) := by
  obtain ⟨runnable, notMax, own⟩ := meets
  obtain ⟨registered, live, notQueued⟩ := own c isCurrent
  have awake := ticking.awake c isCurrent
  have noWrap : (s.timerWaiters + 1#32).toNat = s.timerWaiters.toNat + 1 := by bv_omega
  rw [processSleep_eq ticking.enabled isCurrent notZero]
  apply ticking.goesToSleep isCurrent
  · simp
  · intro _
    refine ⟨notQueued, ?_, rfl, runnable⟩
    simpa [State.has] using live
  · have changed := timerCount_edit { s.pcbs c with
        sleepTicks := sleepTicksFor ms freq
        stateTags := withTags (withoutTags (s.pcbs c).stateTags [.schedRunning])
          [.schedSleeping, .waitTimer]
        resume := .inSleep } s.ready (s.timerWaiters + 1#32) ticking.nodup registered
    have count := ticking.count
    simp only [awake, hasTag_withTags, Bool.toNat_false] at changed
    rw [noWrap, ← count]
    simpa using changed

theorem wakeup (registered : p ∈ s.allProcs) : Ticking (processWakeup s p) := by
  by_cases asleep : s.has p .schedSleeping = true
  · obtain ⟨word, ready, waiters, done, counts, queued⟩ := processWakeup_spec asleep
    rw [done]
    apply ticking.editOut ?_ (Or.inl registered) ?_ counts
    · intro q member
      rcases queued with ⟨-, appended, -⟩ | ⟨-, rfl, -⟩
      · rwa [appended, mem_append, mem_singleton] at member
      · exact Or.inl member
    · rcases queued with ⟨-, -, tags⟩ | ⟨-, -, tags⟩ <;> simp [tags]
  · rw [processWakeup, if_neg asleep]
    exact ticking

theorem tickOne (registered : p ∈ s.allProcs) : Ticking (timerTickOne s p) := by
  by_cases due : s.has p .schedSleeping = true ∧ s.has p .waitTimer = true ∧
      (s.pcbs p).sleepTicks ≠ 0
  · obtain ⟨process, ready, waiters, done, sameResume, outcome⟩ := timerTickOne_spec due
    obtain ⟨notQueued, live, inSleep⟩ := ticking.timed p due.2.1
    have notCurrent : s.current ≠ some p := fun isCurrent =>
      absurd ((ticking.awake p isCurrent).symm.trans due.2.1) nofun
    have count := ticking.count
    have some : 0 < timerCount s := countP_pos_iff.mpr ⟨p, registered, due.2.1⟩
    -- A process that goes on waiting keeps its tag, and the count is what it was.
    have waits : ready = s.ready → waiters.toNat = s.timerWaiters.toNat →
        hasTag process.stateTags .waitTimer = true → hasTag process.stateTags .zombie = false →
        Ticking (s.edit p process ready waiters) := by
      rintro rfl sameCount isTimed stillLive
      apply ticking.edit (fun q member => Or.inl member)
      · exact fun _ => ⟨notCurrent, notQueued, stillLive, sameResume.trans inSleep⟩
      · rw [timerCount_edit_same _ _ ticking.nodup (isTimed.trans due.2.1.symm), sameCount]
        exact count
    rw [done]
    rcases outcome with ⟨sameTags, -, isReady, rfl⟩ | ⟨-, appended, counts, tags⟩ |
        ⟨-, -, isReady, ⟨dropped, counts, rfl⟩, tags⟩
    · have sameTag : ∀ tag, hasTag process.stateTags tag = s.has p tag := fun tag => by
        rw [sameTags, State.has]
      exact waits isReady rfl ((sameTag _).trans due.2.1) ((sameTag _).trans live)
    · apply ticking.editOut ?_ (Or.inl registered) (by simp [tags])
      · rw [due.2.1, if_pos rfl, counts]
      · intro q member
        rwa [appended, mem_append, mem_singleton] at member
    · apply waits isReady ?_ (by simp [tags, due.2.1]) (by simp [tags, live])
      have bounded := s.timerWaiters.isLt
      bv_omega
  · rw [timerTickOne, if_neg due]
    exact ticking

theorem exit (isCurrent : s.current = some c) : Ticking (handOver (processReap s c)) := by
  obtain ⟨reaps, isQueue, -, others⟩ := processReap_spec s c
  have awake := ticking.awake c isCurrent
  apply Counted.handOver
  · apply ticking.toCounted.reaps reaps
    · intro q member
      rw [isQueue] at member
      exact mem_of_mem_erase member
    · intro q isTimed
      apply others
      rintro rfl
      exact absurd (awake.symm.trans isTimed) nofun
  · intro d isD
    rw [reaps.waitTimer]
    exact ticking.awake d (reaps.current.symm.trans isD)

theorem free (dead : s.has p .zombie = true) : Ticking (procFreeZombie s p) := by
  have untimed : ¬ s.has p .waitTimer = true := fun isTimed =>
    absurd ((ticking.timed p isTimed).2.1.symm.trans dead) nofun
  refine ⟨⟨?_, ticking.nodup.erase p, ticking.timed, ticking.enabled⟩, ticking.awake⟩
  have same : timerCount (procFreeZombie s p) = timerCount s := by
    show (s.allProcs.erase p).countP (fun q => s.has q .waitTimer) = _
    rw [countP_erase, if_neg (by simp [untimed]), Nat.sub_zero, timerCount]
  rw [same]
  exact ticking.count

theorem leave : Ticking (leaveWaitpid s) := by
  rw [leaveWaitpid]
  split
  · exact ticking
  · rename_i c isCurrent
    have awake := ticking.awake c isCurrent
    rw [modify_eq_edit]
    apply ticking.editOut (fun q member => Or.inl member) (Or.inr isCurrent)
    · exact awake
    · rw [awake]
      rfl

theorem terminated (isFound : p ∈ s.allProcs ∨ s.current = some p)
    (terminated : Terminated s p process ready waiters) :
    Ticking (s.edit p process ready waiters) := by
  apply ticking.editOut ?_ isFound ?_ terminated.waiters
  · intro q member
    rcases terminated.queue with ⟨-, rfl⟩ | ⟨-, enqueued⟩
    · exact Or.inl member
    · exact (enqueued.mem member).imp_right And.left
  · rw [terminated.tags .waitTimer nofun]
    simp

theorem signalled {sig : Int}
    (signalled : Signalled s p sig process) :
    Ticking (s.edit p process s.ready s.timerWaiters) := by
  have sameTimer : hasTag process.stateTags .waitTimer = s.has p .waitTimer :=
    signalled.tags .waitTimer nofun nofun
  apply ticking.edit (fun q member => Or.inl member)
  · intro isTimed
    rw [sameTimer] at isTimed
    rw [signalled.tags .zombie nofun nofun, signalled.resume]
    exact ⟨fun isCurrent => absurd ((ticking.awake p isCurrent).symm.trans isTimed) nofun,
      ticking.timed p isTimed⟩
  · rw [timerCount_edit_same _ _ ticking.nodup sameTimer]
    exact ticking.count

theorem fork (inheritMask : BitVec 64) (flags : BitVec 32)
    (pcb : Option Addr) (kstack : Bool) (fresh : ∀ child, pcb = some child → child ∉ s.allProcs) :
    Ticking (forkStatus s inheritMask flags pcb kstack).1 := by
  rcases forkStatus_cases s inheritMask flags pcb kstack with
    unchanged | ⟨child, parent, isPcb, isCurrent, allowed, isFork⟩
  · rw [unchanged]
    exact ticking
  · rw [isFork]
    obtain ⟨process, -, -, inherits, outcome⟩ := forkChild_spec s parent child kstack allowed
    have unregistered := fresh child isPcb
    have untimed : hasTag process.stateTags .waitTimer = false := by
      rw [Bool.eq_false_iff]
      intro isTimed
      exact absurd ((ticking.awake parent isCurrent).symm.trans (inherits isTimed)) nofun
    have edited : ∀ ready : ReadyQueue, (∀ q ∈ ready.contents, q ∈ s.queued ∨ q = child) →
        Ticking (s.edit child process ready s.timerWaiters) := by
      intro ready queue
      apply ticking.edit queue
      · intro isTimed
        exact absurd (untimed.symm.trans isTimed) nofun
      · rw [timerCount_edit_of_not_mem _ _ _ unregistered]
        exact ticking.count
    rcases outcome with ⟨same, -⟩ | ⟨ready, -, appended, same, -⟩
    · exact (edited s.ready fun q member => Or.inl member).untouched same
    · refine Ticking.untouched same ?_
      have queued := edited ready fun q member => by
        rwa [appended, mem_append, mem_singleton] at member
      refine ⟨⟨?_, nodup_cons.mpr ⟨unregistered, ticking.nodup⟩, queued.timed, ticking.enabled⟩,
        queued.awake⟩
      have childUntimed : (s.edit child process ready s.timerWaiters).has child .waitTimer =
          false :=
        (has_edit_self _ _ _).trans untimed
      have same : timerCount { s.edit child process ready s.timerWaiters with
            allProcs := child :: s.allProcs } =
          timerCount (s.edit child process ready s.timerWaiters) :=
        countP_cons_of_neg (by rw [Bool.not_eq_true]; exact childUntimed)
      rw [same]
      exact queued.count

end

end Ticking

theorem ticking_preserved : Preserved Ticking timerConditions where
  stable _ _ := trivial
  untouched same _ := Ticking.untouched same
  yield _ ticking cpu _ := ticking.yield cpu.2.choose_spec
  block ticking cpu _ := ticking.block cpu.2.choose_spec
  sleep _ _ ticking cpu notZero meets := ticking.sleep cpu.2.choose_spec notZero meets
  wakeup ticking registered _ := ticking.wakeup registered
  tickOne ticking registered := ticking.tickOne registered
  exit ticking _ isCurrent := ticking.exit isCurrent
  probe ticking _ := ticking.toCounted.handOver ticking.awake
  fork inheritMask flags pcb kstack ticking _ fresh :=
    ticking.fork inheritMask flags pcb kstack fresh
  free ticking _ dead := ticking.free dead
  leave ticking := ticking.leave
  terminated ticking _ isFound _ terminated := ticking.terminated isFound terminated
  signalled ticking signalled := ticking.signalled signalled

theorem boot_ticking (idle : Addr) : Ticking (boot idle) := by
  have kept := boot_kept idle
  have noTimer : ∀ p, (boot idle).has p .waitTimer = false := by
    intro p
    by_cases isIdle : p = idle
    · exact isIdle ▸ kept.awake idle rfl
    · simp only [State.has, boot, Function.update_of_ne isIdle]
      decide
  refine ⟨⟨?_, kept.nodup, ?_, rfl⟩, fun c _ => noTimer c⟩
  · exact countP_eq_zero.mpr fun p _ => by
      rw [noTimer p]
      exact Bool.false_ne_true
  · exact fun p isTimed => absurd ((noTimer p).symm.trans isTimed) Bool.false_ne_true

/-- The timer waiters are counted in every run whose sleeps meet the condition. -/
theorem timer_waiters_counted {idle : Addr} {calls : List Call} {final : State}
    (run : Steps (Guarded SchedStep timerConditions.Meets) (boot idle) calls final) :
    WaitersCounted final :=
  (ticking_preserved.run (boot_ticking idle) run).waitersCounted

/-- The first process sleeps for two ticks, of which one has passed, and its child goes on. -/
theorem timer_waiters_counted_sleep :
    ∃ final, Steps (Guarded SchedStep timerConditions.Meets) (boot 4096)
        [.fork 0 1 (some 8192) true, .sleep 2 1000, .tick 1] final ∧
      final.timerWaiters = 1 ∧ WaitersCounted final := by
  have run := Steps.refl.step (show Guarded SchedStep timerConditions.Meets (boot 4096)
    (.fork 0 1 (some 8192) true) _ from ⟨trivial, by decide, rfl⟩)
  have run := run.step (show Guarded SchedStep timerConditions.Meets _ (.sleep 2 1000) _ from by
    refine ⟨⟨⟨8192, by decide, by decide⟩, by decide, ?_⟩, by decide, rfl⟩
    intro c isCurrent
    obtain rfl := Option.some.inj isCurrent
    decide)
  have run := run.step (show Guarded SchedStep timerConditions.Meets _ (.tick 1) _ from
    ⟨trivial, by decide, rfl⟩)
  exact ⟨_, run, by decide, timer_waiters_counted run⟩

/-- The first process sleeps when nothing else can run: it loses the tag, and stays counted. -/
theorem sleeper_stays_counted :
    ∃ final, Steps SchedStep (boot 4096) [.sleep 2 1000] final ∧
      final.timerWaiters = 1 ∧ timerCount final = 0 ∧ ¬ WaitersCounted final := by
  refine ⟨_, steps_performAll (by decide), by decide, by decide, fun counted => ?_⟩
  exact absurd counted.count (by decide)

end M4KK1.Kernel
