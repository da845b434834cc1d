import M4KK1.Kernel.Runs

/-!
# No process is lost

Who is no zombie runs, is queued, or can still be queued; `keepConditions` keep this.
-/

namespace M4KK1.Kernel

open M4KK1.Lib List State

variable {s s' : State} {p q c : Addr} {Exempt Exempt' : Addr → Prop}

def stateWaitMask : BitVec 64 := 0x00007F00#64

/-- `p` sleeps with a wait tag, and the timer interrupt or `mkrn_process_wakeup` can queue it. -/
def HasWakeSource (s : State) (p : Addr) : Prop :=
  s.has p .schedSleeping = true ∧ (s.pcbs p).stateTags &&& stateWaitMask ≠ 0 ∧
    match (s.pcbs p).resume with
    | .inSleep => s.has p .waitTimer = true ∧ (s.pcbs p).sleepTicks ≠ 0 ∧
        s.timerWaiters ≠ 0 ∧ s.schedulerEnabled = true
    | .inBlock => True
    | _ => False

/-- Every registered process that is no zombie is current, queued, or has a source
of its wakeup. -/
def NoneLost (s : State) : Prop :=
  ∀ p ∈ s.allProcs, s.has p .zombie = false →
    s.current = some p ∨ p ∈ s.queued ∨ HasWakeSource s p

/-- The calls that switch, sleep, wake and terminate find the room that they need, and no one is
queued twice. A process that blocks gets no wait tag, so that it must go on or be queued already. -/
def keepConditions : Conditions where
  yield s := (∃ p ∈ s.queued, Runnable s p) → ∀ c, s.current = some c →
    s.has c .zombie = true ∨ c ∈ s.queued ∨
      s.has c .schedRunning = true ∧ s.ready.count < readyQueueSize
  block s := (∃ p ∈ s.queued, Runnable s p) → ∀ c, s.current = some c →
    s.has c .zombie = true ∨ c ∈ s.queued
  sleep s := s.timerWaiters ≠ -1
  wakeup s p := s.has p .schedSleeping = true → s.has p .waitTimer = true →
    s.has p .zombie = true ∨ s.ready.count < readyQueueSize
  terminate s p := s.has p .zombie = true ∨ s.current = some p ∨ p ∈ s.queued ∨
    processIsReady s (s.pcbs p).pid = false ∧ s.ready.count < readyQueueSize

def Waits (process : Process) : Prop :=
  hasTag process.stateTags .schedSleeping = true ∧
    process.resume = .inSleep ∧ hasTag process.stateTags .waitTimer = true ∧ process.sleepTicks ≠ 0

theorem waitMask_of_waitTimer {word : BitVec 64} (timed : hasTag word .waitTimer = true) :
    word &&& stateWaitMask ≠ 0 := by
  intro none_
  have timer : stateWaitMask &&& Tag.waitTimer.mask = Tag.waitTimer.mask := rfl
  rw [hasTag, ← timer, ← BitVec.and_assoc, none_] at timed
  cases timed

/-- The registered processes that carry the timer's tag. -/
def timerCount (s : State) : Nat := s.allProcs.countP fun p => s.has p .waitTimer

/-- Every process but the exempt ones is queued or waits, and the timer waiters are
counted. -/
structure Accounted (s : State) (Exempt : Addr → Prop) : Prop where
  held : ∀ p ∈ s.allProcs, s.has p .zombie = false → Exempt p ∨ p ∈ s.queued ∨ Waits (s.pcbs p)
  inSleep : ∀ p, s.has p .waitTimer = true → (s.pcbs p).resume = .inSleep
  counted : timerCount s ≤ s.timerWaiters.toNat
  nodup : s.allProcs.Nodup
  enabled : s.schedulerEnabled = true

/-- Only the current process is exempt between two steps. -/
structure Kept (s : State) : Prop extends Accounted s (fun p => s.current = some p) where
  awake : ∀ c, s.current = some c → s.has c .waitTimer = false
  parkedDead : s.parked = true → ∀ c, s.current = some c → s.has c .zombie = true

theorem Kept.noneLost (kept : Kept s) : NoneLost s := by
  intro p registered alive
  rcases kept.held p registered alive with isCurrent | queued | ⟨asleep, waits⟩
  · exact Or.inl isCurrent
  · exact Or.inr (Or.inl queued)
  · obtain ⟨inSleep, timed, armed⟩ := waits
    refine Or.inr (Or.inr ⟨asleep, waitMask_of_waitTimer timed, ?_⟩)
    rw [inSleep]
    refine ⟨timed, armed, ?_, kept.enabled⟩
    have positive : 0 < timerCount s :=
      countP_pos_iff.mpr ⟨p, registered, timed⟩
    intro zero
    have counted := kept.counted
    rw [zero] at counted
    exact absurd (Nat.lt_of_lt_of_le positive counted) (Nat.lt_irrefl 0)

theorem timerCount_edit (process : Process) (ready : ReadyQueue) (waiters : BitVec 32)
    (nodup : s.allProcs.Nodup) (member : p ∈ s.allProcs) :
    timerCount (s.edit p process ready waiters) + (s.has p .waitTimer).toNat =
      timerCount s + (hasTag process.stateTags .waitTimer).toNat := by
  have split := perm_cons_erase member
  have others : (s.allProcs.erase p).countP
      (fun q => (s.edit p process ready waiters).has q .waitTimer) =
      (s.allProcs.erase p).countP (fun q => s.has q .waitTimer) := by
    apply countP_congr
    intro q inRest
    rw [has_edit_of_ne]
    rintro rfl
    exact nodup.not_mem_erase inRest
  have after : timerCount (s.edit p process ready waiters) =
      s.allProcs.countP fun q => (s.edit p process ready waiters).has q .waitTimer := rfl
  rw [after, timerCount, split.countP_eq, split.countP_eq, countP_cons, countP_cons, others,
    has_edit_self]
  cases s.has p .waitTimer <;> cases hasTag process.stateTags .waitTimer <;> simp

theorem timerCount_edit_of_not_mem (process : Process) (ready : ReadyQueue) (waiters : BitVec 32)
    (unregistered : p ∉ s.allProcs) :
    timerCount (s.edit p process ready waiters) = timerCount s := by
  apply countP_congr
  intro q inAll
  rw [has_edit_of_ne]
  rintro rfl
  exact unregistered inAll

theorem timerCount_edit_le (process : Process) (ready : ReadyQueue) (waiters : BitVec 32)
    (nodup : s.allProcs.Nodup)
    (kept : hasTag process.stateTags .waitTimer = true → s.has p .waitTimer = true) :
    timerCount (s.edit p process ready waiters) ≤ timerCount s := by
  by_cases member : p ∈ s.allProcs
  · have changed := timerCount_edit process ready waiters nodup member
    have fewer : (hasTag process.stateTags .waitTimer).toNat ≤ (s.has p .waitTimer).toNat := by
      cases timed : hasTag process.stateTags .waitTimer with
      | false => exact Nat.zero_le _
      | true => exact Nat.le_of_eq (by rw [kept timed])
    omega
  · exact Nat.le_of_eq (timerCount_edit_of_not_mem process ready waiters member)

theorem timerCount_edit_le_succ (process : Process) (ready : ReadyQueue) (waiters : BitVec 32)
    (nodup : s.allProcs.Nodup) :
    timerCount (s.edit p process ready waiters) ≤ timerCount s + 1 := by
  by_cases member : p ∈ s.allProcs
  · have changed := timerCount_edit process ready waiters nodup member
    have atMost : (hasTag process.stateTags .waitTimer).toNat ≤ 1 := Bool.toNat_le _
    omega
  · rw [timerCount_edit_of_not_mem process ready waiters member]
    exact Nat.le_succ _

theorem timerCount_edit_leaves {process : Process} {ready : ReadyQueue} {waiters : BitVec 32}
    (nodup : s.allProcs.Nodup) (counted : timerCount s ≤ s.timerWaiters.toNat)
    (registered : p ∈ s.allProcs ∨ s.has p .waitTimer = false)
    (untimed : hasTag process.stateTags .waitTimer = false)
    (counts : waiters.toNat = s.timerWaiters.toNat - (if s.has p .waitTimer then 1 else 0)) :
    timerCount (s.edit p process ready waiters) ≤ waiters.toNat := by
  cases timed : s.has p .waitTimer with
  | false =>
    rw [timed, if_neg nofun, Nat.sub_zero] at counts
    rw [counts]
    refine Nat.le_trans (timerCount_edit_le process ready waiters nodup ?_) counted
    intro isTimed
    exact absurd (untimed.symm.trans isTimed) nofun
  | true =>
    have member := registered.resolve_right (by rw [timed]; nofun)
    have changed := timerCount_edit process ready waiters nodup member
    rw [timed, if_pos rfl] at counts
    rw [timed, untimed, Bool.toNat_true, Bool.toNat_false] at changed
    omega

namespace Accounted

theorem weaken (accounted : Accounted s Exempt)
    (held : ∀ p, Exempt p → p ∈ s.allProcs → s.has p .zombie = false →
      Exempt' p ∨ p ∈ s.queued ∨ Waits (s.pcbs p)) : Accounted s Exempt' := by
  refine { accounted with held := ?_ }
  intro p registered alive
  rcases accounted.held p registered alive with exempt | isHeld
  · exact held p exempt registered alive
  · exact Or.inr isHeld

theorem untouched (same : Untouched s s') (accounted : Accounted s Exempt) :
    Accounted s' Exempt := by
  obtain ⟨held, inSleep, counted, nodup, enabled⟩ := accounted
  refine ⟨?_, ?_, ?_, ?_, ?_⟩
  · intro p registered alive
    rw [same.allProcs] at registered
    rw [same.has] at alive
    rw [State.queued, same.ready, Waits, same.stateTags, same.sleepTicks, same.resume]
    exact held p registered alive
  · intro p timed
    rw [same.has] at timed
    rw [same.resume]
    exact inSleep p timed
  · rw [timerCount, same.allProcs, same.timerWaiters]
    simp only [same.has]
    exact counted
  · rwa [same.allProcs]
  · rwa [same.schedulerEnabled]

section

variable (accounted : Accounted s Exempt)

include accounted

theorem edit {process : Process} {ready : ReadyQueue} {waiters : BitVec 32}
    (queue : ∀ q ∈ s.queued, q ∈ ready.contents)
    (others : ∀ q, q ≠ p → Exempt q → Exempt' q)
    (held : p ∈ s.allProcs → hasTag process.stateTags .zombie = false →
      Exempt' p ∨ p ∈ ready.contents ∨ Waits process)
    (inSleep : hasTag process.stateTags .waitTimer = true → process.resume = .inSleep)
    (counted : timerCount (s.edit p process ready waiters) ≤ waiters.toNat) :
    Accounted (s.edit p process ready waiters) Exempt' := by
  refine ⟨?_, ?_, counted, accounted.nodup, accounted.enabled⟩
  · intro q isRegistered alive
    by_cases isP : q = p
    · subst isP
      rw [has_edit_self] at alive
      rw [pcbs_edit_self]
      exact held isRegistered alive
    · rw [has_edit_of_ne _ _ _ isP] at alive
      rw [pcbs_edit_of_ne _ _ _ isP]
      rcases accounted.held q isRegistered alive with exempt | queued | waits
      · exact Or.inl (others q isP exempt)
      · exact Or.inr (Or.inl (queue q queued))
      · exact Or.inr (Or.inr waits)
  · intro q timed
    by_cases isP : q = p
    · subst isP
      rw [has_edit_self] at timed
      rw [pcbs_edit_self]
      exact inSleep timed
    · rw [has_edit_of_ne _ _ _ isP] at timed
      rw [pcbs_edit_of_ne _ _ _ isP]
      exact accounted.inSleep q timed

theorem register (unregistered : p ∉ s.allProcs)
    (queued : p ∈ s.queued) (untimed : s.has p .waitTimer = false) :
    Accounted { s with allProcs := p :: s.allProcs } Exempt := by
  refine ⟨?_, accounted.inSleep, ?_, nodup_cons.mpr ⟨unregistered, accounted.nodup⟩,
    accounted.enabled⟩
  · intro q registered alive
    rcases mem_cons.mp registered with rfl | inAll
    · exact Or.inr (Or.inl queued)
    · exact accounted.held q inAll alive
  · have same : timerCount { s with allProcs := p :: s.allProcs } = timerCount s :=
      countP_cons_of_neg (by rw [Bool.not_eq_true]; exact untimed)
    rw [same]
    exact accounted.counted

theorem reaps (reaps : Reaps s s') (exempt : ∀ p, Exempt p → s'.has p .zombie = false → Exempt' p)
    (queue : ∀ p ∈ s.queued, s'.has p .zombie = false → Exempt' p ∨ p ∈ s'.queued) :
    Accounted s' Exempt' := by
  refine ⟨?_, ?_, ?_, ?_, ?_⟩
  · intro p registered alive
    rw [reaps.allProcs] at registered
    have alive' : s.has p .zombie = false := by rw [← reaps.live alive, alive]
    rcases accounted.held p registered alive' with isExempt | queued | ⟨asleep, waits⟩
    · exact Or.inl (exempt p isExempt alive)
    · exact or_assoc.mp (Or.inl (queue p queued alive))
    · refine Or.inr (Or.inr ⟨(reaps.live alive .schedSleeping).trans asleep, ?_⟩)
      have sameTimer : hasTag (s'.pcbs p).stateTags .waitTimer =
        hasTag (s.pcbs p).stateTags .waitTimer := reaps.live alive .waitTimer
      rw [reaps.resume, reaps.sleepTicks, sameTimer]
      exact waits
  · intro p timed
    rw [reaps.waitTimer] at timed
    rw [reaps.resume]
    exact accounted.inSleep p timed
  · rw [timerCount, reaps.allProcs, reaps.timerWaiters]
    simp only [reaps.waitTimer]
    exact accounted.counted
  · rw [reaps.allProcs]
    exact accounted.nodup
  · rw [reaps.schedulerEnabled]
    exact accounted.enabled

theorem scan {next : Option Addr} (scan : Scan s s' next) :
    Accounted s' fun p => Exempt p ∨ next = some p := by
  apply accounted.reaps scan.reaps
  · exact fun p exempt _ => Or.inl exempt
  · intro p queued alive
    rcases scan.kept p queued with stays | dead
    · rcases mem_append.mp stays with chosen | inQueue
      · exact Or.inl (Or.inr (Option.mem_toList.mp chosen))
      · exact Or.inr inQueue
    · exact absurd (alive.symm.trans dead) nofun

theorem switchTo (only : ∀ q, Exempt q → q = p) : Accounted (switchTo s p) fun q => q = p := by
  obtain ⟨word, isSwitched, tags⟩ := switchTo_spec s p
  rw [isSwitched]
  have sameTimer : hasTag word .waitTimer = s.has p .waitTimer := by simp [tags]
  have edited : Accounted
      (s.edit p { s.pcbs p with stateTags := word } s.ready s.timerWaiters) fun q => q = p := by
    apply accounted.edit (fun _ member => member) (fun q _ exempt => only q exempt)
    · exact fun _ _ => Or.inl rfl
    · intro timed
      exact accounted.inSleep p (sameTimer.symm.trans timed)
    · refine Nat.le_trans (timerCount_edit_le _ _ _ accounted.nodup ?_) accounted.counted
      exact fun timed => sameTimer.symm.trans timed
  exact { edited with }

end

theorem resume (accounted : Accounted s fun q => q = c) (isCurrent : s.current = some c)
    (running : s.parked = false) : Kept (resumeCurrent s) := by
  obtain ⟨word, point, isResumed, tags⟩ :=
    resumeCurrent_spec isCurrent (accounted.inSleep c)
  have untimed : hasTag word .waitTimer = false := by simp [tags]
  rw [isResumed]
  refine ⟨?_, ?_, ?_⟩
  · apply accounted.edit (fun _ member => member)
    · intro q other isC
      exact absurd isC other
    · exact fun _ _ => Or.inl isCurrent
    · intro timed
      rw [untimed] at timed
      exact nomatch timed
    · refine Nat.le_trans (timerCount_edit_le _ _ _ accounted.nodup ?_) accounted.counted
      intro timed
      rw [untimed] at timed
      exact nomatch timed
  · intro other isOther
    obtain rfl := Option.some.inj (isCurrent.symm.trans isOther)
    rw [has_edit_self, untimed]
  · intro isParked
    exact nomatch running.symm.trans isParked

theorem picked {result : State} (accounted : Accounted s Exempt) (picked : Picked s result)
    (isCurrent : s.current = some c) (running : s.parked = false)
    (only : ∀ q, Exempt q → q = c ∧ ∀ n ∈ s.queued, Runnable s n → n = c) : Kept result := by
  obtain ⟨s', next, scan, ⟨rfl, rfl, -⟩ | ⟨chosen, switched, rfl, runnable, same, rfl, -⟩⟩ := picked
  · apply Accounted.resume (c := c) _ (scan.reaps.current.trans isCurrent)
      (scan.reaps.parked.trans running)
    apply (accounted.scan scan).weaken
    rintro q (exempt | isNext) _ _
    · exact Or.inl (only q exempt).1
    · exact nomatch isNext
  · have inQueue : chosen ∈ s.queued :=
      scan.subperm.subset (mem_append_left _ (Option.mem_toList.mpr rfl))
    have wasRunnable := scan.reaps.runnable runnable
    apply Accounted.resume (c := chosen) _ same.current (same.parked.trans _)
    · apply Accounted.untouched same
      apply (accounted.scan scan).switchTo
      rintro q (exempt | isNext)
      · obtain ⟨isC, others⟩ := only q exempt
        rw [isC, others chosen inQueue wasRunnable]
      · exact (Option.some.inj isNext).symm
    · exact scan.reaps.parked.trans running

theorem handOver (accounted : Accounted s fun _ => False)
    (awake : ∀ c, s.current = some c → s.has c .waitTimer = false)
    (dead : ∀ c, s.current = some c → s.has c .zombie = true) : Kept (handOver s) := by
  have scan : Scan s (processDequeueLive s).1 (processDequeueLive s).2 := dequeueLiveLoop_scan _ s
  rw [Kernel.handOver]
  revert scan
  obtain ⟨s', next⟩ := processDequeueLive s
  intro scan
  have reaps : Reaps s s' := scan.reaps
  cases next with
  | none =>
    have rest : Accounted s' fun p => s'.current = some p :=
      (accounted.scan scan).weaken fun p exempt => exempt.elim False.elim nofun
    refine ⟨{ rest with }, ?_, ?_⟩
    · intro c isCurrent
      exact (reaps.waitTimer c).trans (awake c (reaps.current.symm.trans isCurrent))
    · intro _ c isCurrent
      exact reaps.zombie (dead c (reaps.current.symm.trans isCurrent))
  | some chosen =>
    have switched : Accounted (Kernel.switchTo s' chosen) fun q => q = chosen :=
      (accounted.scan scan).switchTo fun q exempt =>
        exempt.elim False.elim fun isNext => (Option.some.inj isNext).symm
    have unparked : Accounted { Kernel.switchTo s' chosen with parked := false } fun q =>
        q = chosen :=
      { switched with }
    exact unparked.resume rfl rfl

end Accounted

namespace Kept

theorem untouched (same : Untouched s s') (kept : Kept s) : Kept s' := by
  refine ⟨?_, ?_, ?_⟩
  · rw [same.current]
    exact kept.toAccounted.untouched same
  · intro c isCurrent
    rw [same.has]
    exact kept.awake c (same.current.symm.trans isCurrent)
  · intro isParked c isCurrent
    rw [same.has]
    exact kept.parkedDead (same.parked.symm.trans isParked) c (same.current.symm.trans isCurrent)

variable {process : Process}

theorem edit {ready : ReadyQueue} {waiters : BitVec 32} (kept : Kept s)
    (queue : ∀ q ∈ s.queued, q ∈ ready.contents)
    (zombie : hasTag process.stateTags .zombie = s.has p .zombie)
    (held : p ∈ s.allProcs → s.has p .zombie = false →
      s.current = some p ∨ p ∈ ready.contents ∨ Waits process)
    (timed : hasTag process.stateTags .waitTimer = true →
      process.resume = .inSleep ∧ s.current ≠ some p)
    (counted : timerCount (s.edit p process ready waiters) ≤ waiters.toNat) :
    Kept (s.edit p process ready waiters) := by
  refine ⟨?_, ?_, ?_⟩
  · apply kept.toAccounted.edit queue
    · exact fun _ _ isCurrent => isCurrent
    · exact fun registered alive => held registered (zombie.symm.trans alive)
    · exact fun isTimed => (timed isTimed).1
    · exact counted
  · intro c isCurrent
    by_cases isP : c = p
    · subst isP
      rw [has_edit_self]
      exact Bool.eq_false_iff.mpr fun isTimed => (timed isTimed).2 isCurrent
    · rw [has_edit_of_ne _ _ _ isP]
      exact kept.awake c isCurrent
  · intro isParked c isCurrent
    have dead := kept.parkedDead isParked c isCurrent
    by_cases isP : c = p
    · subst isP
      rw [has_edit_self, zombie, dead]
    · rw [has_edit_of_ne _ _ _ isP, dead]

theorem yield {point : Resume} (kept : Kept s) (cpu : HasCpu s) (meets : keepConditions.yield s) :
    Kept (processYield s point) := by
  obtain ⟨running, c, isCurrent⟩ := cpu
  have picked : Picked (suspend s c point) (processYield s point) :=
    processYield_picked kept.enabled isCurrent
  obtain ⟨word, ready, isSuspended, suspended⟩ := suspend_spec s c point
  have untimed : hasTag word .waitTimer = false := by
    have before := kept.awake c isCurrent
    rcases suspended with ⟨-, rfl, -⟩ | ⟨-, -, tags⟩
    · exact before
    · simp [tags, before]
  have sameZombie : hasTag word .zombie = s.has c .zombie := by
    rcases suspended with ⟨-, rfl, -⟩ | ⟨-, -, tags⟩
    · rfl
    · simp [tags]
  have queue : ∀ q ∈ s.queued, q ∈ ready.contents := by
    rcases suspended with ⟨-, -, rfl⟩ | ⟨-, enqueued, -⟩
    · exact fun _ member => member
    · exact fun _ member => enqueued.subset member
  have newEntry : ∀ q ∈ ready.contents, q ≠ c → q ∈ s.queued := by
    intro q member other
    rcases suspended with ⟨-, -, rfl⟩ | ⟨-, enqueued, -⟩
    · exact member
    · exact (enqueued.mem member).resolve_right fun isC => other isC.1
  rw [isSuspended] at picked
  generalize isS : s.edit c { s.pcbs c with stateTags := word, resume := point } ready
    s.timerWaiters = suspendedState at picked
  -- The current process is held, or it is the only one that the search can choose.
  have accounted : Accounted suspendedState
      fun q => q = c ∧ ∀ n ∈ suspendedState.queued, Runnable suspendedState n → n = c := by
    subst isS
    apply kept.toAccounted.edit queue
    · intro q other isQ
      exact absurd (Option.some.inj (isQ.symm.trans isCurrent)) other
    · intro registered alive
      by_cases exists' : ∃ p ∈ s.queued, Runnable s p
      · rcases meets exists' c isCurrent with dead | queued | ⟨isRunning, room⟩
        · exact absurd (dead.symm.trans (sameZombie.symm.trans alive)) (by decide)
        · exact Or.inr (Or.inl (queue c queued))
        · rcases suspended with ⟨notRunning, -⟩ | ⟨-, ⟨-, appended⟩ | ⟨full, -⟩, -⟩
          · exact absurd (isRunning.symm.trans notRunning) (by decide)
          · rw [appended]
            exact Or.inr (Or.inl (mem_append_right _ mem_cons_self))
          · omega
      · refine Or.inl ⟨rfl, ?_⟩
        intro n member runnable
        by_contra other
        refine exists' ⟨n, newEntry n member other, ?_⟩
        rwa [Runnable, has_edit_of_ne _ _ _ other, has_edit_of_ne _ _ _ other,
          has_edit_of_ne _ _ _ other] at runnable
    · intro timed
      exact absurd (untimed.symm.trans timed) (by decide)
    · refine Nat.le_trans (timerCount_edit_le _ _ _ kept.nodup ?_) kept.counted
      intro timed
      exact absurd (untimed.symm.trans timed) (by decide)
  subst isS
  exact accounted.picked picked isCurrent running fun q exempt => exempt

theorem goesToSleep (kept : Kept s) (cpu : HasCpu s) (isCurrent : s.current = some c)
    (process : Process) (waiters : BitVec 32) (point : Resume)
    (stopped : hasTag process.stateTags .schedRunning = false)
    (held : (∃ p ∈ s.queued, Runnable s p) → hasTag process.stateTags .zombie = false →
      c ∈ s.queued ∨ Waits { process with resume := point })
    (timed : hasTag process.stateTags .waitTimer = true → point = .inSleep)
    (counted : timerCount (s.edit c { process with resume := point } s.ready waiters) ≤
      waiters.toNat) :
    Kept (processYield (s.edit c process s.ready waiters) point) := by
  have picked : Picked (suspend (s.edit c process s.ready waiters) c point)
      (processYield (s.edit c process s.ready waiters) point) :=
    processYield_picked kept.enabled isCurrent
  obtain ⟨word, ready, isSuspended, ⟨-, rfl, rfl⟩ | ⟨isRunning, -⟩⟩ :=
    suspend_spec (s.edit c process s.ready waiters) c point
  · rw [isSuspended, pcbs_edit_self, edit_edit] at picked
    generalize isS : s.edit c { process with resume := point } s.ready waiters = asleep at picked
    have accounted : Accounted asleep
        fun q => q = c ∧ ∀ n ∈ asleep.queued, Runnable asleep n → n = c := by
      subst isS
      apply kept.toAccounted.edit (fun _ member => member)
      · intro q other isQ
        exact absurd (Option.some.inj (isQ.symm.trans isCurrent)) other
      · intro _ alive
        by_cases others : ∃ p ∈ s.queued, Runnable s p
        · exact .inr (held others alive)
        · refine .inl ⟨rfl, fun n member runnable => ?_⟩
          by_contra other
          refine others ⟨n, member, ?_⟩
          rwa [Runnable, has_edit_of_ne _ _ _ other, has_edit_of_ne _ _ _ other,
            has_edit_of_ne _ _ _ other] at runnable
      · exact timed
      · exact counted
    subst isS
    exact accounted.picked picked isCurrent cpu.1 fun q exempt => exempt
  · rw [has_edit_self, stopped] at isRunning
    cases isRunning

theorem block (kept : Kept s) (cpu : HasCpu s) (meets : keepConditions.block s) :
    Kept (processBlock s) := by
  obtain ⟨running, c, isCurrent⟩ := id cpu
  have untimed : hasTag (s.pcbs c).stateTags .waitTimer = false := kept.awake c isCurrent
  rw [processBlock_eq isCurrent]
  apply kept.goesToSleep cpu isCurrent
  · simp
  · intro others alive
    refine (meets others c isCurrent).elim (fun dead => ?_) Or.inl
    simp only [State.has] at dead
    simp [dead] at alive
  · simp [untimed]
  · refine Nat.le_trans (timerCount_edit_le _ _ _ kept.nodup ?_) kept.counted
    simp [untimed]

theorem sleepTicksFor_ne_zero (ms freq : BitVec 32) : sleepTicksFor ms freq ≠ 0 := by
  have atLeastOne : ∀ ticks : BitVec 32, (if ticks = 0#32 then 1#32 else ticks) ≠ 0 := by
    intro ticks
    split
    · decide
    · assumption
  exact atLeastOne _

section

variable (kept : Kept s)

include kept

theorem sleep (cpu : HasCpu s) {ms freq : BitVec 32} (notZero : ms ≠ 0#32)
    (meets : keepConditions.sleep s) : Kept (processSleep s ms freq) := by
  obtain ⟨running, c, isCurrent⟩ := id cpu
  have noWrap : (s.timerWaiters + 1#32).toNat = s.timerWaiters.toNat + 1 := by
    have notMax : s.timerWaiters ≠ -1 := meets
    bv_omega
  rw [processSleep_eq kept.enabled isCurrent notZero]
  apply kept.goesToSleep cpu isCurrent
  · simp
  · exact fun _ _ => .inr ⟨by simp, rfl, by simp, sleepTicksFor_ne_zero ms freq⟩
  · exact fun _ => rfl
  · rw [noWrap]
    exact Nat.le_trans (timerCount_edit_le_succ _ _ _ kept.nodup) (Nat.succ_le_succ kept.counted)

theorem wakeup (registered : p ∈ s.allProcs) (meets : keepConditions.wakeup s p) :
    Kept (processWakeup s p) := by
  by_cases asleep : s.has p .schedSleeping = true
  · obtain ⟨word, ready, waiters, done, counts, queued⟩ := processWakeup_spec asleep
    have sameZombie : hasTag word .zombie = s.has p .zombie := by
      rcases queued with ⟨-, -, tags⟩ | ⟨-, -, tags⟩ <;> simp [tags]
    have untimed : hasTag word .waitTimer = false := by
      rcases queued with ⟨-, -, tags⟩ | ⟨-, -, tags⟩ <;> simp [tags]
    rw [done]
    apply kept.edit
    · rcases queued with ⟨-, appended, -⟩ | ⟨-, rfl, -⟩
      · intro q member
        rw [appended]
        exact mem_append_left _ member
      · exact fun _ member => member
    · exact sameZombie
    · intro _ alive
      rcases queued with ⟨-, appended, -⟩ | ⟨full, rfl, tags⟩
      · rw [appended]
        exact Or.inr (Or.inl (mem_append_right _ mem_cons_self))
      · rcases kept.held p registered alive with isCurrent | inQueue | ⟨-, waits⟩
        · exact Or.inl isCurrent
        · exact Or.inr (Or.inl inQueue)
        · rcases meets asleep waits.2.1 with dead | room
          · exact absurd (dead.symm.trans alive) nofun
          · omega
    · intro timed
      exact absurd (untimed.symm.trans timed) nofun
    · exact timerCount_edit_leaves kept.nodup kept.counted (Or.inl registered) untimed counts
  · rw [processWakeup, if_neg asleep]
    exact kept

theorem tickOne (registered : p ∈ s.allProcs) : Kept (timerTickOne s p) := by
  by_cases due : s.has p .schedSleeping = true ∧ s.has p .waitTimer = true ∧
      (s.pcbs p).sleepTicks ≠ 0
  · obtain ⟨process, ready, waiters, done, sameResume, outcome⟩ := timerTickOne_spec due
    have inSleep := kept.inSleep p due.2.1
    have notCurrent : s.current ≠ some p := fun isCurrent =>
      absurd ((kept.awake p isCurrent).symm.trans due.2.1) nofun
    have before := kept.counted
    have some : 0 < timerCount s := countP_pos_iff.mpr ⟨p, registered, due.2.1⟩
    have changed := timerCount_edit process ready waiters kept.nodup registered
    rw [due.2.1, Bool.toNat_true] at changed
    rw [done]
    rcases outcome with ⟨sameTags, armed, rfl, rfl⟩ | ⟨room, appended, counts, tags⟩ |
        ⟨full, armed, rfl, ⟨dropped, counts, rfl⟩, tags⟩
    · have sameTag : ∀ tag, hasTag process.stateTags tag = s.has p tag := fun tag => by
        rw [sameTags, State.has]
      apply kept.edit (fun _ member => member) (sameTag _)
      · refine fun _ _ => Or.inr (Or.inr ⟨(sameTag _).trans due.1, ?_⟩)
        exact ⟨sameResume.trans inSleep, (sameTag _).trans due.2.1, armed⟩
      · exact fun _ => ⟨sameResume.trans inSleep, notCurrent⟩
      · rw [sameTag, due.2.1, Bool.toNat_true] at changed
        omega
    · have untimed : hasTag process.stateTags .waitTimer = false := by simp [tags]
      apply kept.edit
      · intro q member
        rw [appended]
        exact mem_append_left _ member
      · simp [tags]
      · rw [appended]
        exact fun _ _ => Or.inr (Or.inl (mem_append_right _ mem_cons_self))
      · intro timed
        exact absurd (untimed.symm.trans timed) nofun
      · rw [untimed, Bool.toNat_false] at changed
        omega
    · have timed : hasTag process.stateTags .waitTimer = true := by simp [tags, due.2.1]
      apply kept.edit (fun _ member => member)
      · simp [tags]
      · refine fun _ _ => Or.inr (Or.inr ⟨by simp [tags, due.1], ?_⟩)
        exact ⟨sameResume.trans inSleep, timed, armed⟩
      · exact fun _ => ⟨sameResume.trans inSleep, notCurrent⟩
      · rw [timed, Bool.toNat_true] at changed
        have restored : (dropped + 1#32).toNat = s.timerWaiters.toNat := by
          have bounded := s.timerWaiters.isLt
          bv_omega
        omega
  · rw [timerTickOne, if_neg due]
    exact kept

theorem exit (isCurrent : s.current = some c) : Kept (handOver (processReap s c)) := by
  obtain ⟨reaps, isQueue, dead, others⟩ := processReap_spec s c
  have isDead : ∀ d, (processReap s c).current = some d → d = c := by
    intro d isD
    rw [reaps.current, isCurrent] at isD
    exact (Option.some.inj isD).symm
  apply Accounted.handOver
  · apply kept.toAccounted.reaps reaps
    · intro p isP alive
      obtain rfl := Option.some.inj (isP.symm.trans isCurrent)
      exact absurd (alive.symm.trans dead) nofun
    · intro p queued alive
      rw [isQueue]
      refine Or.inr ((mem_erase_of_ne ?_).mpr queued)
      rintro rfl
      exact absurd (alive.symm.trans dead) nofun
  · intro d isD
    rw [isDead d isD, reaps.waitTimer]
    exact kept.awake c isCurrent
  · intro d isD
    rw [isDead d isD, dead]

theorem probe (parked : s.parked = true) : Kept (handOver s) := by
  apply Accounted.handOver
  · apply kept.toAccounted.weaken
    intro p isCurrent _ alive
    exact absurd (alive.symm.trans (kept.parkedDead parked p isCurrent)) nofun
  · exact kept.awake
  · exact kept.parkedDead parked

theorem free (p : Addr) : Kept (procFreeZombie s p) := by
  refine ⟨⟨?_, kept.inSleep, ?_, kept.nodup.erase p, kept.enabled⟩, kept.awake, kept.parkedDead⟩
  · intro q registered alive
    exact kept.held q (mem_of_mem_erase registered) alive
  · refine Nat.le_trans ?_ kept.counted
    exact (erase_sublist).countP_le

theorem leave : Kept (leaveWaitpid s) := by
  rw [leaveWaitpid]
  split
  · exact kept
  · rename_i c isCurrent
    have untimed : s.has c .waitTimer = false := kept.awake c isCurrent
    rw [modify_eq_edit]
    apply kept.edit (fun _ member => member)
    · rfl
    · exact fun _ _ => Or.inl isCurrent
    · intro timed
      exact absurd (untimed.symm.trans timed) nofun
    · exact Nat.le_trans (timerCount_edit_le _ _ _ kept.nodup fun timed => timed) kept.counted

theorem terminated {ready : ReadyQueue} {waiters : BitVec 32}
    (isFound : p ∈ s.allProcs ∨ s.current = some p) (meets : keepConditions.terminate s p)
    (terminated : Terminated s p process ready waiters) :
    Kept (s.edit p process ready waiters) := by
  have untimed : hasTag process.stateTags .waitTimer = false := by
    rw [terminated.tags .waitTimer nofun]
    simp
  have queue : ∀ q ∈ s.queued, q ∈ ready.contents := by
    rcases terminated.queue with ⟨-, rfl⟩ | ⟨-, enqueued⟩
    · exact fun _ member => member
    · exact fun _ member => enqueued.subset member
  apply kept.edit queue
  · rw [terminated.tags .zombie nofun]
    simp
  · intro _ alive
    rcases meets with dead | isCurrent | queued | ⟨notReady, room⟩
    · exact absurd (dead.symm.trans alive) nofun
    · exact Or.inl isCurrent
    · exact Or.inr (Or.inl (queue p queued))
    · rcases terminated.queue with ⟨isReady, -⟩ | ⟨-, ⟨-, appended⟩ | ⟨full, -⟩⟩
      · exact absurd (notReady.symm.trans isReady) nofun
      · rw [appended]
        exact Or.inr (Or.inl (mem_append_right _ mem_cons_self))
      · omega
  · intro timed
    exact absurd (untimed.symm.trans timed) nofun
  · exact timerCount_edit_leaves kept.nodup kept.counted (isFound.imp_right (kept.awake p)) untimed
      terminated.waiters

theorem signalled {sig : Int}
    (signalled : Signalled s p sig process) : Kept (s.edit p process s.ready s.timerWaiters) := by
  have sameTimer : hasTag process.stateTags .waitTimer = s.has p .waitTimer :=
    signalled.tags .waitTimer nofun nofun
  have sameSleep : hasTag process.stateTags .schedSleeping = s.has p .schedSleeping :=
    signalled.tags .schedSleeping nofun nofun
  apply kept.edit (fun _ member => member) (signalled.tags .zombie nofun nofun)
  · intro registered alive
    rw [Waits, sameSleep, sameTimer, signalled.resume, signalled.sleepTicks]
    exact kept.held p registered alive
  · intro timed
    rw [sameTimer] at timed
    refine ⟨signalled.resume.trans (kept.inSleep p timed), fun isCurrent => ?_⟩
    exact absurd ((kept.awake p isCurrent).symm.trans timed) nofun
  · refine Nat.le_trans (timerCount_edit_le _ _ _ kept.nodup ?_) kept.counted
    exact fun timed => sameTimer.symm.trans timed

theorem fork (cpu : HasCpu s) (inheritMask : BitVec 64) (flags : BitVec 32)
    (pcb : Option Addr) (kstack : Bool) (fresh : ∀ child, pcb = some child → child ∉ s.allProcs) :
    Kept (forkStatus s inheritMask flags pcb kstack).1 := by
  rcases forkStatus_cases s inheritMask flags pcb kstack with
    unchanged | ⟨child, parent, isPcb, isCurrent, allowed, isFork⟩
  · rw [unchanged]
    exact kept
  · rw [isFork]
    obtain ⟨process, isResume, noZombie, inherits, outcome⟩ :=
      forkChild_spec s parent child kstack allowed
    have unregistered := fresh child isPcb
    have untimed : hasTag process.stateTags .waitTimer = false := by
      rw [Bool.eq_false_iff]
      intro timed
      exact absurd ((kept.awake parent isCurrent).symm.trans (inherits timed)) nofun
    have awake : ∀ ready c, s.current = some c →
        (s.edit child process ready s.timerWaiters).has c .waitTimer = false := by
      intro ready c isC
      by_cases isChild : c = child
      · rw [isChild, has_edit_self, untimed]
      · rw [has_edit_of_ne _ _ _ isChild]
        exact kept.awake c isC
    have accounted : ∀ ready : ReadyQueue, (∀ q ∈ s.queued, q ∈ ready.contents) →
        Accounted (s.edit child process ready s.timerWaiters) fun p => s.current = some p := by
      intro ready queue
      apply kept.toAccounted.edit queue
      · exact fun _ _ isQ => isQ
      · exact fun registered => absurd registered unregistered
      · intro timed
        exact absurd (untimed.symm.trans timed) nofun
      · rw [timerCount_edit_of_not_mem _ _ _ unregistered]
        exact kept.counted
    rcases outcome with ⟨same, -⟩ | ⟨ready, -, appended, same, -⟩
    · apply Kept.untouched same
      refine ⟨accounted s.ready fun _ member => member, awake s.ready, ?_⟩
      exact fun isParked => absurd (cpu.1.symm.trans isParked) nofun
    · apply Kept.untouched same
      have queued : child ∈ ready.contents := by
        rw [appended]
        exact mem_append_right _ mem_cons_self
      have registered := (accounted ready fun q member => by
        rw [appended]
        exact mem_append_left _ member).register unregistered queued
          (by rw [has_edit_self, untimed])
      refine ⟨{ registered with }, awake ready, ?_⟩
      exact fun isParked => absurd (cpu.1.symm.trans isParked) nofun

end

end Kept

theorem kept_preserved : Preserved Kept keepConditions where
  stable same meets := by
    simp only [keepConditions, Runnable, same.has, State.queued, same.ready, same.current]
    exact meets
  untouched same _ := Kept.untouched same
  yield _ kept cpu meets := kept.yield cpu meets
  block kept cpu meets := kept.block cpu meets
  sleep _ _ kept cpu notZero meets := kept.sleep cpu notZero meets
  wakeup kept registered meets := kept.wakeup registered meets
  tickOne kept registered := kept.tickOne registered
  exit kept _ isCurrent := kept.exit isCurrent
  probe kept parked := kept.probe parked
  fork inheritMask flags pcb kstack kept cpu fresh :=
    kept.fork cpu inheritMask flags pcb kstack fresh
  free kept _ _ := kept.free _
  leave kept := kept.leave
  terminated kept _ isFound meets terminated := kept.terminated isFound meets terminated
  signalled kept signalled := kept.signalled signalled

theorem boot_kept (idle : Addr) : Kept (boot idle) := by
  have noTimer : ∀ p, (boot idle).has p .waitTimer = false := by
    intro p
    by_cases isIdle : p = idle
    · subst isIdle
      simp only [State.has, boot, Function.update_self]
      decide
    · simp only [State.has, boot, Function.update_of_ne isIdle]
      decide
  refine ⟨⟨?_, ?_, ?_, by simp [boot], rfl⟩, fun c _ => noTimer c, Bool.false_ne_true.elim⟩
  · intro p registered _
    rw [mem_singleton.mp registered]
    exact Or.inl rfl
  · intro p timed
    exact absurd ((noTimer p).symm.trans timed) Bool.false_ne_true
  · have none : timerCount (boot idle) = 0 := countP_eq_zero.mpr fun p _ => by
      rw [noTimer p]
      exact Bool.false_ne_true
    rw [none]
    exact Nat.zero_le _

/-- In every run from the first switch on whose steps meet the conditions, no
process is lost. -/
theorem none_lost {idle : Addr} {calls : List Call} {final : State}
    (run : Steps (Guarded SchedStep keepConditions.Meets) (boot idle) calls final) :
    NoneLost final :=
  (kept_preserved.run (boot_kept idle) run).noneLost

/-- The parent yields to its child, which sleeps for five milliseconds. -/
theorem none_lost_fork_sleep :
    ∃ final, Steps (Guarded SchedStep keepConditions.Meets) (boot 4096)
        [.fork 0 1 (some 8192) true, .yield, .sleep 5 1000] final ∧
      final.current = some 4096 ∧ final.has 8192 .waitTimer = true ∧ NoneLost final := by
  have run := Steps.refl.step (show Guarded SchedStep keepConditions.Meets (boot 4096)
    (.fork 0 1 (some 8192) true) _ from ⟨trivial, by decide, rfl⟩)
  have run := run.step (show Guarded SchedStep keepConditions.Meets _ .yield _ from by
    refine ⟨?_, by decide, rfl⟩
    intro _ c isCurrent
    obtain rfl := Option.some.inj isCurrent
    exact Or.inr (Or.inr (by decide)))
  have run := run.step (show Guarded SchedStep keepConditions.Meets _ (.sleep 5 1000) _ from by
    refine ⟨?_, by decide, rfl⟩
    rw [Conditions.Meets, if_neg (by decide)]
    change State.timerWaiters _ ≠ -1
    decide)
  exact ⟨_, run, by decide, by decide, none_lost run⟩

/-- Sixty-four children fill the ready queue; the next yield of their parent drops it. -/
theorem process_lost :
    ∃ final, Steps SchedStep (boot 4096)
        ((List.range 64).map (fun i => .fork 0 1 (some (8192 + i)) true) ++ [.yield]) final ∧
      ¬ NoneLost final := by
  refine ⟨_, steps_performAll (by decide +kernel), fun noneLost => ?_⟩
  rcases noneLost 4096 (by decide +kernel) (by decide +kernel) with isCurrent | queued | ⟨asleep, -⟩
  · exact absurd isCurrent (by decide +kernel)
  · exact absurd queued (by decide +kernel)
  · exact absurd asleep (by decide +kernel)

end M4KK1.Kernel
