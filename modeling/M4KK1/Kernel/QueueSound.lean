import M4KK1.Kernel.Runs

/-!
# The ready queue is sound

It holds no process twice, nor the current one, a zombie or a freed block (`soundConditions`).
-/

namespace M4KK1.Kernel

open M4KK1.Lib List State

variable {s s' : State} {p q c : Addr}

/-- The queued processes are distinct, registered, not current and no zombies. -/
structure QueueSound (s : State) : Prop where
  nodup : s.queued.Nodup
  notCurrent : ∀ c, s.current = some c → c ∉ s.queued
  live : ∀ p ∈ s.queued, s.has p .zombie = false
  unfreed : ∀ p ∈ s.queued, p ∈ s.allProcs

/-- Yielding, waking and terminating put no process into the queue that must not be there. -/
def soundConditions : Conditions where
  yield s := ∀ c, s.current = some c → s.has c .schedRunning = true → s.has c .stopped = true →
    s.ready.count < readyQueueSize → ∃ p ∈ s.queued, Runnable s p
  sleep _ := True
  wakeup s p := s.has p .schedSleeping = true → s.ready.count < readyQueueSize →
    s.current ≠ some p ∧ p ∉ s.queued ∧ s.has p .zombie = false
  terminate s p := s.ready.count < readyQueueSize → s.current ≠ some p ∧ s.has p .zombie = false

/-- The queue is sound up to the current process, also while processes are switched. -/
structure Orderly (s : State) : Prop where
  nodup : s.queued.Nodup
  live : ∀ p ∈ s.queued, s.has p .zombie = false
  registered : ∀ p ∈ s.queued, p ∈ s.allProcs
  timed : ∀ p, s.has p .waitTimer = true →
    p ∉ s.queued ∧ s.has p .zombie = false ∧ (s.pcbs p).resume = .inSleep
  idleZombie : ∀ p, s.has p .zombie = true → s.has p .schedRunning = false
  enabled : s.schedulerEnabled = true

/-- The current process between two steps. -/
structure CurrentSound (s : State) (c : Addr) : Prop where
  registered : c ∈ s.allProcs
  notQueued : c ∉ s.queued
  awake : s.has c .waitTimer = false
  live : s.parked = false → s.has c .zombie = false
  parkedIdle : s.parked = true → s.has c .schedRunning = false
  /-- It was marked for termination when the queue was full. -/
  terminated : s.has c .schedRunning = true → s.has c .terminate = true →
    s.ready.count = readyQueueSize

/-- The invariant between two steps. -/
structure Sound (s : State) : Prop extends Orderly s where
  current : ∀ c, s.current = some c → CurrentSound s c

theorem Sound.queueSound (sound : Sound s) : QueueSound s :=
  ⟨sound.nodup, fun c isCurrent => (sound.current c isCurrent).notQueued, sound.live,
    sound.registered⟩

/-- A process that was taken from the queue to get the CPU. -/
structure Chosen (s : State) (p : Addr) : Prop where
  registered : p ∈ s.allProcs
  notQueued : p ∉ s.queued
  live : s.has p .zombie = false
  awake : s.has p .waitTimer = false
  unmarked : s.has p .terminate = false

namespace Orderly

theorem untouched (same : Untouched s s') (orderly : Orderly s) : Orderly s' := by
  obtain ⟨nodup, live, registered, timed, idleZombie, enabled⟩ := orderly
  have isQueue : s'.queued = s.queued := by rw [State.queued, same.ready, State.queued]
  refine ⟨?_, ?_, ?_, ?_, ?_, ?_⟩
  · rwa [isQueue]
  · simpa only [isQueue, same.has] using live
  · simpa only [isQueue, same.allProcs] using registered
  · simpa only [isQueue, same.has, same.resume] using timed
  · simpa only [same.has] using idleZombie
  · rwa [same.schedulerEnabled]

section

variable (orderly : Orderly s)

include orderly

theorem edit {process : Process} {ready : ReadyQueue} {waiters : BitVec 32}
    (queue : ready = s.ready ∧ (p ∈ s.queued → hasTag process.stateTags .zombie = false) ∨
      ready.contents = s.queued ++ [p] ∧ p ∉ s.queued ∧ p ∈ s.allProcs ∧
        hasTag process.stateTags .zombie = false)
    (timed : hasTag process.stateTags .waitTimer = true →
      p ∉ ready.contents ∧ hasTag process.stateTags .zombie = false ∧ process.resume = .inSleep)
    (idleZombie : hasTag process.stateTags .zombie = true →
      hasTag process.stateTags .schedRunning = false) :
    Orderly (s.edit p process ready waiters) := by
  have members : ∀ q ∈ ready.contents, q = p ∧ p ∈ s.allProcs ∧
      hasTag process.stateTags .zombie = false ∨ q ≠ p ∧ q ∈ s.queued := by
    intro q member
    rcases queue with ⟨rfl, live⟩ | ⟨appended, -, registered, live⟩
    · by_cases isP : q = p
      · subst isP
        exact Or.inl ⟨rfl, orderly.registered q member, live member⟩
      · exact Or.inr ⟨isP, member⟩
    · rw [appended, mem_append, mem_singleton] at member
      by_cases isP : q = p
      · exact Or.inl ⟨isP, registered, live⟩
      · exact Or.inr ⟨isP, member.resolve_right isP⟩
  refine ⟨?_, ?_, ?_, ?_, ?_, orderly.enabled⟩
  · show ready.contents.Nodup
    rcases queue with ⟨rfl, -⟩ | ⟨appended, fresh, -⟩
    · exact orderly.nodup
    · rw [appended]
      exact nodup_append.mpr ⟨orderly.nodup, by simp, by
        intro q member other isP
        rw [mem_singleton.mp isP]
        rintro rfl
        exact fresh member⟩
  · intro q member
    rcases members q member with ⟨rfl, -, live⟩ | ⟨other, queued⟩
    · rw [has_edit_self, live]
    · rw [has_edit_of_ne _ _ _ other]
      exact orderly.live q queued
  · intro q member
    rcases members q member with ⟨rfl, registered, -⟩ | ⟨-, queued⟩
    · exact registered
    · exact orderly.registered q queued
  · intro q isTimed
    by_cases isP : q = p
    · subst isP
      rw [has_edit_self] at isTimed ⊢
      rw [pcbs_edit_self]
      exact timed isTimed
    · rw [has_edit_of_ne _ _ _ isP] at isTimed ⊢
      rw [pcbs_edit_of_ne _ _ _ isP]
      obtain ⟨notQueued, rest⟩ := orderly.timed q isTimed
      refine ⟨fun member => ?_, rest⟩
      rcases members q member with ⟨isQ, -⟩ | ⟨-, queued⟩
      · exact isP isQ
      · exact notQueued queued
  · intro q dead
    by_cases isP : q = p
    · subst isP
      rw [has_edit_self] at dead ⊢
      exact idleZombie dead
    · rw [has_edit_of_ne _ _ _ isP] at dead ⊢
      exact orderly.idleZombie q dead

theorem scan {next : Option Addr} (scan : Scan s s' next) :
    Orderly s' ∧ ∀ n, next = some n → Chosen s' n := by
  have reaps := scan.reaps
  have nodup : (next.toList ++ s'.queued).Nodup := by
    obtain ⟨entries, same, sublist⟩ := scan.subperm
    exact same.nodup_iff.mp (orderly.nodup.sublist sublist)
  have before : ∀ q ∈ next.toList ++ s'.queued, q ∈ s.queued :=
    fun q member => scan.subperm.subset member
  have unreaped := scan.unreaped orderly.nodup
  refine ⟨⟨?_, ?_, ?_, ?_, ?_, ?_⟩, ?_⟩
  · exact (nodup_append.mp nodup).2.1
  · intro q member
    have inAll := mem_append_right next.toList member
    rw [unreaped q inAll]
    exact orderly.live q (before q inAll)
  · intro q member
    rw [reaps.allProcs]
    exact orderly.registered q (before q (mem_append_right _ member))
  · intro q isTimed
    rw [reaps.waitTimer] at isTimed
    obtain ⟨notQueued, live, point⟩ := orderly.timed q isTimed
    refine ⟨fun member => notQueued (before q (mem_append_right _ member)), ?_, ?_⟩
    · rw [scan.outside q notQueued, live]
    · rw [reaps.resume, point]
  · intro q dead
    rcases reaps.tags q with kept | reaped
    · rw [kept] at dead ⊢
      exact orderly.idleZombie q dead
    · exact reaped .schedRunning
  · rw [reaps.schedulerEnabled]
    exact orderly.enabled
  · rintro n rfl
    have inAll : n ∈ (some n).toList ++ s'.queued := mem_append_left _ mem_cons_self
    have queued := before n inAll
    refine ⟨?_, ?_, ?_, ?_, scan.live n rfl⟩
    · rw [reaps.allProcs]
      exact orderly.registered n queued
    · exact (nodup_cons.mp nodup).1
    · rw [unreaped n inAll]
      exact orderly.live n queued
    · rw [reaps.waitTimer, Bool.eq_false_iff]
      exact fun isTimed => (orderly.timed n isTimed).1 queued

theorem resume (isCurrent : s.current = some c) (running : s.parked = false)
    (registered : c ∈ s.allProcs) (notQueued : c ∉ s.queued) (live : s.has c .zombie = false)
    (terminated : s.has c .schedRunning = true → s.has c .terminate = true →
      s.ready.count = readyQueueSize) : Sound (resumeCurrent s) := by
  obtain ⟨word, point, isResumed, tags⟩ :=
    resumeCurrent_spec isCurrent fun isTimed => (orderly.timed c isTimed).2.2
  have sameTag : ∀ tag, tag ≠ .waitTimer → hasTag word tag = s.has c tag := by
    intro tag other
    simp [tags, other]
  have untimed : hasTag word .waitTimer = false := by simp [tags]
  rw [isResumed]
  constructor
  · apply orderly.edit
    · exact Or.inl ⟨rfl, fun queued => absurd queued notQueued⟩
    · intro isTimed
      exact absurd (untimed.symm.trans isTimed) nofun
    · intro dead
      exact absurd ((sameTag .zombie nofun).symm.trans dead) (by rw [live]; nofun)
  · intro d isD
    obtain rfl := Option.some.inj (isCurrent.symm.trans isD)
    refine ⟨registered, notQueued, ?_, fun _ => ?_, ?_, ?_⟩
    · rw [has_edit_self, untimed]
    · rw [has_edit_self, sameTag .zombie nofun, live]
    · exact fun isParked => absurd (running.symm.trans isParked) nofun
    · rw [has_edit_self, has_edit_self, sameTag .schedRunning nofun, sameTag .terminate nofun]
      exact terminated

theorem switchTo (chosen : Chosen s p) : Orderly (switchTo s p) := by
  obtain ⟨word, isSwitched, tags⟩ := switchTo_spec s p
  have untimed : hasTag word .waitTimer = false := by simp [tags, chosen.awake]
  have live : hasTag word .zombie = false := by simp [tags, chosen.live]
  rw [isSwitched]
  have edited : Orderly (s.edit p { s.pcbs p with stateTags := word } s.ready s.timerWaiters) := by
    apply orderly.edit
    · exact Or.inl ⟨rfl, fun queued => absurd queued chosen.notQueued⟩
    · intro isTimed
      exact absurd (untimed.symm.trans isTimed) nofun
    · intro dead
      exact absurd (live.symm.trans dead) nofun
  exact { edited with }

theorem dispatch (chosen : Chosen s p)
    (same : Untouched { Kernel.switchTo s p with parked := false } s') :
    Sound (resumeCurrent s') := by
  have switched : Orderly { Kernel.switchTo s p with parked := false } :=
    { orderly.switchTo chosen with }
  have tags : ∀ tag, s'.has p tag = _ := fun tag =>
    (same.has p tag).trans (has_switchTo_self s p tag)
  have isQueue : s'.queued = s.queued := congrArg ReadyQueue.contents same.ready
  have isRegistry : s'.allProcs = s.allProcs := same.allProcs
  apply (switched.untouched same).resume same.current same.parked
  · rw [isRegistry]
    exact chosen.registered
  · rw [isQueue]
    exact chosen.notQueued
  · simp [tags, chosen.live]
  · simp [tags, chosen.unmarked]

theorem picked {result : State} (picked : Picked s result)
    (isCurrent : s.current = some c) (running : s.parked = false) (registered : c ∈ s.allProcs)
    (stays : (∀ q ∈ s.queued, ¬ Runnable s q) →
      c ∉ s.queued ∧ s.has c .zombie = false ∧ s.has c .schedRunning = false) : Sound result := by
  obtain ⟨s', next, scan, ⟨rfl, rfl, noneRunnable⟩ | ⟨n, switched, rfl, -, same, rfl, -⟩⟩ := picked
  · obtain ⟨notQueued, live, notRunning⟩ := stays noneRunnable
    obtain ⟨orderly', -⟩ := orderly.scan scan
    apply orderly'.resume (scan.reaps.current.trans isCurrent) (scan.reaps.parked.trans running)
    · rw [scan.reaps.allProcs]
      exact registered
    · exact fun queued => notQueued (scan.subperm.subset queued)
    · rw [scan.outside c notQueued, live]
    · intro isRunning
      rw [scan.outside c notQueued, notRunning] at isRunning
      exact nomatch isRunning
  · obtain ⟨orderly', chosen⟩ := orderly.scan scan
    apply orderly'.dispatch (chosen n rfl)
    exact { same with parked := same.parked.trans (scan.reaps.parked.trans running) }

theorem handOver (current : ∀ c, s.current = some c → c ∈ s.allProcs ∧ c ∉ s.queued ∧
      s.has c .waitTimer = false ∧ s.has c .schedRunning = false) : Sound (handOver s) := by
  have scan : Scan s (processDequeueLive s).1 (processDequeueLive s).2 := dequeueLiveLoop_scan _ s
  rw [Kernel.handOver]
  revert scan
  obtain ⟨s', next⟩ := processDequeueLive s
  intro scan
  have reaps : Reaps s s' := scan.reaps
  obtain ⟨orderly', chosen⟩ := orderly.scan scan
  cases next with
  | none =>
    refine ⟨{ orderly' with }, ?_⟩
    intro c isCurrent
    obtain ⟨registered, notQueued, awake, notRunning⟩ :=
      current c (reaps.current.symm.trans isCurrent)
    have stillIdle : s'.has c .schedRunning = false := by rw [scan.outside c notQueued, notRunning]
    refine ⟨?_, ?_, ?_, nofun, fun _ => stillIdle, ?_⟩
    · exact reaps.allProcs.symm ▸ registered
    · exact fun queued => notQueued (scan.subperm.subset queued)
    · exact (reaps.waitTimer c).trans awake
    · exact fun isRunning => absurd (stillIdle.symm.trans isRunning) nofun
  | some n => exact orderly'.dispatch (chosen n rfl) (Untouched.refl _)

end

end Orderly

theorem CurrentSound.edit_of_ne {process : Process} {ready : ReadyQueue} {waiters : BitVec 32}
    (sound : CurrentSound s c) (other : c ≠ p)
    (queue : ready = s.ready ∨ ready.contents = s.queued ++ [p]) :
    CurrentSound (s.edit p process ready waiters) c := by
  obtain ⟨registered, notQueued, awake, live, parkedIdle, terminated⟩ := sound
  refine ⟨registered, ?_, ?_, ?_, ?_, ?_⟩
  · show c ∉ ready.contents
    rcases queue with rfl | appended
    · exact notQueued
    · rw [appended, mem_append, mem_singleton, not_or]
      exact ⟨notQueued, other⟩
  · rw [has_edit_of_ne _ _ _ other, awake]
  · rw [has_edit_of_ne _ _ _ other]
    exact live
  · rw [has_edit_of_ne _ _ _ other]
    exact parkedIdle
  · rw [has_edit_of_ne _ _ _ other, has_edit_of_ne _ _ _ other]
    intro isRunning isMarked
    have full := terminated isRunning isMarked
    rcases queue with rfl | appended
    · exact full
    · have longer := congrArg List.length appended
      rw [ReadyQueue.length_contents, length_append, State.queued,
        ReadyQueue.length_contents, length_singleton] at longer
      have bounded := ready.count_le
      omega

namespace Sound

theorem untouched (same : Untouched s s') (sound : Sound s) : Sound s' := by
  have isQueue : s'.queued = s.queued := by rw [State.queued, same.ready, State.queued]
  refine ⟨sound.toOrderly.untouched same, ?_⟩
  intro c isCurrent
  obtain ⟨registered, notQueued, awake, live, parkedIdle, terminated⟩ :=
    sound.current c (same.current.symm.trans isCurrent)
  refine ⟨?_, ?_, ?_, ?_, ?_, ?_⟩
  · rwa [same.allProcs]
  · rwa [isQueue]
  · rwa [same.has]
  · rwa [same.has, same.parked]
  · rwa [same.has, same.parked]
  · rwa [same.has, same.has, same.ready]

variable {process : Process}

section

variable (sound : Sound s)

include sound

theorem edit {ready : ReadyQueue} {waiters : BitVec 32}
    (queue : ready = s.ready ∧ (p ∈ s.queued → hasTag process.stateTags .zombie = false) ∨
      ready.contents = s.queued ++ [p] ∧ p ∉ s.queued ∧ p ∈ s.allProcs ∧
        hasTag process.stateTags .zombie = false)
    (timed : hasTag process.stateTags .waitTimer = true →
      p ∉ ready.contents ∧ hasTag process.stateTags .zombie = false ∧ process.resume = .inSleep)
    (zombie : hasTag process.stateTags .zombie = s.has p .zombie)
    (running : hasTag process.stateTags .schedRunning = s.has p .schedRunning)
    (current : s.current = some p → ready = s.ready ∧ hasTag process.stateTags .waitTimer = false ∧
      (s.has p .schedRunning = true → hasTag process.stateTags .terminate = true →
        s.ready.count = readyQueueSize)) :
    Sound (s.edit p process ready waiters) := by
  constructor
  · apply sound.toOrderly.edit queue timed
    rw [zombie, running]
    exact sound.idleZombie p
  · intro c isCurrent
    obtain ⟨registered, notQueued, awake, live, parkedIdle, terminated⟩ := sound.current c isCurrent
    by_cases isP : c = p
    · subst isP
      obtain ⟨rfl, untimed, full⟩ := current isCurrent
      refine ⟨registered, notQueued, ?_, ?_, ?_, ?_⟩
      · rw [has_edit_self, untimed]
      · rw [has_edit_self, zombie]
        exact live
      · rw [has_edit_self, running]
        exact parkedIdle
      · rw [has_edit_self, has_edit_self, running]
        exact full
    · apply (sound.current c isCurrent).edit_of_ne isP
      rcases queue with ⟨same, -⟩ | ⟨appended, -⟩
      · exact Or.inl same
      · exact Or.inr appended

theorem suspend (running : s.parked = false) (isCurrent : s.current = some c)
    (point : Resume) : Orderly (suspend s c point) := by
  obtain ⟨registered, notQueued, awake, live, -, -⟩ := sound.current c isCurrent
  obtain ⟨word, ready, isSuspended, suspended⟩ := suspend_spec s c point
  have sameTag : ∀ tag, tag ≠ .schedReady → tag ≠ .schedRunning →
      hasTag word tag = s.has c tag := by
    intro tag notReady notRunning
    rcases suspended with ⟨-, rfl, -⟩ | ⟨-, -, tags⟩
    · rfl
    · simp [tags, notReady, notRunning]
  have wordLive : hasTag word .zombie = false := (sameTag .zombie nofun nofun).trans (live running)
  rw [isSuspended]
  apply sound.toOrderly.edit
  · rcases suspended with ⟨-, -, rfl⟩ | ⟨-, ⟨-, appended⟩ | ⟨-, rfl⟩, -⟩
    · exact Or.inl ⟨rfl, fun _ => wordLive⟩
    · exact Or.inr ⟨appended, notQueued, registered, wordLive⟩
    · exact Or.inl ⟨rfl, fun _ => wordLive⟩
  · intro isTimed
    exact absurd ((sameTag .waitTimer nofun nofun).symm.trans isTimed) (by rw [awake]; nofun)
  · intro dead
    exact absurd (wordLive.symm.trans dead) nofun

theorem yield {point : Resume} (cpu : HasCpu s) (meets : soundConditions.yield s) :
    Sound (processYield s point) := by
  obtain ⟨running, c, isCurrent⟩ := cpu
  obtain ⟨registered, notQueued, awake, live, -, terminated⟩ := sound.current c isCurrent
  have live := live running
  have picked : Picked (Kernel.suspend s c point) (processYield s point) :=
    processYield_picked sound.enabled isCurrent
  have orderly := sound.suspend running isCurrent point
  obtain ⟨word, ready, isSuspended, suspended⟩ := suspend_spec s c point
  have sameTag : ∀ tag, tag ≠ .schedReady → tag ≠ .schedRunning →
      hasTag word tag = s.has c tag := by
    intro tag notReady notRunning
    rcases suspended with ⟨-, rfl, -⟩ | ⟨-, -, tags⟩
    · rfl
    · simp [tags, notReady, notRunning]
  have idle : hasTag word .schedRunning = false := by
    rcases suspended with ⟨idle, rfl, -⟩ | ⟨-, -, tags⟩
    · exact idle
    · simp [tags]
  rw [isSuspended] at picked orderly
  apply orderly.picked picked isCurrent running registered
  intro noneRunnable
  rw [has_edit_self, has_edit_self]
  refine ⟨?_, (sameTag .zombie (by decide) (by decide)).trans live, idle⟩
  rcases suspended with ⟨-, -, rfl⟩ | ⟨isRunning, ⟨room, appended⟩ | ⟨-, rfl⟩, tags⟩
  · exact notQueued
  · -- With room, the current process is runnable itself, or it is stopped and another one is.
    exfalso
    have queued : c ∈ ready.contents := by
      rw [appended]
      exact mem_append_right _ mem_cons_self
    by_cases isStopped : s.has c .stopped = true
    · obtain ⟨n, inQueue, runnable⟩ := meets c isCurrent isRunning isStopped room
      have other : n ≠ c := fun isC => notQueued (isC ▸ inQueue)
      apply noneRunnable n
      · show n ∈ ready.contents
        rw [appended]
        exact mem_append_left _ inQueue
      · rwa [Runnable, has_edit_of_ne _ _ _ other, has_edit_of_ne _ _ _ other,
          has_edit_of_ne _ _ _ other]
    · apply noneRunnable c queued
      rw [Runnable, has_edit_self, has_edit_self, has_edit_self]
      refine ⟨by simp [tags], ?_, ?_⟩
      · rw [sameTag .stopped (by decide) (by decide)]
        exact Bool.eq_false_iff.mpr isStopped
      · rw [sameTag .terminate (by decide) (by decide), Bool.eq_false_iff]
        intro isMarked
        have full := terminated isRunning isMarked
        omega
  · exact notQueued

theorem suspendAsleep (running : s.parked = false) (isCurrent : s.current = some c)
    (process : Process) (waiters : BitVec 32) (point : Resume)
    (idle : hasTag process.stateTags .schedRunning = false)
    (zombie : hasTag process.stateTags .zombie = s.has c .zombie)
    (timed : hasTag process.stateTags .waitTimer = true → point = .inSleep) :
    Kernel.suspend (s.edit c process s.ready waiters) c point =
        s.edit c { process with resume := point } s.ready waiters ∧
      Orderly (s.edit c { process with resume := point } s.ready waiters) := by
  obtain ⟨-, notQueued, -, live, -, -⟩ := sound.current c isCurrent
  have live : hasTag process.stateTags .zombie = false := zombie.trans (live running)
  obtain ⟨word, ready, isSuspended, ⟨-, rfl, rfl⟩ | ⟨isRunning, -⟩⟩ :=
    suspend_spec (s.edit c process s.ready waiters) c point
  · rw [isSuspended, pcbs_edit_self, edit_edit]
    refine ⟨rfl, sound.toOrderly.edit ?_ ?_ ?_⟩
    · exact Or.inl ⟨rfl, fun _ => live⟩
    · exact fun isTimed => ⟨notQueued, live, timed isTimed⟩
    · exact fun _ => idle
  · rw [has_edit_self, idle] at isRunning
    exact nomatch isRunning

theorem goesToSleep (cpu : HasCpu s) (isCurrent : s.current = some c)
    (process : Process) (waiters : BitVec 32) (point : Resume)
    (idle : hasTag process.stateTags .schedRunning = false)
    (zombie : hasTag process.stateTags .zombie = s.has c .zombie)
    (timed : hasTag process.stateTags .waitTimer = true → point = .inSleep) :
    Sound (processYield (s.edit c process s.ready waiters) point) := by
  obtain ⟨registered, notQueued, -, live, -, -⟩ := sound.current c isCurrent
  have picked : Picked (Kernel.suspend (s.edit c process s.ready waiters) c point)
      (processYield (s.edit c process s.ready waiters) point) :=
    processYield_picked sound.enabled isCurrent
  obtain ⟨isSuspended, orderly⟩ :=
    sound.suspendAsleep cpu.1 isCurrent process waiters point idle zombie timed
  rw [isSuspended] at picked
  apply orderly.picked picked isCurrent cpu.1 registered
  intro _
  rw [has_edit_self, has_edit_self]
  exact ⟨notQueued, zombie.trans (live cpu.1), idle⟩

theorem block (cpu : HasCpu s) : Sound (processBlock s) := by
  obtain ⟨running, c, isCurrent⟩ := id cpu
  have untimed : hasTag (s.pcbs c).stateTags .waitTimer = false := (sound.current c isCurrent).awake
  rw [processBlock_eq isCurrent]
  apply sound.goesToSleep cpu isCurrent
  · simp
  · simp [State.has]
  · simp [untimed]

theorem sleep (cpu : HasCpu s) {ms freq : BitVec 32} (notZero : ms ≠ 0#32) :
    Sound (processSleep s ms freq) := by
  obtain ⟨running, c, isCurrent⟩ := id cpu
  rw [processSleep_eq sound.enabled isCurrent notZero]
  apply sound.goesToSleep cpu isCurrent
  · simp
  · simp [State.has]
  · exact fun _ => rfl

theorem wakeup (registered : p ∈ s.allProcs) (meets : soundConditions.wakeup s p) :
    Sound (processWakeup s p) := by
  by_cases asleep : s.has p .schedSleeping = true
  · obtain ⟨word, ready, waiters, done, -, queued⟩ := processWakeup_spec asleep
    have sameTag : ∀ tag, tag ≠ .schedReady → tag ≠ .schedSleeping → tag ≠ .waitTimer →
        hasTag word tag = s.has p tag := by
      intro tag notReady notSleeping notTimer
      rcases queued with ⟨-, -, tags⟩ | ⟨-, -, tags⟩ <;>
        simp [tags, notReady, notSleeping, notTimer]
    have untimed : hasTag word .waitTimer = false := by
      rcases queued with ⟨-, -, tags⟩ | ⟨-, -, tags⟩ <;> simp [tags]
    have sameZombie := sameTag .zombie nofun nofun nofun
    rw [done]
    apply sound.edit
    · rcases queued with ⟨room, appended, -⟩ | ⟨-, rfl, -⟩
      · obtain ⟨-, notQueued, live⟩ := meets asleep room
        exact Or.inr ⟨appended, notQueued, registered, sameZombie.trans live⟩
      · exact Or.inl ⟨rfl, fun inQueue => sameZombie.trans (sound.live p inQueue)⟩
    · intro isTimed
      exact absurd (untimed.symm.trans isTimed) nofun
    · exact sameZombie
    · exact sameTag .schedRunning nofun nofun nofun
    · intro isCurrent
      rcases queued with ⟨room, -⟩ | ⟨-, rfl, -⟩
      · exact absurd isCurrent (meets asleep room).1
      · refine ⟨rfl, untimed, ?_⟩
        rw [sameTag .terminate nofun nofun nofun]
        exact (sound.current p isCurrent).terminated
  · rw [processWakeup, if_neg asleep]
    exact sound

theorem tickOne (registered : p ∈ s.allProcs) : Sound (timerTickOne s p) := by
  by_cases due : s.has p .schedSleeping = true ∧ s.has p .waitTimer = true ∧
      (s.pcbs p).sleepTicks ≠ 0
  · obtain ⟨process, ready, waiters, done, sameResume, outcome⟩ := timerTickOne_spec due
    obtain ⟨notQueued, live, inSleep⟩ := sound.timed p due.2.1
    have notCurrent : s.current ≠ some p := fun isCurrent =>
      absurd ((sound.current p isCurrent).awake.symm.trans due.2.1) (by decide)
    have sameTag : ∀ tag, tag ≠ .schedReady → tag ≠ .schedSleeping → tag ≠ .waitTimer →
        hasTag process.stateTags tag = s.has p tag := by
      intro tag notReady notSleeping notTimer
      rcases outcome with ⟨same, -⟩ | ⟨-, -, -, tags⟩ | ⟨-, -, -, -, tags⟩
      · rw [same, State.has]
      · simp [tags, notReady, notSleeping, notTimer]
      · simp [tags, notReady]
    have stillLive := (sameTag .zombie (by decide) (by decide) (by decide)).trans live
    rw [done]
    apply sound.edit
    · rcases outcome with ⟨-, -, rfl, -⟩ | ⟨-, appended, -⟩ | ⟨-, -, rfl, -⟩
      · exact Or.inl ⟨rfl, fun _ => stillLive⟩
      · exact Or.inr ⟨appended, notQueued, registered, stillLive⟩
      · exact Or.inl ⟨rfl, fun _ => stillLive⟩
    · intro isTimed
      refine ⟨?_, stillLive, sameResume.trans inSleep⟩
      rcases outcome with ⟨-, -, rfl, -⟩ | ⟨-, -, -, tags⟩ | ⟨-, -, rfl, -⟩
      · exact notQueued
      · simp [tags] at isTimed
      · exact notQueued
    · exact sameTag .zombie (by decide) (by decide) (by decide)
    · exact sameTag .schedRunning (by decide) (by decide) (by decide)
    · exact fun isCurrent => absurd isCurrent notCurrent
  · rw [timerTickOne, if_neg due]
    exact sound

theorem reap (isCurrent : s.current = some c) : Orderly (processReap s c) := by
  obtain ⟨-, notQueued, awake, -, -, -⟩ := sound.current c isCurrent
  obtain ⟨reaps, isQueue, dead, others⟩ := processReap_spec s c
  rw [erase_of_not_mem notQueued] at isQueue
  refine ⟨?_, ?_, ?_, ?_, ?_, ?_⟩
  · rw [isQueue]
    exact sound.nodup
  · intro q member
    rw [isQueue] at member
    rw [others q _ fun isC => notQueued (isC ▸ member)]
    exact sound.live q member
  · rw [isQueue, reaps.allProcs]
    exact sound.registered
  · intro q isTimed
    rw [reaps.waitTimer] at isTimed
    have other : q ≠ c := by
      rintro rfl
      exact absurd (awake.symm.trans isTimed) nofun
    rw [isQueue, others q _ other, reaps.resume]
    exact sound.timed q isTimed
  · intro q isDead
    rcases reaps.tags q with kept | reaped
    · rw [kept] at isDead ⊢
      exact sound.idleZombie q isDead
    · exact reaped .schedRunning
  · rw [reaps.schedulerEnabled]
    exact sound.enabled

theorem exit (isCurrent : s.current = some c) : Sound (handOver (processReap s c)) := by
  obtain ⟨registered, notQueued, awake, -, -, -⟩ := sound.current c isCurrent
  obtain ⟨reaps, isQueue, dead, -⟩ := processReap_spec s c
  rw [erase_of_not_mem notQueued] at isQueue
  have orderly := sound.reap isCurrent
  apply orderly.handOver
  intro d isD
  rw [reaps.current, isCurrent] at isD
  obtain rfl := Option.some.inj isD
  rw [isQueue, reaps.allProcs, reaps.waitTimer]
  exact ⟨registered, notQueued, awake, orderly.idleZombie c dead⟩

theorem probe (parked : s.parked = true) : Sound (handOver s) := by
  apply sound.toOrderly.handOver
  intro c isCurrent
  obtain ⟨registered, notQueued, awake, -, parkedIdle, -⟩ := sound.current c isCurrent
  exact ⟨registered, notQueued, awake, parkedIdle parked⟩

theorem free (notCurrent : s.current ≠ some p) (dead : s.has p .zombie = true) :
    Sound (procFreeZombie s p) := by
  have notQueued : p ∉ s.queued := fun queued =>
    absurd ((sound.live p queued).symm.trans dead) nofun
  refine ⟨{ sound with registered := ?_ }, ?_⟩
  · intro q queued
    refine (mem_erase_of_ne ?_).mpr (sound.registered q queued)
    rintro rfl
    exact notQueued queued
  · intro c isCurrent
    refine { sound.current c isCurrent with registered := ?_ }
    refine (mem_erase_of_ne ?_).mpr (sound.current c isCurrent).registered
    rintro rfl
    exact notCurrent isCurrent

theorem leave : Sound (leaveWaitpid s) := by
  rw [leaveWaitpid]
  split
  · exact sound
  · rename_i c isCurrent
    obtain ⟨-, notQueued, awake, -, -, terminated⟩ := sound.current c isCurrent
    rw [modify_eq_edit]
    apply sound.edit
    · exact Or.inl ⟨rfl, fun queued => absurd queued notQueued⟩
    · intro isTimed
      exact absurd (awake.symm.trans isTimed) nofun
    · rfl
    · rfl
    · exact fun _ => ⟨rfl, awake, terminated⟩

theorem terminated {ready : ReadyQueue} {waiters : BitVec 32}
    (isFound : p ∈ s.allProcs ∨ s.current = some p) (meets : soundConditions.terminate s p)
    (terminated : Terminated s p process ready waiters) :
    Sound (s.edit p process ready waiters) := by
  have sameTag : ∀ tag, tag ≠ .schedReady → tag ≠ .terminate → tag ≠ .schedSleeping →
      tag ≠ .waitTimer → hasTag process.stateTags tag = s.has p tag := by
    intro tag notReady notMark notSleeping notTimer
    rw [terminated.tags tag notReady]
    simp [notMark, notSleeping, notTimer]
  have untimed : hasTag process.stateTags .waitTimer = false := by
    rw [terminated.tags .waitTimer (by decide)]
    simp
  have sameZombie := sameTag .zombie (by decide) (by decide) (by decide) (by decide)
  apply sound.edit
  · rcases terminated.queue with ⟨-, rfl⟩ | ⟨notReady, ⟨room, appended⟩ | ⟨-, rfl⟩⟩
    · exact Or.inl ⟨rfl, fun queued => sameZombie.trans (sound.live p queued)⟩
    · obtain ⟨notCurrent, live⟩ := meets room
      refine Or.inr ⟨appended, ?_, isFound.resolve_right notCurrent, sameZombie.trans live⟩
      intro queued
      rw [processIsReady, any_eq_false] at notReady
      exact notReady p queued (by simp)
    · exact Or.inl ⟨rfl, fun queued => sameZombie.trans (sound.live p queued)⟩
  · intro isTimed
    exact absurd (untimed.symm.trans isTimed) (by decide)
  · exact sameZombie
  · exact sameTag .schedRunning (by decide) (by decide) (by decide) (by decide)
  · intro isCurrent
    have bounded := s.ready.count_le
    have full : s.ready.count = readyQueueSize := by
      by_contra room
      exact (meets (by omega)).1 isCurrent
    refine ⟨?_, untimed, fun _ _ => full⟩
    rcases terminated.queue with ⟨-, rfl⟩ | ⟨-, ⟨room, -⟩ | ⟨-, rfl⟩⟩
    · rfl
    · omega
    · rfl

theorem signalled {sig : Int}
    (signalled : Signalled s p sig process) : Sound (s.edit p process s.ready s.timerWaiters) := by
  have sameZombie := signalled.tags .zombie nofun nofun
  have sameTimer := signalled.tags .waitTimer nofun nofun
  apply sound.edit
  · exact Or.inl ⟨rfl, fun queued => sameZombie.trans (sound.live p queued)⟩
  · intro isTimed
    rw [sameTimer] at isTimed
    rw [sameZombie, signalled.resume]
    exact sound.timed p isTimed
  · exact sameZombie
  · exact signalled.tags .schedRunning nofun nofun
  · intro isCurrent
    rw [sameTimer, signalled.tags .terminate nofun nofun]
    exact ⟨rfl, (sound.current p isCurrent).awake, (sound.current p isCurrent).terminated⟩

theorem fork (inheritMask : BitVec 64) (flags : BitVec 32) (pcb : Option Addr)
    (kstack : Bool) (fresh : ∀ child, pcb = some child → child ∉ s.allProcs) :
    Sound (forkStatus s inheritMask flags pcb kstack).1 := by
  rcases forkStatus_cases s inheritMask flags pcb kstack with
    unchanged | ⟨child, parent, isPcb, isCurrent, allowed, isFork⟩
  · rw [unchanged]
    exact sound
  · rw [isFork]
    obtain ⟨process, isResume, noZombie, inherits, outcome⟩ :=
      forkChild_spec s parent child kstack allowed
    have unregistered := fresh child isPcb
    have notQueued : child ∉ s.queued := fun queued => unregistered (sound.registered child queued)
    have untimed : hasTag process.stateTags .waitTimer = false := by
      rw [Bool.eq_false_iff]
      intro isTimed
      exact absurd ((sound.current parent isCurrent).awake.symm.trans (inherits isTimed)) nofun
    have timed : ∀ ready : ReadyQueue, hasTag process.stateTags .waitTimer = true →
        child ∉ ready.contents ∧ hasTag process.stateTags .zombie = false ∧
          process.resume = .inSleep := by
      intro _ isTimed
      exact absurd (untimed.symm.trans isTimed) nofun
    have idleZombie : hasTag process.stateTags .zombie = true →
        hasTag process.stateTags .schedRunning = false := by
      intro dead
      exact absurd (noZombie.symm.trans dead) nofun
    have other : ∀ c, s.current = some c → c ≠ child := by
      rintro c isC rfl
      exact unregistered (sound.current c isC).registered
    rcases outcome with ⟨same, -⟩ | ⟨ready, -, appended, same, -⟩
    · refine Sound.untouched same ⟨?_, ?_⟩
      · exact sound.toOrderly.edit (Or.inl ⟨rfl, fun _ => noZombie⟩) (timed s.ready) idleZombie
      · intro c isC
        exact (sound.current c isC).edit_of_ne (other c isC) (Or.inl rfl)
    · -- The child is registered first, so that it may be queued.
      have registered : Sound { s with allProcs := child :: s.allProcs } := by
        refine ⟨{ sound with registered := ?_ }, ?_⟩
        · exact fun q queued => mem_cons_of_mem _ (sound.registered q queued)
        · intro c isC
          exact { sound.current c isC with
            registered := mem_cons_of_mem _ (sound.current c isC).registered }
      have orderly :
        Orderly (State.edit { s with allProcs := child :: s.allProcs } child process ready
          s.timerWaiters) :=
        registered.toOrderly.edit (Or.inr ⟨appended, notQueued, mem_cons_self, noZombie⟩)
          (timed ready) idleZombie
      refine Sound.untouched same ⟨orderly, ?_⟩
      intro c isC
      exact (registered.current c isC).edit_of_ne (other c isC) (Or.inr appended)

end

end Sound

theorem sound_preserved : Preserved Sound soundConditions where
  stable same meets := by
    simp only [soundConditions, Runnable, same.has, State.queued, same.ready, same.current]
    exact meets
  untouched same _ := Sound.untouched same
  yield _ sound cpu meets := sound.yield cpu meets
  block sound cpu _ := sound.block cpu
  sleep _ _ sound cpu notZero _ := sound.sleep cpu notZero
  wakeup sound registered meets := sound.wakeup registered meets
  tickOne sound registered := sound.tickOne registered
  exit sound _ isCurrent := sound.exit isCurrent
  probe sound parked := sound.probe parked
  fork inheritMask flags pcb kstack sound _ fresh := sound.fork inheritMask flags pcb kstack fresh
  free sound notCurrent dead := sound.free notCurrent dead
  leave sound := sound.leave
  terminated sound _ isFound meets terminated := sound.terminated isFound meets terminated
  signalled sound signalled := sound.signalled signalled

theorem boot_sound (idle : Addr) : Sound (boot idle) := by
  have plain : ∀ p, (boot idle).has p .waitTimer = false ∧ (boot idle).has p .zombie = false ∧
      (boot idle).has p .terminate = false := by
    intro p
    by_cases isIdle : p = idle
    · subst isIdle
      simp only [State.has, boot, Function.update_self]
      decide
    · simp only [State.has, boot, Function.update_of_ne isIdle]
      decide
  have nobody : ∀ p, p ∉ (boot idle).queued := fun p => not_mem_nil
  refine ⟨⟨nodup_nil, ?_, ?_, ?_, ?_, rfl⟩, ?_⟩
  · exact fun p queued => absurd queued (nobody p)
  · exact fun p queued => absurd queued (nobody p)
  · exact fun p isTimed => absurd ((plain p).1.symm.trans isTimed) Bool.false_ne_true
  · exact fun p dead => absurd ((plain p).2.1.symm.trans dead) Bool.false_ne_true
  · intro c isCurrent
    obtain rfl := Option.some.inj isCurrent
    refine ⟨mem_cons_self, nobody _, (plain _).1, fun _ => (plain _).2.1, Bool.false_ne_true.elim,
      ?_⟩
    exact fun _ isMarked => absurd ((plain _).2.2.symm.trans isMarked) Bool.false_ne_true

/-- In every run from the first switch on whose steps meet the conditions, the ready
queue is sound. -/
theorem queue_sound {idle : Addr} {calls : List Call} {final : State}
    (run : Steps (Guarded SchedStep soundConditions.Meets) (boot idle) calls final) :
    QueueSound final :=
  (sound_preserved.run (boot_sound idle) run).queueSound

/-- A child that is terminated while it waits in the queue. -/
theorem queue_sound_terminate :
    ∃ final, Steps (Guarded SchedStep soundConditions.Meets) (boot 4096)
        [.fork 0 1 (some 8192) true, .terminate 2] final ∧
      final.queued = [8192] ∧ QueueSound final := by
  have run := Steps.refl.step (show Guarded SchedStep soundConditions.Meets (boot 4096)
    (.fork 0 1 (some 8192) true) _ from ⟨trivial, by decide, rfl⟩)
  have run := run.step (show Guarded SchedStep soundConditions.Meets _ (.terminate 2) _ from by
    refine ⟨?_, by decide, rfl⟩
    intro target found
    obtain rfl := Option.some.inj (found.symm.trans (show _ = some 8192 by decide))
    exact fun _ => ⟨by decide, by decide⟩)
  exact ⟨_, run, by decide, queue_sound run⟩

/-- The first process sends itself a fatal signal: it is queued while it has the
CPU. -/
theorem current_queued :
    ∃ final, Steps SchedStep (boot 4096) [.kill 1 1] final ∧
      final.current = some 4096 ∧ final.queued = [4096] ∧ ¬ QueueSound final := by
  refine ⟨_, steps_performAll (by decide), by decide, by decide, fun sound => ?_⟩
  exact sound.notCurrent 4096 (by decide) (by decide)

end M4KK1.Kernel
