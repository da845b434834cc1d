import M4KK1.Kernel.Process

/-!
# What the operations of the scheduler change

Most operations are an `edit` of one block, the queue and the waiters.
-/

namespace M4KK1.Kernel

open M4KK1.Lib Function List State

variable {s s' s'' : State} {p q : Addr} {tag : Tag} {tags : List Tag}

variable (process : Process) (ready : ReadyQueue) (waiters : BitVec 32)

namespace State

@[simp] theorem pcbs_modify_self (s : State) (p : Addr) (change : Process → Process) :
    (s.modify p change).pcbs p = change (s.pcbs p) :=
  update_self _ _ _

theorem pcbs_modify_of_ne (s : State) (change : Process → Process) (other : q ≠ p) :
    (s.modify p change).pcbs q = s.pcbs q :=
  update_of_ne other _ _

/-- Another control block at `p`, another ready queue and count of timer waiters. -/
def edit (s : State) (p : Addr) (process : Process) (ready : ReadyQueue)
    (timerWaiters : BitVec 32) : State :=
  { s with pcbs := update s.pcbs p process, ready := ready, timerWaiters := timerWaiters }

theorem modify_eq_edit (s : State) (p : Addr) (change : Process → Process) :
    s.modify p change = s.edit p (change (s.pcbs p)) s.ready s.timerWaiters := rfl

@[simp] theorem pcbs_edit_self : (s.edit p process ready waiters).pcbs p = process :=
  update_self _ _ _

@[simp] theorem has_edit_self :
    (s.edit p process ready waiters).has p tag = hasTag process.stateTags tag := by
  rw [has, pcbs_edit_self]

theorem pcbs_edit_of_ne (other : q ≠ p) : (s.edit p process ready waiters).pcbs q = s.pcbs q :=
  update_of_ne other _ _

theorem has_edit_of_ne (other : q ≠ p) :
    (s.edit p process ready waiters).has q tag = s.has q tag := by
  rw [has, pcbs_edit_of_ne process ready waiters other, has]

@[simp] theorem edit_edit (first second : Process) (ready ready' : ReadyQueue)
    (waiters waiters' : BitVec 32) :
    (s.edit p first ready waiters).edit p second ready' waiters' =
    s.edit p second ready' waiters' := by
  simp only [edit, update_idem]

@[simp] theorem ready_edit : (s.edit p process ready waiters).ready = ready := rfl

@[simp] theorem timerWaiters_edit : (s.edit p process ready waiters).timerWaiters = waiters := rfl

theorem setTags_eq_edit (s : State) (p : Addr) (tags : List Tag) :
    s.setTags p tags = s.edit p { s.pcbs p with stateTags := withTags (s.pcbs p).stateTags tags }
      s.ready s.timerWaiters := rfl

theorem clearTags_eq_edit (s : State) (p : Addr) (tags : List Tag) : s.clearTags p tags =
      s.edit p { s.pcbs p with stateTags := withoutTags (s.pcbs p).stateTags tags }
        s.ready s.timerWaiters := rfl

theorem has_setTags_self : (s.setTags p tags).has p tag = (s.has p tag || decide (tag ∈ tags)) := by
  rw [setTags_eq_edit, has_edit_self, hasTag_withTags, has]

theorem has_clearTags_self :
    (s.clearTags p tags).has p tag = (s.has p tag && decide (tag ∉ tags)) := by
  rw [clearTags_eq_edit, has_edit_self, hasTag_withoutTags, has]

end State

/-- `after` is `queue` with `p` at its end, or `queue` itself when that is full. -/
def Enqueued (queue : ReadyQueue) (p : Addr) (after : ReadyQueue) : Prop :=
  queue.count < readyQueueSize ∧ after.contents = queue.contents ++ [p] ∨
    queue.count = readyQueueSize ∧ after = queue

theorem enqueue_spec (s : State) (p : Addr) :
    ∃ ready, s.enqueue p = { s with ready := ready } ∧ Enqueued s.ready p ready := by
  rw [State.enqueue]
  cases done : readyEnqueue s.ready p with
  | none => exact ⟨s.ready, rfl, Or.inr ⟨readyEnqueue_eq_none.mp done, rfl⟩⟩
  | some ready =>
    exact ⟨ready, rfl, Or.inl ⟨readyEnqueue_room done, readyEnqueue_contents done⟩⟩

namespace Enqueued

variable {queue after : ReadyQueue}

theorem subset (enqueued : Enqueued queue p after) (member : q ∈ queue.contents) :
    q ∈ after.contents := by
  rcases enqueued with ⟨-, appended⟩ | ⟨-, rfl⟩
  · rw [appended]
    exact mem_append_left _ member
  · exact member

theorem mem (enqueued : Enqueued queue p after) (member : q ∈ after.contents) :
    q ∈ queue.contents ∨ q = p ∧ queue.count < readyQueueSize := by
  rcases enqueued with ⟨room, appended⟩ | ⟨-, rfl⟩
  · rw [appended, mem_append, mem_singleton] at member
    exact member.imp_right fun same => ⟨same, room⟩
  · exact Or.inl member

end Enqueued

/-- The waiter count after `if (u32TimerWaiters > 0) u32TimerWaiters--;`. -/
def droppedWaiter : BitVec 32 :=
  if waiters > 0#32 then waiters - 1#32 else waiters

theorem dropTimerWaiter_eq (s : State) :
    s.dropTimerWaiter = { s with timerWaiters := droppedWaiter s.timerWaiters } := by
  rw [State.dropTimerWaiter, droppedWaiter]
  split <;> rfl

theorem toNat_droppedWaiter : (droppedWaiter waiters).toNat = waiters.toNat - 1 := by
  rw [droppedWaiter]
  split
  · rename_i positive
    bv_omega
  · rename_i zero
    bv_omega

theorem State.edit_self (s : State) (p : Addr) :
    s.edit p (s.pcbs p) s.ready s.timerWaiters = s := by
  simp only [State.edit, update_eq_self]

theorem leaveTimer_spec (s : State) (p : Addr) : ∃ word waiters,
      s.leaveTimer p = s.edit p { s.pcbs p with stateTags := word } s.ready waiters ∧
      waiters.toNat = s.timerWaiters.toNat - (if s.has p .waitTimer then 1 else 0) ∧
      ∀ tag, hasTag word tag = (s.has p tag && decide (tag ≠ .waitTimer)) := by
  by_cases timed : s.has p .waitTimer
  · refine ⟨withoutTags (s.pcbs p).stateTags [.waitTimer], droppedWaiter s.timerWaiters, ?_, ?_, ?_⟩
    · rw [State.leaveTimer, if_pos timed, dropTimerWaiter_eq]
      rfl
    · rw [if_pos timed, toNat_droppedWaiter]
    · intro tag
      simp [State.has]
  · refine ⟨(s.pcbs p).stateTags, s.timerWaiters, ?_, ?_, ?_⟩
    · rw [State.leaveTimer, if_neg timed]
      exact (s.edit_self p).symm
    · rw [if_neg timed, Nat.sub_zero]
    · intro tag
      by_cases isTimer : tag = .waitTimer
      · subst isTimer
        simpa [State.has] using timed
      · simp [State.has, isTimer]

theorem processWakeup_spec (asleep : s.has p .schedSleeping) : ∃ word ready waiters,
      processWakeup s p = s.edit p { s.pcbs p with stateTags := word } ready waiters ∧
      waiters.toNat = s.timerWaiters.toNat - (if s.has p .waitTimer then 1 else 0) ∧
      (s.ready.count < readyQueueSize ∧ ready.contents = s.queued ++ [p] ∧
          (∀ tag, hasTag word tag = (decide (tag = .schedReady) ||
            (s.has p tag && decide (tag ≠ .schedSleeping) && decide (tag ≠ .waitTimer)))) ∨
        s.ready.count = readyQueueSize ∧ ready = s.ready ∧
          ∀ tag, hasTag word tag = (decide (tag = .schedSleeping) ||
            (s.has p tag && decide (tag ≠ .schedReady) && decide (tag ≠ .waitTimer)))) := by
  obtain ⟨left, waiters, leaves, counts, leftTags⟩ := leaveTimer_spec s p
  rw [processWakeup, if_pos asleep]
  simp only [leaves, setTags_eq_edit, clearTags_eq_edit, edit_edit,
    pcbs_edit_self, ready_edit, timerWaiters_edit]
  cases done : readyEnqueue s.ready p with
  | none =>
    refine ⟨_, s.ready, waiters, rfl, counts, Or.inr ⟨readyEnqueue_eq_none.mp done, rfl, ?_⟩⟩
    intro tag
    cases tag <;> simp [leftTags]
  | some ready =>
    refine ⟨_, ready, waiters, rfl, counts, Or.inl ⟨?_, readyEnqueue_contents done, ?_⟩⟩
    · exact readyEnqueue_room done
    · intro tag
      cases tag <;> simp [leftTags]

theorem timerTickOne_spec (due : s.has p .schedSleeping = true ∧ s.has p .waitTimer = true ∧
    (s.pcbs p).sleepTicks ≠ 0) :
    ∃ process ready waiters, timerTickOne s p = s.edit p process ready waiters ∧
      process.resume = (s.pcbs p).resume ∧
      (process.stateTags = (s.pcbs p).stateTags ∧ process.sleepTicks ≠ 0 ∧ ready = s.ready ∧
          waiters = s.timerWaiters ∨
        s.ready.count < readyQueueSize ∧ ready.contents = s.queued ++ [p] ∧
          waiters.toNat = s.timerWaiters.toNat - 1 ∧
          (∀ tag, hasTag process.stateTags tag = (decide (tag = .schedReady) ||
            (s.has p tag && decide (tag ≠ .schedSleeping) && decide (tag ≠ .waitTimer)))) ∨
        s.ready.count = readyQueueSize ∧ process.sleepTicks ≠ 0 ∧ ready = s.ready ∧
          (∃ dropped : BitVec 32, dropped.toNat = s.timerWaiters.toNat - 1 ∧
            waiters = dropped + 1#32) ∧
          ∀ tag, hasTag process.stateTags tag = (s.has p tag && decide (tag ≠ .schedReady))) := by
  let counted : Process := { s.pcbs p with sleepTicks := (s.pcbs p).sleepTicks - 1#32 }
  let running := s.edit p counted s.ready s.timerWaiters
  have sameTags : ∀ tag, running.has p tag = s.has p tag := fun tag => has_edit_self _ _ _
  have isOne : timerTickOne s p =
      if counted.sleepTicks = 0 then
        if (processWakeup running p).has p .schedSleeping then
          { ((processWakeup running p).modify p fun process =>
              { process with sleepTicks := 1#32 }).setTags p [.waitTimer] with
            timerWaiters := (processWakeup running p).timerWaiters + 1#32 }
        else processWakeup running p
      else running := by
    rw [timerTickOne, if_pos due]
    simp only [modify_eq_edit, pcbs_edit_self]
    rfl
  by_cases elapsed : counted.sleepTicks = 0
  · rw [if_pos elapsed] at isOne
    have asleep : running.has p .schedSleeping = true := (sameTags _).trans due.1
    obtain ⟨word, ready, waiters, done, counts, queued⟩ := processWakeup_spec asleep
    simp only [sameTags, due.2.1, if_true] at counts queued
    have counts : waiters.toNat = s.timerWaiters.toNat - 1 := counts
    have done : processWakeup running p =
        s.edit p { counted with stateTags := word } ready waiters := by
      rw [done]
      simp only [running, edit_edit, pcbs_edit_self]
    rcases queued with ⟨room, appended, tags⟩ | ⟨full, rfl, tags⟩
    · have awake : ¬ (processWakeup running p).has p .schedSleeping = true := by
        rw [done, has_edit_self, tags]
        simp
      rw [if_neg awake, done] at isOne
      exact ⟨_, ready, waiters, isOne, rfl, Or.inr (Or.inl ⟨room, appended, counts, tags⟩)⟩
    · have stillAsleep : (processWakeup running p).has p .schedSleeping = true := by
        rw [done, has_edit_self, tags]
        simp
      rw [if_pos stillAsleep, done, modify_eq_edit, edit_edit, setTags_eq_edit,
        edit_edit, pcbs_edit_self, pcbs_edit_self] at isOne
      refine ⟨{ counted with stateTags := withTags word [.waitTimer], sleepTicks := 1#32 }, s.ready,
        waiters + 1#32, isOne, rfl, Or.inr (Or.inr ⟨full, ?_, rfl, ⟨waiters, counts, rfl⟩, ?_⟩)⟩
      · show 1#32 ≠ 0
        decide
      · intro tag
        show hasTag (withTags word [.waitTimer]) tag = _
        cases tag <;> simp [tags, due.1, due.2.1]
  · rw [if_neg elapsed] at isOne
    exact ⟨counted, s.ready, s.timerWaiters, isOne, rfl, Or.inl ⟨rfl, elapsed, rfl, rfl⟩⟩

theorem timerTickOne_allProcs (s : State) (p : Addr) :
    (timerTickOne s p).allProcs = s.allProcs := by
  by_cases due : s.has p .schedSleeping = true ∧ s.has p .waitTimer = true ∧
      (s.pcbs p).sleepTicks ≠ 0
  · obtain ⟨process, ready, waiters, done, -⟩ := timerTickOne_spec due
    rw [done]
    rfl
  · rw [timerTickOne, if_neg due]

theorem processTimerTick_induction {Inv : State → Prop} (inv : Inv s)
    (one : ∀ {s p}, Inv s → p ∈ s.allProcs → Inv (timerTickOne s p)) :
    Inv (processTimerTick s) := by
  have walk : ∀ (procs : List Addr) (s : State), Inv s → (∀ p ∈ procs, p ∈ s.allProcs) →
      Inv (procs.foldl timerTickOne s) := by
    intro procs
    induction procs with
    | nil => exact fun s inv _ => inv
    | cons p procs ih =>
      intro s inv registered
      apply ih (timerTickOne s p) (one inv (registered p mem_cons_self))
      intro q member
      rw [timerTickOne_allProcs]
      exact registered q (mem_cons_of_mem _ member)
  rw [processTimerTick]
  split
  · exact inv
  · split
    · exact inv
    · exact walk s.allProcs s inv fun _ member => member

variable {pid : BitVec 32}

theorem processFind_some (found : processFind s pid = some p) :
    (s.pcbs p).pid = pid ∧ (p ∈ s.allProcs ∨ s.current = some p) := by
  rw [processFind] at found
  split at found
  · rename_i registered isRegistered
    obtain rfl := Option.some.inj found
    exact ⟨by simpa using find?_some isRegistered, Or.inl (mem_of_find?_eq_some isRegistered)⟩
  · obtain ⟨isCurrent, hasPid⟩ := Option.filter_eq_some_iff.mp found
    exact ⟨by simpa using hasPid, Or.inr isCurrent⟩

theorem processFind_congr (pids : ∀ q, (s'.pcbs q).pid = (s.pcbs q).pid)
    (registry : s'.allProcs = s.allProcs) (current : s'.current = s.current) :
    processFind s' pid = processFind s pid := by
  simp only [processFind, pids, registry, current]

theorem pid_edit {process : Process} {ready : ReadyQueue} {waiters : BitVec 32}
    (same : process.pid = (s.pcbs p).pid) (q : Addr) :
    ((s.edit p process ready waiters).pcbs q).pid = (s.pcbs q).pid := by
  by_cases isP : q = p
  · subst isP
    rw [pcbs_edit_self, same]
  · rw [pcbs_edit_of_ne _ _ _ isP]

/-- A process marked for termination neither sleeps nor waits, and is queued unless its pid is. -/
structure Terminated (s : State) (p : Addr) (process : Process) (ready : ReadyQueue)
    (waiters : BitVec 32) : Prop where
  pid : process.pid = (s.pcbs p).pid
  resume : process.resume = (s.pcbs p).resume
  sleepTicks : process.sleepTicks = (s.pcbs p).sleepTicks
  waiters : waiters.toNat = s.timerWaiters.toNat - (if s.has p .waitTimer then 1 else 0)
  queue : processIsReady s (s.pcbs p).pid = true ∧ ready = s.ready ∨
    processIsReady s (s.pcbs p).pid = false ∧ Enqueued s.ready p ready
  tags : ∀ tag, tag ≠ .schedReady → hasTag process.stateTags tag = (decide (tag = .terminate) ||
    (s.has p tag && decide (tag ≠ .schedSleeping) && decide (tag ≠ .waitTimer)))

theorem processTerminate_spec (found : processFind s pid = some p) :
    ∃ process ready waiters, processTerminate s pid = s.edit p process ready waiters ∧
      Terminated s p process ready waiters := by
  obtain ⟨left, waiters, leaves, counts, leftTags⟩ :=
    leaveTimer_spec ((s.clearTags p [.schedSleeping]).setTags p [.terminate]) p
  -- The state after the tags are settled, before the queue is looked at.
  have settled : ∃ word,
      (let state := ((s.clearTags p [.schedSleeping]).setTags p [.terminate]).leaveTimer p
       if (state.pcbs p).stateTags &&& stateSchedMask = 0 then state.setTags p [.schedReady]
       else state) = s.edit p { s.pcbs p with stateTags := word } s.ready waiters ∧
      ∀ tag, tag ≠ .schedReady → hasTag word tag = hasTag left tag := by
    simp only [leaves]
    split
    · refine ⟨withTags left [.schedReady], ?_, ?_⟩
      · simp only [setTags_eq_edit, clearTags_eq_edit, edit_edit,
          pcbs_edit_self, ready_edit, timerWaiters_edit]
      · intro tag other
        simp [other]
    · refine ⟨left, ?_, fun _ _ => rfl⟩
      simp only [setTags_eq_edit, clearTags_eq_edit, edit_edit,
        pcbs_edit_self, ready_edit, timerWaiters_edit]
  obtain ⟨word, isSettled, wordTags⟩ := settled
  have tagged : ∀ tag, tag ≠ .schedReady → hasTag word tag = (decide (tag = .terminate) ||
      (s.has p tag && decide (tag ≠ .schedSleeping) && decide (tag ≠ .waitTimer))) := by
    intro tag other
    rw [wordTags tag other, leftTags, has_setTags_self, has_clearTags_self]
    cases tag <;> simp
  have counted : waiters.toNat = s.timerWaiters.toNat - (if s.has p .waitTimer then 1 else 0) := by
    rw [counts, has_setTags_self, has_clearTags_self]
    simp [setTags_eq_edit, clearTags_eq_edit]
  have sameReady : processIsReady (s.edit p { s.pcbs p with stateTags := word } s.ready waiters)
      (s.pcbs p).pid = processIsReady s (s.pcbs p).pid := by
    simp only [processIsReady, pid_edit]
    rfl
  rw [processTerminate]
  simp only [found] at isSettled ⊢
  rw [isSettled, pcbs_edit_self, sameReady]
  cases isReady : processIsReady s (s.pcbs p).pid with
  | true => exact ⟨_, s.ready, waiters, rfl, rfl, rfl, rfl, counted, Or.inl ⟨isReady, rfl⟩, tagged⟩
  | false =>
    obtain ⟨ready, done, enqueued⟩ := enqueue_spec
      (s.edit p { s.pcbs p with stateTags := word } s.ready waiters) p
    exact ⟨_, ready, waiters, done, rfl, rfl, rfl, counted, Or.inr ⟨isReady, enqueued⟩, tagged⟩

theorem Terminated.of_edit {marked process : Process} {ready : ReadyQueue} {waiters : BitVec 32}
    (terminated : Terminated (s.edit p marked s.ready s.timerWaiters) p process ready waiters)
    (pid : marked.pid = (s.pcbs p).pid) (resume : marked.resume = (s.pcbs p).resume)
    (sleepTicks : marked.sleepTicks = (s.pcbs p).sleepTicks)
    (tags : marked.stateTags = (s.pcbs p).stateTags) :
    Terminated s p process ready waiters := by
  have sameTags : ∀ tag, (s.edit p marked s.ready s.timerWaiters).has p tag = s.has p tag := by
    intro tag
    rw [has_edit_self, tags, State.has]
  have sameReady : processIsReady (s.edit p marked s.ready s.timerWaiters) marked.pid =
      processIsReady s (s.pcbs p).pid := by
    simp only [processIsReady, pid_edit pid, pid]
    rfl
  obtain ⟨isPid, isResume, isTicks, isWaiters, isQueue, isTags⟩ := terminated
  simp only [pcbs_edit_self, sameTags, sameReady] at isPid isResume isTicks isWaiters isQueue isTags
  exact ⟨isPid.trans pid, isResume.trans resume, isTicks.trans sleepTicks, isWaiters, isQueue,
    isTags⟩

/-- `process` has the tags of `p` up to those that stopping and continuing change. -/
structure Signalled (s : State) (p : Addr) (sig : Int) (process : Process) : Prop where
  pid : process.pid = (s.pcbs p).pid
  resume : process.resume = (s.pcbs p).resume
  sleepTicks : process.sleepTicks = (s.pcbs p).sleepTicks
  tags : ∀ tag, tag ≠ .stopped → tag ≠ .schedReady → hasTag process.stateTags tag = s.has p tag
  ignored : signalIsStop sig = false → signalIsCont sig = false →
    process.stateTags = (s.pcbs p).stateTags

theorem signalDeliver_fatal {sig : Int} (inRange : ¬ (sig ≤ 0 ∨ sig ≥ nsig))
    (notInit : ¬ ((s.pcbs p).pid = 1 ∧ sig = sigkill)) (fatal : signalIsFatal sig = true)
    (found : processFind s (s.pcbs p).pid = some p) :
    ∃ process ready waiters, signalDeliver s p sig = s.edit p process ready waiters ∧
      Terminated s p process ready waiters := by
  let marked : Process :=
    { s.pcbs p with
      pendingSignals := (s.pcbs p).pendingSignals ||| 1#32 <<< sig.toNat
      exitStatus := BitVec.ofInt 32 sig }
  have delivered : signalDeliver s p sig =
      processTerminate (s.edit p marked s.ready s.timerWaiters) (s.pcbs p).pid := by
    simp only [signalDeliver, if_neg inRange, if_neg notInit, fatal, if_true, modify_eq_edit,
      edit_edit, pcbs_edit_self, ready_edit, timerWaiters_edit, marked]
  have samePids : ∀ q, ((s.edit p marked s.ready s.timerWaiters).pcbs q).pid = (s.pcbs q).pid :=
    pid_edit rfl
  have sameFound : processFind (s.edit p marked s.ready s.timerWaiters) (s.pcbs p).pid = some p :=
    (processFind_congr samePids rfl rfl).trans found
  obtain ⟨process, ready, waiters, done, terminated⟩ := processTerminate_spec sameFound
  refine ⟨process, ready, waiters, ?_, terminated.of_edit rfl rfl rfl rfl⟩
  rw [delivered, done, edit_edit]

theorem signalDeliver_other {sig : Int} (inRange : ¬ (sig ≤ 0 ∨ sig ≥ nsig))
    (notInit : ¬ ((s.pcbs p).pid = 1 ∧ sig = sigkill)) (other : signalIsFatal sig = false) :
    ∃ process, signalDeliver s p sig = s.edit p process s.ready s.timerWaiters ∧
      Signalled s p sig process := by
  simp only [signalDeliver, if_neg inRange, if_neg notInit, other, Bool.false_eq_true, if_false,
    setTags_eq_edit, clearTags_eq_edit, modify_eq_edit, edit_edit,
    pcbs_edit_self, ready_edit, timerWaiters_edit]
  split
  · rename_i stops
    refine ⟨_, rfl, rfl, rfl, rfl, ?_, ?_⟩
    · intro tag notStopped notReady
      simp [notStopped, notReady, State.has]
    · intro notStop
      rw [notStop] at stops
      exact nomatch stops
  · split
    · rename_i conts
      have notCont : signalIsCont sig = false → False := by
        intro notCont
        rw [notCont] at conts
        exact nomatch conts
      split
      · refine ⟨_, rfl, rfl, rfl, rfl, ?_, fun _ isCont => (notCont isCont).elim⟩
        intro tag notStopped notReady
        simp [notStopped, notReady, State.has]
      · refine ⟨_, rfl, rfl, rfl, rfl, ?_, fun _ isCont => (notCont isCont).elim⟩
        intro tag notStopped _
        simp [notStopped, State.has]
    · exact ⟨_, rfl, rfl, rfl, rfl, fun _ _ _ => rfl, fun _ _ => rfl⟩

theorem kill_spec (s : State) (pid : BitVec 32) (sig : Int) : (kill s pid sig).1 = s ∨
    ∃ target, processFind s pid = some target ∧
      (signalIsFatal sig = true ∧ ¬ (pid = 1 ∧ sig = sigkill) ∧
          (∃ process ready waiters, (kill s pid sig).1 = s.edit target process ready waiters ∧
            Terminated s target process ready waiters) ∨
        signalIsFatal sig = false ∧
          ∃ process, (kill s pid sig).1 = s.edit target process s.ready s.timerWaiters ∧
            Signalled s target sig process) := by
  rw [kill]
  split
  · exact Or.inl rfl
  · rename_i inRange
    split
    · exact Or.inl rfl
    · rename_i target found
      split
      · exact Or.inl rfl
      · rename_i notInit
        refine Or.inr ⟨target, found, ?_⟩
        obtain ⟨rfl, -⟩ := processFind_some found
        cases fatal : signalIsFatal sig with
        | true => exact Or.inl ⟨rfl, notInit, signalDeliver_fatal inRange notInit fatal found⟩
        | false => exact Or.inr ⟨rfl, signalDeliver_other inRange notInit fatal⟩

/-- Nothing that scheduling reads differs between the two states. -/
structure Untouched (s s' : State) : Prop where
  allProcs : s'.allProcs = s.allProcs
  ready : s'.ready = s.ready
  current : s'.current = s.current
  schedulerEnabled : s'.schedulerEnabled = s.schedulerEnabled
  timerWaiters : s'.timerWaiters = s.timerWaiters
  parked : s'.parked = s.parked
  stateTags : ∀ q, (s'.pcbs q).stateTags = (s.pcbs q).stateTags
  sleepTicks : ∀ q, (s'.pcbs q).sleepTicks = (s.pcbs q).sleepTicks
  resume : ∀ q, (s'.pcbs q).resume = (s.pcbs q).resume

namespace Untouched

theorem refl (s : State) : Untouched s s :=
  ⟨rfl, rfl, rfl, rfl, rfl, rfl, fun _ => rfl, fun _ => rfl, fun _ => rfl⟩

theorem trans (first : Untouched s s') (second : Untouched s' s'') : Untouched s s'' :=
  ⟨second.allProcs.trans first.allProcs, second.ready.trans first.ready,
    second.current.trans first.current, second.schedulerEnabled.trans first.schedulerEnabled,
    second.timerWaiters.trans first.timerWaiters, second.parked.trans first.parked,
    fun q => (second.stateTags q).trans (first.stateTags q),
    fun q => (second.sleepTicks q).trans (first.sleepTicks q),
    fun q => (second.resume q).trans (first.resume q)⟩

theorem has (same : Untouched s s') (q : Addr) (tag : Tag) : s'.has q tag = s.has q tag := by
  rw [State.has, same.stateTags, State.has]

theorem modify {change : Process → Process}
    (stateTags : (change (s.pcbs p)).stateTags = (s.pcbs p).stateTags)
    (sleepTicks : (change (s.pcbs p)).sleepTicks = (s.pcbs p).sleepTicks)
    (resume : (change (s.pcbs p)).resume = (s.pcbs p).resume) :
    Untouched s (s.modify p change) := by
  refine ⟨rfl, rfl, rfl, rfl, rfl, rfl, ?_, ?_, ?_⟩ <;> intro q <;> by_cases isP : q = p
  · subst isP
    rw [pcbs_modify_self, stateTags]
  · rw [pcbs_modify_of_ne _ _ isP]
  · subst isP
    rw [pcbs_modify_self, sleepTicks]
  · rw [pcbs_modify_of_ne _ _ isP]
  · subst isP
    rw [pcbs_modify_self, resume]
  · rw [pcbs_modify_of_ne _ _ isP]

theorem kill_sigchld (s : State) (pid : BitVec 32) : Untouched s (kill s pid sigchld).1 := by
  rcases kill_spec s pid sigchld with unchanged | ⟨target, -,
    ⟨fatal, -⟩ | ⟨-, process, done, marked⟩⟩
  · rw [unchanged]
    exact refl s
  · exact absurd fatal (by decide)
  · rw [done]
    have marks : Untouched s (s.modify target fun _ => process) :=
      modify (marked.ignored (by decide) (by decide)) marked.sleepTicks marked.resume
    exact marks

theorem reparentChildren (s : State) (parent : Addr) :
    Untouched s (processReparentChildren s parent) := by
  rw [processReparentChildren]
  generalize s.allProcs = children
  induction children generalizing s with
  | nil => exact refl s
  | cons p rest ih =>
    rw [foldl_cons]
    split
    · exact (modify rfl rfl rfl).trans (ih _)
    · exact ih s

end Untouched

theorem inheritedTags_spec (parentTags : BitVec 64) {inheritMask : BitVec 64}
    (allowed : inheritMask &&& (Tag.zombie.mask ||| Tag.idle.mask ||| stateReserved) = 0) :
    hasTag (inheritedTags parentTags inheritMask) .zombie = false ∧
      (hasTag (inheritedTags parentTags inheritMask) .waitTimer = true →
        hasTag parentTags .waitTimer = true) := by
  have noZombie : hasTag (parentTags &&& inheritMask) .zombie = false := by
    rw [Bool.eq_false_iff]
    intro inherited
    rw [BitVec.and_comm] at inherited
    have masked := hasTag_of_and inherited
    simp only [hasTag, bne_iff_ne, ne_eq] at masked
    apply masked
    rw [BitVec.or_assoc, BitVec.and_or_distrib_left] at allowed
    exact (BitVec.or_eq_zero_iff.mp allowed).1
  rw [inheritedTags]
  split
  · refine ⟨by simp [noZombie], ?_⟩
    intro timed
    exact hasTag_of_and (by simpa using timed)
  · exact ⟨noZombie, hasTag_of_and⟩

theorem forkChild_spec {inheritMask : BitVec 64} (s : State) (parent child : Addr) (kstack : Bool)
    (allowed : inheritMask &&& (Tag.zombie.mask ||| Tag.idle.mask ||| stateReserved) = 0) :
    ∃ process : Process, process.resume = .user ∧ hasTag process.stateTags .zombie = false ∧
      (hasTag process.stateTags .waitTimer = true → s.has parent .waitTimer = true) ∧
      (Untouched (s.edit child process s.ready s.timerWaiters)
            (forkChild s inheritMask parent child kstack).1 ∧
          (forkChild s inheritMask parent child kstack).1.processCount = s.processCount ∨
        ∃ ready, s.ready.count < readyQueueSize ∧ ready.contents = s.queued ++ [child] ∧ Untouched
            { s.edit child process ready s.timerWaiters with allProcs := child :: s.allProcs }
            (forkChild s inheritMask parent child kstack).1 ∧
          (forkChild s inheritMask parent child kstack).1.processCount =
            s.processCount + 1#32) := by
  let zeroed := s.modify child fun _ => { Process.zero with pid := s.nextPid }
  let process : Process :=
    { Process.zero with
      pid := s.nextPid
      ppid := (zeroed.pcbs parent).pid
      stateTags := inheritedTags (zeroed.pcbs parent).stateTags inheritMask }
  have parentTimer : zeroed.has parent .waitTimer = true → s.has parent .waitTimer = true := by
    intro timed
    by_cases isChild : parent = child
    · rw [isChild, State.has, pcbs_modify_self] at timed
      exact absurd timed (show ¬ hasTag 0 .waitTimer = true by decide)
    · rwa [State.has, pcbs_modify_of_ne _ _ isChild] at timed
  obtain ⟨noZombie, inheritsTimer⟩ := inheritedTags_spec (zeroed.pcbs parent).stateTags allowed
  refine ⟨process, rfl, noZombie, fun timed => parentTimer (inheritsTimer timed), ?_⟩
  have isFork : forkChild s inheritMask parent child kstack =
      if kstack = false then
        ({ s.edit child process s.ready s.timerWaiters with nextPid := s.nextPid + 1#32 }, -1)
      else if s.ready.count ≥ readyQueueSize then
        ({ s.edit child process s.ready s.timerWaiters with
           nextPid := s.nextPid + 1#32
           allProcs := (child :: s.allProcs).erase child
           processCount := s.processCount + 1#32 - 1#32 }, -1)
      else (State.enqueue { s.edit child process s.ready s.timerWaiters with
           nextPid := s.nextPid + 1#32
           allProcs := child :: s.allProcs
           processCount := s.processCount + 1#32 } child, s.nextPid) := by
    simp only [forkChild, State.modify, State.edit, update_self, update_idem, process, zeroed]
  rw [isFork]
  split
  · exact Or.inl ⟨⟨rfl, rfl, rfl, rfl, rfl, rfl, fun _ => rfl, fun _ => rfl, fun _ => rfl⟩, rfl⟩
  · split
    · exact Or.inl ⟨⟨erase_cons_head _ _, rfl, rfl, rfl, rfl, rfl, fun _ => rfl, fun _ => rfl,
        fun _ => rfl⟩, BitVec.add_sub_cancel _ _⟩
    · rename_i room
      obtain ⟨ready, done, ⟨-, appended⟩ | ⟨full, -⟩⟩ := enqueue_spec
        { s.edit child process s.ready s.timerWaiters with
          nextPid := s.nextPid + 1#32
          allProcs := child :: s.allProcs
          processCount := s.processCount + 1#32 } child
      · rw [done]
        exact Or.inr ⟨ready, Nat.lt_of_not_ge room, appended, ⟨rfl, rfl, rfl, rfl, rfl, rfl,
          fun _ => rfl, fun _ => rfl, fun _ => rfl⟩, rfl⟩
      · exact absurd (Nat.le_of_eq full.symm) room

theorem forkStatus_cases (s : State) (inheritMask : BitVec 64) (flags : BitVec 32)
    (pcb : Option Addr) (kstack : Bool) :
    (forkStatus s inheritMask flags pcb kstack).1 = s ∨
    ∃ child parent, pcb = some child ∧ s.current = some parent ∧
      inheritMask &&& (Tag.zombie.mask ||| Tag.idle.mask ||| stateReserved) = 0 ∧
      forkStatus s inheritMask flags pcb kstack = forkChild s inheritMask parent child kstack := by
  rw [forkStatus]
  split
  · exact Or.inl rfl
  · split
    · exact Or.inl rfl
    · rename_i allowed
      cases isCurrent : s.current with
      | none => exact Or.inl rfl
      | some parent =>
        cases pcb with
        | none => exact Or.inl rfl
        | some child => exact Or.inr ⟨child, parent, rfl, rfl, not_not.mp allowed, rfl⟩

/-- The tags of a reaped process: a zombie keeps only what reaping does not clear. -/
def reapedTag (before : Tag → Bool) : Tag → Bool
  | .zombie => true
  | .waitTimer => before .waitTimer
  | .idle => before .idle
  | _ => false

/-- Some processes have become zombies; nothing else up to the ready queue differs. -/
structure Reaps (s s' : State) : Prop where
  allProcs : s'.allProcs = s.allProcs
  current : s'.current = s.current
  schedulerEnabled : s'.schedulerEnabled = s.schedulerEnabled
  timerWaiters : s'.timerWaiters = s.timerWaiters
  parked : s'.parked = s.parked
  sleepTicks : ∀ q, (s'.pcbs q).sleepTicks = (s.pcbs q).sleepTicks
  resume : ∀ q, (s'.pcbs q).resume = (s.pcbs q).resume
  tags : ∀ q, (∀ tag, s'.has q tag = s.has q tag) ∨ ∀ tag, s'.has q tag = reapedTag (s.has q) tag

namespace Reaps

theorem refl (s : State) : Reaps s s :=
  ⟨rfl, rfl, rfl, rfl, rfl, fun _ => rfl, fun _ => rfl, fun _ => Or.inl fun _ => rfl⟩

theorem withReady (s : State) (ready : ReadyQueue) : Reaps s { s with ready := ready } :=
  ⟨rfl, rfl, rfl, rfl, rfl, fun _ => rfl, fun _ => rfl, fun _ => Or.inl fun _ => rfl⟩

theorem trans (first : Reaps s s') (second : Reaps s' s'') : Reaps s s'' := by
  refine ⟨second.allProcs.trans first.allProcs, second.current.trans first.current,
    second.schedulerEnabled.trans first.schedulerEnabled,
    second.timerWaiters.trans first.timerWaiters, second.parked.trans first.parked,
    fun q => (second.sleepTicks q).trans (first.sleepTicks q),
    fun q => (second.resume q).trans (first.resume q), ?_⟩
  intro q
  rcases first.tags q with kept | reaped <;> rcases second.tags q with kept' | reaped'
  · exact Or.inl fun tag => (kept' tag).trans (kept tag)
  · refine Or.inr fun tag => ?_
    rw [reaped', funext kept]
  · exact Or.inr fun tag => (kept' tag).trans (reaped tag)
  · refine Or.inr fun tag => ?_
    rw [reaped', funext reaped]
    cases tag <;> rfl

theorem live (reaps : Reaps s s') (alive : s'.has q .zombie = false) (tag : Tag) :
    s'.has q tag = s.has q tag := by
  rcases reaps.tags q with kept | reaped
  · exact kept tag
  · rw [reaped .zombie] at alive
    exact nomatch alive

theorem zombie (reaps : Reaps s s') (dead : s.has q .zombie) : s'.has q .zombie := by
  rcases reaps.tags q with kept | reaped
  · rw [kept, dead]
  · rw [reaped, reapedTag]

theorem waitTimer (reaps : Reaps s s') (q : Addr) : s'.has q .waitTimer = s.has q .waitTimer := by
  rcases reaps.tags q with kept | reaped
  · exact kept _
  · rw [reaped, reapedTag]

end Reaps

theorem kill_processCount (s : State) (pid : BitVec 32) (sig : Int) :
    (kill s pid sig).1.processCount = s.processCount := by
  rcases kill_spec s pid sig with unchanged | ⟨_, _, ⟨_, _, _, _, _, done, _⟩ | ⟨_, _, done, _⟩⟩
  · rw [unchanged]
  · rw [done]
    rfl
  · rw [done]
    rfl

theorem reparentChildren_processCount (s : State) (parent : Addr) :
    (processReparentChildren s parent).processCount = s.processCount := by
  rw [processReparentChildren]
  generalize s.allProcs = children
  induction children generalizing s with
  | nil => rfl
  | cons p rest ih =>
    rw [foldl_cons, ih]
    split <;> rfl

theorem processReap_processCount (s : State) (p : Addr) :
    (processReap s p).processCount = s.processCount - 1#32 := by
  rw [processReap, reparentChildren_processCount]
  dsimp only
  split
  · rfl
  · rw [kill_processCount]
    rfl

/-- What reaping does before it tells the parent and the children. -/
def bury (s : State) (p : Addr) : State :=
  { (s.clearTags p [.schedRunning, .schedReady, .schedSleeping, .stopped, .terminate]).setTags p
      [.zombie] with ready := readyRemove s.ready p }

theorem processReap_untouched (s : State) (p : Addr) : Untouched (bury s p) (processReap s p) := by
  rw [processReap]
  refine Untouched.trans ?_ (Untouched.reparentChildren _ _)
  split
  · exact ⟨rfl, rfl, rfl, rfl, rfl, rfl, fun _ => rfl, fun _ => rfl, fun _ => rfl⟩
  · refine (Untouched.kill_sigchld (bury s p) ((bury s p).pcbs p).ppid).trans ?_
    exact ⟨rfl, rfl, rfl, rfl, rfl, rfl, fun _ => rfl, fun _ => rfl, fun _ => rfl⟩

theorem processReap_has_self (s : State) (p : Addr) (tag : Tag) :
    (processReap s p).has p tag = reapedTag (s.has p) tag := by
  rw [(processReap_untouched s p).has]
  show ((s.clearTags p _).setTags p _).has p tag = _
  rw [has_setTags_self, has_clearTags_self]
  cases tag <;> simp [reapedTag]

/-- A reaped process leaves the queue and is a zombie; the others keep their tags. -/
theorem processReap_spec (s : State) (p : Addr) :
    Reaps s (processReap s p) ∧ (processReap s p).queued = s.queued.erase p ∧
      (processReap s p).has p .zombie = true ∧
      ∀ q tag, q ≠ p → (processReap s p).has q tag = s.has q tag := by
  have same := processReap_untouched s p
  have otherPcbs : ∀ q, q ≠ p → (bury s p).pcbs q = s.pcbs q := by
    intro q other
    show ((s.clearTags p _).setTags p _).pcbs q = s.pcbs q
    rw [State.setTags, pcbs_modify_of_ne _ _ other, State.clearTags, pcbs_modify_of_ne _ _ other]
  have otherTags : ∀ q tag, q ≠ p → (processReap s p).has q tag = s.has q tag := by
    intro q tag other
    rw [same.has, State.has, otherPcbs q other, State.has]
  refine ⟨⟨same.allProcs, same.current, same.schedulerEnabled, same.timerWaiters, same.parked,
    ?_, ?_, ?_⟩, ?_, ?_, otherTags⟩
  · intro q
    rw [same.sleepTicks]
    by_cases isP : q = p
    · subst isP
      simp [bury, State.setTags, State.clearTags]
    · rw [otherPcbs q isP]
  · intro q
    rw [same.resume]
    by_cases isP : q = p
    · subst isP
      simp [bury, State.setTags, State.clearTags]
    · rw [otherPcbs q isP]
  · intro q
    by_cases isP : q = p
    · subst isP
      exact Or.inr (processReap_has_self s q)
    · exact Or.inl fun tag => otherTags q tag isP
  · rw [State.queued, same.ready]
    exact readyRemove_contents
  · rw [processReap_has_self, reapedTag]

end M4KK1.Kernel
