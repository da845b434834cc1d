import Mathlib.Algebra.Ring.Nat
import Mathlib.Data.List.Count
import M4KK1.Kernel.QueueSound

/-!
# Zombies are counted out

`process_count` is right as long as a process is reaped once.
-/

namespace M4KK1.Kernel

open M4KK1.Lib List

variable {s s' : State} {p c : Addr}

/-- The number of registered processes not yet reaped, which has not wrapped. -/
structure ProcessesCounted (s : State) : Prop where
  count : s.processCount = BitVec.ofNat 32 (liveCount s)
  noWrap : s.allProcs.length < 2 ^ 32 → s.processCount.toNat = liveCount s

/-- Nothing that the count depends on differs between the two states. -/
structure Uncounting (s s' : State) : Prop where
  allProcs : s'.allProcs = s.allProcs
  processCount : s'.processCount = s.processCount
  zombie : ∀ q, s'.has q .zombie = s.has q .zombie

namespace Uncounting

theorem trans {s'' : State} (first : Uncounting s s') (second : Uncounting s' s'') :
    Uncounting s s'' :=
  ⟨second.allProcs.trans first.allProcs, second.processCount.trans first.processCount,
    fun q => (second.zombie q).trans (first.zombie q)⟩

theorem untouched (same : Untouched s s') (sameCount : s'.processCount = s.processCount) :
    Uncounting s s' :=
  ⟨same.allProcs, sameCount, fun q => same.has q .zombie⟩

theorem edit {process : Process} (ready : ReadyQueue) (waiters : BitVec 32)
    (same : hasTag process.stateTags .zombie = s.has p .zombie) :
    Uncounting s (s.edit p process ready waiters) := by
  refine ⟨rfl, rfl, fun q => ?_⟩
  by_cases isP : q = p
  · rw [isP, State.has_edit_self, same]
  · rw [State.has_edit_of_ne _ _ _ isP]

theorem suspend (s : State) (c : Addr) (point : Resume) : Uncounting s (suspend s c point) := by
  obtain ⟨word, ready, isSuspended, suspended⟩ := suspend_spec s c point
  rw [isSuspended]
  apply edit
  rcases suspended with ⟨-, rfl, -⟩ | ⟨-, -, tags⟩
  · rfl
  · simp [tags]

theorem switchTo (s : State) (n : Addr) : Uncounting s (switchTo s n) := by
  obtain ⟨word, isSwitched, tags⟩ := switchTo_spec s n
  have edited :
      Uncounting s (s.edit n { s.pcbs n with stateTags := word } s.ready s.timerWaiters) :=
    edit _ _ (by simp [tags])
  rw [isSwitched]
  exact { edited with }

theorem resumeCurrent (s : State) : Uncounting s (resumeCurrent s) := by
  rw [Kernel.resumeCurrent]
  split
  · exact ⟨rfl, rfl, fun _ => rfl⟩
  · rename_i c _
    split
    · rw [State.modify_eq_edit, State.clearTags_eq_edit, State.edit_edit]
      apply edit
      simp [State.has]
    · exact edit _ _ rfl
    · exact ⟨rfl, rfl, fun _ => rfl⟩

theorem tally (same : Uncounting s s') : tally s' = tally s := by
  rw [Kernel.tally, Kernel.tally, liveCount, liveCount, same.allProcs, same.processCount]
  simp only [same.zombie]

end Uncounting

theorem Picked.tally {result : State} (picked : Picked s result) (reapable : Reapable s) :
    tally result = tally s ∧ result.allProcs = s.allProcs := by
  obtain ⟨s', next, scan, ⟨-, rfl, -⟩ | ⟨n, switched, -, -, same, rfl, sameCount⟩⟩ := picked
  · have goesOn := Uncounting.resumeCurrent s'
    exact ⟨goesOn.tally.trans (scan.tally reapable), goesOn.allProcs.trans scan.reaps.allProcs⟩
  · have goesOn := ((Uncounting.switchTo s' n).trans (.untouched same sameCount)).trans
      (Uncounting.resumeCurrent switched)
    exact ⟨goesOn.tally.trans (scan.tally reapable), goesOn.allProcs.trans scan.reaps.allProcs⟩

theorem handOver_tally (reapable : Reapable s) :
    tally (handOver s) = tally s ∧ (handOver s).allProcs = s.allProcs := by
  have scan : Scan s (processDequeueLive s).1 (processDequeueLive s).2 := dequeueLiveLoop_scan _ s
  rw [handOver]
  revert scan
  obtain ⟨s', next⟩ := processDequeueLive s
  intro scan
  have balanced : tally s' = tally s := scan.tally reapable
  have sameProcs : s'.allProcs = s.allProcs := scan.reaps.allProcs
  cases next with
  | none => exact ⟨balanced, sameProcs⟩
  | some n =>
    have switched : Uncounting s' { switchTo s' n with parked := false } :=
      { Uncounting.switchTo s' n with }
    have goesOn := switched.trans (Uncounting.resumeCurrent _)
    exact ⟨goesOn.tally.trans balanced, goesOn.allProcs.trans sameProcs⟩

/-- The queue is sound, and the count is right. -/
structure Tallied (s : State) : Prop extends Sound s where
  procs : s.allProcs.Nodup
  balanced : tally s = 0#32

namespace Tallied

section

variable (tallied : Tallied s)

include tallied

theorem processesCounted : ProcessesCounted s := by
  have balanced := tallied.balanced
  have count : s.processCount = BitVec.ofNat 32 (liveCount s) := by
    rw [tally] at balanced
    bv_omega
  refine ⟨count, fun fits => ?_⟩
  have fewer : liveCount s ≤ s.allProcs.length := countP_le_length
  rw [count, BitVec.toNat_ofNat, Nat.mod_eq_of_lt (by omega)]

theorem uncounting (sound : Sound s') (same : Uncounting s s') : Tallied s' :=
  ⟨sound, same.allProcs ▸ tallied.procs, same.tally.trans tallied.balanced⟩

theorem picked {suspended : State} (sound : Sound s')
    (same : Uncounting s suspended) (orderly : Orderly suspended) (picked : Picked suspended s') :
    Tallied s' := by
  have procs : suspended.allProcs.Nodup := same.allProcs ▸ tallied.procs
  obtain ⟨sameTally, sameProcs⟩ :=
    picked.tally { orderly with procs := procs }
  exact ⟨sound, sameProcs ▸ procs, sameTally.trans (same.tally.trans tallied.balanced)⟩

theorem yield {point : Resume} (cpu : HasCpu s)
    (meets : soundConditions.yield s) : Tallied (processYield s point) := by
  obtain ⟨running, c, isCurrent⟩ := id cpu
  exact tallied.picked (tallied.toSound.yield cpu meets) (Uncounting.suspend s c point)
    (tallied.toSound.suspend running isCurrent point)
      (processYield_picked tallied.enabled isCurrent)

theorem goesToSleep (cpu : HasCpu s) (isCurrent : s.current = some c)
    (process : Process) (waiters : BitVec 32) (point : Resume)
    (idle : hasTag process.stateTags .schedRunning = false)
    (zombie : hasTag process.stateTags .zombie = s.has c .zombie)
    (timed : hasTag process.stateTags .waitTimer = true → point = .inSleep) :
    Tallied (processYield (s.edit c process s.ready waiters) point) := by
  have sound := tallied.toSound.goesToSleep cpu isCurrent process waiters point idle zombie timed
  obtain ⟨isSuspended, orderly⟩ :=
    tallied.toSound.suspendAsleep cpu.1 isCurrent process waiters point idle zombie timed
  refine tallied.picked sound ?_ (isSuspended ▸ orderly)
    (processYield_picked tallied.enabled isCurrent)
  exact (Uncounting.edit s.ready waiters zombie).trans (Uncounting.suspend _ c point)

theorem block (cpu : HasCpu s) : Tallied (processBlock s) := by
  obtain ⟨running, c, isCurrent⟩ := id cpu
  have untimed : hasTag (s.pcbs c).stateTags .waitTimer = false :=
    (tallied.current c isCurrent).awake
  rw [processBlock_eq isCurrent]
  apply tallied.goesToSleep cpu isCurrent
  · simp
  · simp [State.has]
  · simp [untimed]

theorem sleep (cpu : HasCpu s) {ms freq : BitVec 32} (notZero : ms ≠ 0#32) :
    Tallied (processSleep s ms freq) := by
  obtain ⟨running, c, isCurrent⟩ := id cpu
  rw [processSleep_eq tallied.enabled isCurrent notZero]
  apply tallied.goesToSleep cpu isCurrent
  · simp
  · simp [State.has]
  · exact fun _ => rfl

theorem wakeup (registered : p ∈ s.allProcs)
    (meets : soundConditions.wakeup s p) : Tallied (processWakeup s p) := by
  refine tallied.uncounting (tallied.toSound.wakeup registered meets) ?_
  by_cases asleep : s.has p .schedSleeping = true
  · obtain ⟨word, ready, waiters, done, -, queued⟩ := processWakeup_spec asleep
    rw [done]
    apply Uncounting.edit
    rcases queued with ⟨-, -, tags⟩ | ⟨-, -, tags⟩ <;> simp [tags]
  · rw [processWakeup, if_neg asleep]
    exact ⟨rfl, rfl, fun _ => rfl⟩

theorem tickOne (registered : p ∈ s.allProcs) : Tallied (timerTickOne s p) := by
  refine tallied.uncounting (tallied.toSound.tickOne registered) ?_
  by_cases due : s.has p .schedSleeping = true ∧ s.has p .waitTimer = true ∧
      (s.pcbs p).sleepTicks ≠ 0
  · obtain ⟨process, ready, waiters, done, -, outcome⟩ := timerTickOne_spec due
    rw [done]
    apply Uncounting.edit
    rcases outcome with ⟨same, -⟩ | ⟨-, -, -, tags⟩ | ⟨-, -, -, -, tags⟩
    · rw [same, State.has]
    · simp [tags]
    · simp [tags]
  · rw [timerTickOne, if_neg due]
    exact ⟨rfl, rfl, fun _ => rfl⟩

theorem exit (cpu : HasCpu s) (isCurrent : s.current = some c) :
    Tallied (handOver (processReap s c)) := by
  obtain ⟨registered, -, -, live, -, -⟩ := tallied.current c isCurrent
  have orderly := tallied.toSound.reap isCurrent
  have sameProcs : (processReap s c).allProcs = s.allProcs := (processReap_spec s c).1.allProcs
  have procs : (processReap s c).allProcs.Nodup := sameProcs ▸ tallied.procs
  obtain ⟨sameTally, sameProcs'⟩ :=
    handOver_tally { orderly with procs := procs }
  refine ⟨tallied.toSound.exit isCurrent, sameProcs' ▸ procs, ?_⟩
  rw [sameTally, processReap_tally tallied.procs registered (live cpu.1)]
  exact tallied.balanced

theorem probe (parked : s.parked = true) : Tallied (handOver s) := by
  obtain ⟨sameTally, sameProcs⟩ :=
    handOver_tally { tallied with }
  exact ⟨tallied.toSound.probe parked, sameProcs ▸ tallied.procs, sameTally.trans tallied.balanced⟩

theorem free (notCurrent : s.current ≠ some p) (dead : s.has p .zombie = true) :
    Tallied (procFreeZombie s p) := by
  refine ⟨tallied.toSound.free notCurrent dead, tallied.procs.erase p, ?_⟩
  have same : liveCount (procFreeZombie s p) = liveCount s := by
    show (s.allProcs.erase p).countP (fun q => !s.has q .zombie) = _
    rw [countP_erase, if_neg (by simp [dead]), Nat.sub_zero, liveCount]
  rw [tally, same]
  exact tallied.balanced

theorem leave : Tallied (leaveWaitpid s) := by
  refine tallied.uncounting tallied.toSound.leave ?_
  rw [leaveWaitpid]
  split
  · exact ⟨rfl, rfl, fun _ => rfl⟩
  · exact Uncounting.edit _ _ rfl

theorem fork (inheritMask : BitVec 64) (flags : BitVec 32)
    (pcb : Option Addr) (kstack : Bool) (fresh : ∀ child, pcb = some child → child ∉ s.allProcs) :
    Tallied (forkStatus s inheritMask flags pcb kstack).1 := by
  have sound := tallied.toSound.fork inheritMask flags pcb kstack fresh
  rcases forkStatus_cases s inheritMask flags pcb kstack with
    unchanged | ⟨child, parent, isPcb, isCurrent, allowed, isFork⟩
  · rw [unchanged]
    exact tallied
  · rw [isFork] at sound ⊢
    obtain ⟨process, -, noZombie, -, outcome⟩ := forkChild_spec s parent child kstack allowed
    have unregistered := fresh child isPcb
    have sameLive : ∀ ready waiters, s.allProcs.countP
        (fun q => !(s.edit child process ready waiters).has q .zombie) = liveCount s := by
      intro ready waiters
      apply countP_congr
      intro q registered
      rw [State.has_edit_of_ne]
      rintro rfl
      exact unregistered registered
    rcases outcome with ⟨same, sameCount⟩ | ⟨ready, -, -, same, oneMore⟩
    · refine ⟨sound, same.allProcs ▸ tallied.procs, ?_⟩
      have sameTally := (Uncounting.untouched same sameCount).tally
      rw [sameTally, tally, liveCount]
      exact (congrArg _ (congrArg _ (sameLive _ _))).trans tallied.balanced
    · refine ⟨sound, ?_, ?_⟩
      · rw [same.allProcs]
        exact nodup_cons.mpr ⟨unregistered, tallied.procs⟩
      · have childLive : (s.edit child process ready s.timerWaiters).has child .zombie = false :=
          (State.has_edit_self _ _ _).trans noZombie
        have more : liveCount (forkChild s inheritMask parent child kstack).1 =
            liveCount s + 1 := by
          rw [liveCount, same.allProcs]
          simp only [same.has]
          rw [← sameLive ready s.timerWaiters]
          exact countP_cons_of_pos (congrArg not childLive)
        have balanced := tallied.balanced
        rw [tally] at balanced ⊢
        rw [more, oneMore, BitVec.ofNat_add]
        bv_omega

end

end Tallied

theorem tallied_preserved : Preserved Tallied soundConditions where
  stable := sound_preserved.stable
  untouched same sameCount tallied :=
    tallied.uncounting (tallied.toSound.untouched same) (.untouched same sameCount)
  yield _ tallied cpu meets := tallied.yield cpu meets
  block tallied cpu _ := tallied.block cpu
  sleep _ _ tallied cpu notZero _ := tallied.sleep cpu notZero
  wakeup tallied registered meets := tallied.wakeup registered meets
  tickOne tallied registered := tallied.tickOne registered
  exit tallied cpu isCurrent := tallied.exit cpu isCurrent
  probe tallied parked := tallied.probe parked
  fork inheritMask flags pcb kstack tallied _ fresh :=
    tallied.fork inheritMask flags pcb kstack fresh
  free tallied notCurrent dead := tallied.free notCurrent dead
  leave tallied := tallied.leave
  terminated tallied _ isFound meets terminated := by
    refine tallied.uncounting (tallied.toSound.terminated isFound meets terminated) ?_
    apply Uncounting.edit
    rw [terminated.tags .zombie nofun]
    simp
  signalled tallied signalled :=
    tallied.uncounting (tallied.toSound.signalled signalled)
      (Uncounting.edit _ _ (signalled.tags .zombie nofun nofun))

theorem boot_tallied (idle : Addr) : Tallied (boot idle) := by
  refine ⟨boot_sound idle, by simp [boot], ?_⟩
  have live := ((boot_sound idle).current idle rfl).live rfl
  have one : liveCount (boot idle) = 1 := by
    show [idle].countP (fun q => !(boot idle).has q .zombie) = 1
    rw [countP_cons_of_pos (by rw [live]; rfl), countP_nil]
  rw [tally, one]
  show 1#32 - 1#32 = 0#32
  decide

/-- The count is right in every run whose steps meet the conditions. -/
theorem zombies_counted {idle : Addr} {calls : List Call} {final : State}
    (run : Steps (Guarded SchedStep soundConditions.Meets) (boot idle) calls final) :
    ProcessesCounted final :=
  (tallied_preserved.run (boot_tallied idle) run).processesCounted

/-- A terminated child is still listed and no longer counted. -/
theorem zombies_counted_terminate :
    ∃ final, Steps (Guarded SchedStep soundConditions.Meets) (boot 4096)
        [.fork 0 1 (some 8192) true, .terminate 2, .yield] final ∧
      final.allProcs = [8192, 4096] ∧ final.processCount = 1 ∧ ProcessesCounted final := by
  have run := Steps.refl.step (show Guarded SchedStep soundConditions.Meets (boot 4096)
    (.fork 0 1 (some 8192) true) _ from ⟨trivial, by decide, rfl⟩)
  have run := run.step (show Guarded SchedStep soundConditions.Meets _ (.terminate 2) _ from by
    refine ⟨?_, by decide, rfl⟩
    intro target found
    obtain rfl := Option.some.inj (found.symm.trans (show _ = some 8192 by decide))
    exact fun _ => ⟨by decide, by decide⟩)
  have run := run.step (show Guarded SchedStep soundConditions.Meets _ .yield _ from by
    refine ⟨?_, by decide, rfl⟩
    intro c isCurrent _ isStopped
    obtain rfl := Option.some.inj isCurrent
    exact absurd isStopped (by decide))
  exact ⟨_, run, by decide, by decide, zombies_counted run⟩

/-- A child exits, and its parent kills the zombie and yields: the child is counted out
twice. -/
theorem zombie_counted_out_twice :
    ∃ final, Steps SchedStep (boot 4096) [.fork 0 1 (some 8192) true, .yield, .exit 0,
        .kill 2 1, .yield] final ∧
      final.processCount = 0 ∧ liveCount final = 1 ∧ ¬ ProcessesCounted final := by
  refine ⟨_, steps_performAll (by decide), by decide, by decide, fun counted => ?_⟩
  exact absurd counted.count (by decide)

end M4KK1.Kernel
