import Mathlib.Data.List.Perm.Subperm
import M4KK1.Kernel.ProcessCalls

/-!
# Choosing the next process

`Scan` is what `mkrn_process_switch_pick` and `mkrn_process_dequeue_live` have in common.
-/

namespace M4KK1.Kernel

open List State

variable {s s' : State} {p q : Addr} {next : Option Addr} {ready : ReadyQueue}

/-- The registered processes that have not been reaped. -/
def liveCount (s : State) : Nat := s.allProcs.countP fun p => !s.has p .zombie

/-- By how much `process_count` differs from the number of these processes. -/
def tally (s : State) : BitVec 32 := s.processCount - BitVec.ofNat 32 (liveCount s)

/-- Every queued process is queued once, registered, and no zombie. -/
structure Reapable (s : State) : Prop where
  procs : s.allProcs.Nodup
  nodup : s.queued.Nodup
  registered : ∀ p ∈ s.queued, p ∈ s.allProcs
  live : ∀ p ∈ s.queued, s.has p .zombie = false

theorem liveCount_reaped (procs : s.allProcs.Nodup) (registered : p ∈ s.allProcs)
    (sameProcs : s'.allProcs = s.allProcs) (live : s.has p .zombie = false)
    (dead : s'.has p .zombie = true)
    (others : ∀ q, q ≠ p → s'.has q .zombie = s.has q .zombie) :
    liveCount s' + 1 = liveCount s := by
  have split := perm_cons_erase registered
  have rest : (s.allProcs.erase p).countP (fun q => !s'.has q .zombie) =
      (s.allProcs.erase p).countP (fun q => !s.has q .zombie) := by
    apply countP_congr
    intro q inRest
    rw [others q]
    rintro rfl
    exact procs.not_mem_erase inRest
  rw [liveCount, liveCount, sameProcs, split.countP_eq, split.countP_eq, countP_cons,
    countP_cons, rest, live, dead]
  rfl

theorem processReap_tally (procs : s.allProcs.Nodup) (registered : p ∈ s.allProcs)
    (live : s.has p .zombie = false) : tally (processReap s p) = tally s := by
  obtain ⟨reaps, -, dead, others⟩ := processReap_spec s p
  have fewer := liveCount_reaped procs registered reaps.allProcs live dead fun q => others q .zombie
  have isSucc : BitVec.ofNat 32 (liveCount s) =
      BitVec.ofNat 32 (liveCount (processReap s p)) + 1#32 := by
    rw [← fewer, BitVec.ofNat_add]
  rw [tally, tally, processReap_processCount, isSucc]
  bv_omega

/-- A search of the queue chooses `next`, and all others queued are still queued or have been
reaped. -/
structure Scan (s s' : State) (next : Option Addr) : Prop where
  reaps : Reaps s s'
  tally : Reapable s → tally s' = tally s
  subperm : (next.toList ++ s'.queued).Subperm s.queued
  kept : ∀ q ∈ s.queued, q ∈ next.toList ++ s'.queued ∨ s'.has q .zombie
  outside : ∀ q, q ∉ s.queued → ∀ tag, s'.has q tag = s.has q tag
  unreaped : s.queued.Nodup → ∀ q ∈ next.toList ++ s'.queued, ∀ tag, s'.has q tag = s.has q tag
  live : ∀ chosen, next = some chosen → s'.has chosen .terminate = false

namespace Scan

theorem nothing (s : State) : Scan s s none :=
  ⟨Reaps.refl s, fun _ => rfl, List.Subperm.refl _, fun _ member => Or.inl member,
    fun _ _ _ => rfl, fun _ _ _ _ => rfl, fun _ isNext => nomatch isNext⟩

theorem choose (dequeued : readyDequeue s.ready = some (p, ready))
    (live : s.has p .terminate = false) : Scan s { s with ready := ready } (some p) := by
  have isQueue : s.queued = p :: ready.contents := readyDequeue_contents dequeued
  refine ⟨Reaps.withReady s ready, fun _ => rfl, ?_, ?_, fun _ _ _ => rfl, fun _ _ _ _ => rfl, ?_⟩
  · rw [isQueue]
    exact List.Subperm.refl _
  · intro q member
    rw [isQueue] at member
    exact Or.inl member
  · intro chosen isNext
    obtain rfl := Option.some.inj isNext
    exact live

theorem reorder {ready' : ReadyQueue} (same : ready'.contents.Perm s.queued)
    (scan : Scan { s with ready := ready' } s' next) : Scan s s' next := by
  refine ⟨(Reaps.withReady s ready').trans scan.reaps, ?_, ?_, ?_, ?_, ?_, scan.live⟩
  · intro reapable
    apply scan.tally
    refine ⟨reapable.procs, same.nodup_iff.mpr reapable.nodup, ?_, ?_⟩
    · exact fun q queued => reapable.registered q (same.mem_iff.mp queued)
    · exact fun q queued => reapable.live q (same.mem_iff.mp queued)
  · exact scan.subperm.trans same.subperm
  · intro q member
    exact scan.kept q (same.mem_iff.mpr member)
  · intro q absent
    exact scan.outside q fun member => absent (same.mem_iff.mp member)
  · intro nodup
    exact scan.unreaped (same.nodup_iff.mpr nodup)

theorem reap (dequeued : readyDequeue s.ready = some (p, ready))
    (scan : Scan (processReap { s with ready := ready } p) s' next) : Scan s s' next := by
  have isQueue : s.queued = p :: ready.contents := readyDequeue_contents dequeued
  obtain ⟨reaps, isRest, dead, others⟩ := processReap_spec { s with ready := ready } p
  have isRest : (processReap { s with ready := ready } p).queued = ready.contents.erase p := isRest
  have others : ∀ q tag, q ≠ p → (processReap { s with ready := ready } p).has q tag =
      s.has q tag :=
    others
  refine ⟨(Reaps.withReady s ready).trans (reaps.trans scan.reaps), ?_, ?_, ?_, ?_, ?_, scan.live⟩
  · rintro ⟨procs, nodup, registered, live⟩
    rw [isQueue, nodup_cons] at nodup
    rw [isQueue] at registered live
    have isRest' : (processReap { s with ready := ready } p).queued = ready.contents := by
      rw [isRest, erase_of_not_mem nodup.1]
    have sameProcs : (processReap { s with ready := ready } p).allProcs = s.allProcs :=
      reaps.allProcs
    rw [scan.tally ⟨?_, isRest' ▸ nodup.2, ?_, ?_⟩]
    · exact processReap_tally procs (registered p mem_cons_self) (live p mem_cons_self)
    · rwa [sameProcs]
    · intro q queued
      rw [isRest'] at queued
      rw [sameProcs]
      exact registered q (mem_cons_of_mem _ queued)
    · intro q queued
      rw [isRest'] at queued
      rw [others q _ fun isP => nodup.1 (isP ▸ queued)]
      exact live q (mem_cons_of_mem _ queued)
  · rw [isQueue]
    exact (isRest ▸ scan.subperm).trans
      (((erase_sublist).trans (sublist_cons_self _ _)).subperm)
  · intro q member
    by_cases isP : q = p
    · subst isP
      exact Or.inr (scan.reaps.zombie dead)
    · rw [isQueue, mem_cons, or_iff_right isP] at member
      exact scan.kept q (isRest ▸ (mem_erase_of_ne isP).mpr member)
  · intro q absent tag
    rw [isQueue, mem_cons, not_or] at absent
    rw [scan.outside q, others q tag absent.1]
    rw [isRest]
    exact fun member => absent.2 (mem_of_mem_erase member)
  · intro nodup q member tag
    rw [isQueue, nodup_cons] at nodup
    have isRest' := isRest
    rw [erase_of_not_mem nodup.1] at isRest'
    have inRest : q ∈ ready.contents := isRest' ▸ scan.subperm.subset member
    rw [scan.unreaped (isRest' ▸ nodup.2) q member tag]
    exact others q tag fun isP => nodup.1 (isP ▸ inRest)

end Scan

variable (fuel : Nat)

/-- The loop takes the first live process off the queue and reaps the dead before it. -/
theorem dequeueLiveLoop_scan : ∀ s : State,
    Scan s (dequeueLiveLoop fuel s).1 (dequeueLiveLoop fuel s).2 := by
  induction fuel with
  | zero => exact Scan.nothing
  | succ fuel ih =>
    intro s
    rw [dequeueLiveLoop]
    split
    · exact Scan.nothing s
    · rename_i p ready dequeued
      dsimp only
      split
      · exact (ih _).reap dequeued
      · rename_i live
        exact Scan.choose dequeued (Bool.eq_false_iff.mpr live)

theorem readyDequeue_count (dequeued : readyDequeue s.ready = some (p, ready)) :
    s.ready.count = ready.count + 1 := by
  have shorter := congrArg List.length (readyDequeue_contents dequeued)
  simpa only [length_cons, ReadyQueue.length_contents] using shorter

theorem putBack (dequeued : readyDequeue s.ready = some (p, ready)) :
    ∃ ready', State.enqueue { s with ready := ready } p = { s with ready := ready' } ∧
      ready'.contents = ready.contents ++ [p] := by
  obtain ⟨ready', done, ⟨-, appended⟩ | ⟨full, -⟩⟩ := enqueue_spec { s with ready := ready } p
  · exact ⟨ready', done, appended⟩
  · have bounded := s.ready.count_le
    have fewer := readyDequeue_count dequeued
    have full : ready.count = readyQueueSize := full
    omega

/-- `mkrn_process_switch_pick` may choose `p`. -/
def Runnable (s : State) (p : Addr) : Prop :=
  s.has p .schedReady = true ∧ s.has p .stopped = false ∧ s.has p .terminate = false

instance : DecidablePred (Runnable s) := fun _ => inferInstanceAs (Decidable (_ ∧ _ ∧ _))

/-- A round of `mkrn_process_switch_pick` with `cand`: reap it, choose it, or put it back. -/
inductive Round (fuel : Nat) (s : State) (scanned : Nat) (cand : Addr) (ready : ReadyQueue) : Prop
  | reap (terminated : s.has cand .terminate = true)
      (goesOn : switchPickLoop (fuel + 1) s scanned =
        switchPickLoop fuel (processReap { s with ready := ready } cand) scanned)
  | choose (runnable : Runnable s cand)
      (ends : switchPickLoop (fuel + 1) s scanned = ({ s with ready := ready }, some cand))
  | putBack (live : s.has cand .terminate = false) (unfit : ¬ Runnable s cand) (ready' : ReadyQueue)
      (appended : ready'.contents = ready.contents ++ [cand])
      (goesOn : switchPickLoop (fuel + 1) s scanned =
        switchPickLoop fuel { s with ready := ready' } (scanned + 1))

theorem switchPickLoop_round (s : State) (scanned : Nat) :
    switchPickLoop (fuel + 1) s scanned = (s, none) ∧
        (s.ready.count + 1 ≤ scanned ∨ s.queued = []) ∨
      ∃ cand ready, readyDequeue s.ready = some (cand, ready) ∧
        Round fuel s scanned cand ready := by
  by_cases inBound : scanned < s.ready.count + 1
  · cases dequeued : readyDequeue s.ready with
    | none =>
      refine Or.inl ⟨?_, Or.inr (readyDequeue_eq_none.mp dequeued)⟩
      rw [switchPickLoop, if_pos inBound, dequeued]
    | some taken =>
      obtain ⟨cand, ready⟩ := taken
      refine Or.inr ⟨cand, ready, rfl, ?_⟩
      by_cases terminated : s.has cand .terminate = true
      · have reaped : State.has { s with ready := ready } cand .terminate = true := terminated
        apply Round.reap terminated
        simp only [switchPickLoop, if_pos inBound, dequeued, if_pos reaped]
      · have unreaped : ¬ State.has { s with ready := ready } cand .terminate = true := terminated
        have live : s.has cand .terminate = false := Bool.eq_false_iff.mpr terminated
        by_cases fits : (!State.has { s with ready := ready } cand .stopped &&
            State.has { s with ready := ready } cand .schedReady) = true
        · refine Round.choose ⟨?_, ?_, live⟩ ?_
          · exact (Bool.and_eq_true_iff.mp fits).2
          · exact (Bool.not_eq_true' _).mp (Bool.and_eq_true_iff.mp fits).1
          · simp only [switchPickLoop, if_pos inBound, dequeued, if_neg unreaped, if_pos fits]
        · obtain ⟨ready', done, appended⟩ := putBack dequeued
          refine Round.putBack live ?_ ready' appended ?_
          · rintro ⟨isReady, notStopped, -⟩
            apply fits
            show (!s.has cand .stopped && s.has cand .schedReady) = true
            rw [isReady, notStopped]
            rfl
          · simp only [switchPickLoop, if_pos inBound, dequeued, if_neg unreaped, if_neg fits, done]
  · refine Or.inl ⟨?_, Or.inl (Nat.le_of_not_lt inBound)⟩
    rw [switchPickLoop, if_neg inBound]

theorem switchPickLoop_scan : ∀ (s : State) (scanned : Nat),
    Scan s (switchPickLoop fuel s scanned).1 (switchPickLoop fuel s scanned).2 := by
  induction fuel with
  | zero => exact fun s _ => Scan.nothing s
  | succ fuel ih =>
    intro s scanned
    rcases switchPickLoop_round fuel s scanned with ⟨ends, -⟩ | ⟨cand, ready, dequeued, round⟩
    · rw [ends]
      exact Scan.nothing s
    · cases round with
      | reap terminated goesOn =>
        rw [goesOn]
        exact (ih _ _).reap dequeued
      | choose runnable ends =>
        rw [ends]
        exact Scan.choose dequeued runnable.2.2
      | putBack live unfit ready' appended goesOn =>
        rw [goesOn]
        refine (ih _ _).reorder ?_
        rw [appended, State.queued, readyDequeue_contents dequeued]
        exact perm_append_singleton _ _

theorem switchPickLoop_runnable : ∀ (s : State) (scanned : Nat) (chosen : Addr),
    (switchPickLoop fuel s scanned).2 = some chosen →
      Runnable (switchPickLoop fuel s scanned).1 chosen := by
  induction fuel with
  | zero =>
    intro s scanned chosen isNext
    exact nomatch isNext
  | succ fuel ih =>
    intro s scanned chosen isNext
    rcases switchPickLoop_round fuel s scanned with ⟨ends, -⟩ | ⟨cand, ready, dequeued, round⟩
    · rw [ends] at isNext
      exact nomatch isNext
    · cases round with
      | reap terminated goesOn =>
        rw [goesOn] at isNext ⊢
        exact ih _ _ chosen isNext
      | choose runnable ends =>
        rw [ends] at isNext ⊢
        obtain rfl := Option.some.inj isNext
        exact runnable
      | putBack live unfit ready' appended goesOn =>
        rw [goesOn] at isNext ⊢
        exact ih _ _ chosen isNext

theorem switchPickLoop_complete : ∀ (s : State) (front back : List Addr),
    s.queued = front ++ back → front.length ≤ fuel →
    (∀ q ∈ back, s.has q .terminate = false) →
    (switchPickLoop fuel s back.length).2 = none → ∀ q ∈ front, ¬ Runnable s q := by
  induction fuel with
  | zero =>
    intro s front back _ short _ _ q member
    rw [length_eq_zero_iff.mp (Nat.le_zero.mp short)] at member
    exact absurd member not_mem_nil
  | succ fuel ih =>
    intro s front back isQueue short live isNone
    cases front with
    | nil =>
      intro q member
      exact absurd member not_mem_nil
    | cons cand front =>
      have isCount : (cand :: front ++ back).length = s.ready.count := by
        rw [← isQueue, State.queued, ReadyQueue.length_contents]
      rw [length_append, length_cons] at isCount
      have short' : front.length ≤ fuel := Nat.le_of_succ_le_succ short
      rcases switchPickLoop_round fuel s back.length with
        ⟨-, tooMany | isEmpty⟩ | ⟨head, ready, dequeued, round⟩
      · omega
      · rw [isEmpty] at isQueue
        cases isQueue
      · have isHead : s.queued = head :: ready.contents := readyDequeue_contents dequeued
        rw [isQueue, cons_append, List.cons.injEq] at isHead
        obtain ⟨rfl, isRest⟩ := isHead
        cases round with
        | reap terminated goesOn =>
          rw [goesOn] at isNone
          obtain ⟨-, isQueue', -, others⟩ := processReap_spec { s with ready := ready } cand
          have others : ∀ q tag, q ≠ cand →
              (processReap { s with ready := ready } cand).has q tag = s.has q tag := others
          -- The other entries of the candidate are terminated too, so none was put back.
          have notBack : cand ∉ back := by
            intro member
            rw [live cand member] at terminated
            cases terminated
          have isQueue' : (processReap { s with ready := ready } cand).queued =
              front.erase cand ++ back := by
            rw [isQueue', State.queued, ← isRest, erase_append]
            split
            · rfl
            · rename_i notFront
              rw [erase_of_not_mem notBack, erase_of_not_mem notFront]
          have rest := ih _ (front.erase cand) back isQueue'
            (Nat.le_trans length_erase_le short')
            (fun q member => (others q _ fun same => notBack (same ▸ member)).trans (live q member))
            isNone
          intro q member runnable
          by_cases isCand : q = cand
          · rw [isCand, Runnable, terminated] at runnable
            cases runnable.2.2
          · rw [mem_cons, or_iff_right isCand] at member
            apply rest q ((mem_erase_of_ne isCand).mpr member)
            rwa [Runnable, others q _ isCand, others q _ isCand, others q _ isCand]
        | choose runnable ends =>
          rw [ends] at isNone
          cases isNone
        | putBack candLive unfit ready' appended goesOn =>
          rw [goesOn] at isNone
          have rest := ih { s with ready := ready' } front (back ++ [cand])
            (by rw [State.queued, appended, ← isRest, append_assoc]) short'
            (forall_mem_append.mpr ⟨live, forall_mem_singleton.mpr candLive⟩)
            (by rwa [length_append])
          exact forall_mem_cons.mpr ⟨unfit, rest⟩

theorem processReap_count (s : State) (p : Addr) :
    (processReap s p).ready.count ≤ s.ready.count := by
  have isQueue : (processReap s p).ready.contents = s.ready.contents.erase p :=
    (processReap_spec s p).2.1
  rw [← ReadyQueue.length_contents, ← ReadyQueue.length_contents, isQueue]
  exact length_erase_le

theorem switchPickLoop_fuel : ∀ (s : State) (scanned : Nat), s.ready.count + 1 - scanned ≤ fuel →
      switchPickLoop (fuel + 1) s scanned = switchPickLoop fuel s scanned := by
  induction fuel with
  | zero =>
    intro s scanned enough
    exact if_neg (by omega)
  | succ fuel ih =>
    intro s scanned enough
    conv_lhs => rw [switchPickLoop]
    conv_rhs => rw [switchPickLoop]
    split
    · cases dequeued : readyDequeue s.ready with
      | none => rfl
      | some taken =>
        obtain ⟨cand, ready⟩ := taken
        have fewer := readyDequeue_count dequeued
        have notMore : (processReap { s with ready := ready } cand).ready.count ≤ ready.count :=
          processReap_count { s with ready := ready } cand
        obtain ⟨ready', done, appended⟩ := putBack dequeued
        have asMany := congrArg List.length appended
        rw [length_append, ReadyQueue.length_contents, ReadyQueue.length_contents] at asMany
        simp only [done]
        rw [ih _ _ (by omega), ih { s with ready := ready' } (scanned + 1)
          (by show ready'.count + 1 - (scanned + 1) ≤ fuel; simp at asMany; omega)]
    · rfl

theorem dequeueLiveLoop_fuel : ∀ s : State, s.ready.count < fuel →
    dequeueLiveLoop (fuel + 1) s = dequeueLiveLoop fuel s := by
  induction fuel with
  | zero =>
    intro s enough
    omega
  | succ fuel ih =>
    intro s enough
    conv_lhs => rw [dequeueLiveLoop]
    conv_rhs => rw [dequeueLiveLoop]
    cases dequeued : readyDequeue s.ready with
    | none => rfl
    | some taken =>
      obtain ⟨p, ready⟩ := taken
      have fewer := readyDequeue_count dequeued
      have notMore : (processReap { s with ready := ready } p).ready.count ≤ ready.count :=
        processReap_count { s with ready := ready } p
      simp only
      rw [ih _ (by omega)]

theorem Reaps.runnable (reaps : Reaps s s') (runnable : Runnable s' p) : Runnable s p := by
  rcases reaps.tags p with kept | reaped
  · rwa [Runnable, kept, kept, kept] at runnable
  · rw [Runnable, reaped .schedReady] at runnable
    exact nomatch runnable.1

/-- The state in which `mkrn_process_switch_pick`, called from `point`, begins. -/
def suspend (s : State) (c : Addr) (point : Resume) : State :=
  requeueRunning (s.modify c fun process => { process with resume := point }) c

theorem suspend_spec (s : State) (c : Addr) (point : Resume) : ∃ word ready, suspend s c point =
        s.edit c { s.pcbs c with stateTags := word, resume := point } ready s.timerWaiters ∧
      (s.has c .schedRunning = false ∧ word = (s.pcbs c).stateTags ∧ ready = s.ready ∨
        s.has c .schedRunning = true ∧ Enqueued s.ready c ready ∧
          ∀ tag, hasTag word tag =
            (decide (tag = .schedReady) || (s.has c tag && decide (tag ≠ .schedRunning)))) := by
  rw [suspend, requeueRunning, modify_eq_edit, has_edit_self]
  cases running : hasTag (s.pcbs c).stateTags .schedRunning with
  | false => exact ⟨_, _, rfl, Or.inl ⟨running, rfl, rfl⟩⟩
  | true =>
    simp only [if_true, setTags_eq_edit, clearTags_eq_edit, edit_edit,
      pcbs_edit_self, ready_edit, timerWaiters_edit]
    obtain ⟨ready, done, enqueued⟩ := enqueue_spec (s.edit c
      { s.pcbs c with
        stateTags := withTags (withoutTags (s.pcbs c).stateTags [.schedRunning]) [.schedReady]
        resume := point } s.ready s.timerWaiters) c
    refine ⟨_, ready, done, Or.inr ⟨running, enqueued, ?_⟩⟩
    intro tag
    cases tag <;> simp [State.has]

/-- The search found nothing and the current process goes on, or it switches. -/
def Picked (s result : State) : Prop :=
  ∃ s' next, Scan s s' next ∧
    (next = none ∧ result = resumeCurrent s' ∧ (∀ q ∈ s.queued, ¬ Runnable s q) ∨
      ∃ chosen switched, next = some chosen ∧ Runnable s' chosen ∧
        Untouched (switchTo s' chosen) switched ∧ result = resumeCurrent switched ∧
        switched.processCount = s'.processCount)

theorem processYield_picked {c : Addr} {point : Resume} (isEnabled : s.schedulerEnabled = true)
    (isCurrent : s.current = some c) : Picked (suspend s c point) (processYield s point) := by
  have scan := switchPickLoop_scan ((suspend s c point).ready.count + 1) (suspend s c point) 0
  have runnable :=
    switchPickLoop_runnable ((suspend s c point).ready.count + 1) (suspend s c point) 0
  have complete := switchPickLoop_complete ((suspend s c point).ready.count + 1) (suspend s c point)
    (suspend s c point).queued [] (append_nil _).symm
    (by rw [State.queued, ReadyQueue.length_contents]; exact Nat.le_succ _)
    (fun _ member => absurd member not_mem_nil)
  rw [processYield, processSwitchPick, if_neg (by rw [isEnabled]; decide)]
  rw [length_nil] at complete
  simp only [isCurrent]
  split
  · rename_i s' found
    rw [show switchPickLoop ((suspend s c point).ready.count + 1) (suspend s c point) 0 = (s', none)
      from found] at scan complete
    exact ⟨s', none, scan, Or.inl ⟨rfl, rfl, complete rfl⟩⟩
  · rename_i s' chosen found
    rw [show switchPickLoop ((suspend s c point).ready.count + 1) (suspend s c point) 0 =
      (s', some chosen) from found] at scan runnable
    have resumed : Untouched (switchTo s' chosen) ((switchTo s' chosen).modify chosen fun process =>
        { process with lastResumeMs := (switchTo s' chosen).uptime }) :=
      Untouched.modify rfl rfl rfl
    exact ⟨s', some chosen, scan, Or.inr ⟨chosen, _, rfl, runnable chosen rfl, resumed, rfl, rfl⟩⟩

theorem processBlock_eq {c : Addr} (isCurrent : s.current = some c) :
    processBlock s = processYield (s.edit c
      { s.pcbs c with
        stateTags := withTags (withoutTags (s.pcbs c).stateTags [.schedRunning]) [.schedSleeping] }
      s.ready s.timerWaiters) .inBlock := by
  simp only [processBlock, isCurrent, setTags_eq_edit, clearTags_eq_edit, edit_edit,
    pcbs_edit_self, ready_edit, timerWaiters_edit]

theorem processSleep_eq {c : Addr} {ms freq : BitVec 32} (isEnabled : s.schedulerEnabled = true)
    (isCurrent : s.current = some c) (notZero : ms ≠ 0#32) :
    processSleep s ms freq = processYield (s.edit c
      { s.pcbs c with
        sleepTicks := sleepTicksFor ms freq
        stateTags := withTags (withoutTags (s.pcbs c).stateTags [.schedRunning])
          [.schedSleeping, .waitTimer] }
      s.ready (s.timerWaiters + 1#32)) .inSleep := by
  have enabled : ¬ s.schedulerEnabled = false := by
    rw [isEnabled]
    nofun
  simp only [processSleep, isCurrent, if_neg enabled, if_neg notZero, setTags_eq_edit,
    clearTags_eq_edit, modify_eq_edit, edit_edit, pcbs_edit_self,
    ready_edit, timerWaiters_edit]
  rfl

theorem switchTo_spec (s : State) (n : Addr) :
    ∃ word, switchTo s n =
        { s.edit n { s.pcbs n with stateTags := word } s.ready s.timerWaiters with
          current := some n } ∧
      ∀ tag, hasTag word tag = (decide (tag = .schedRunning) ||
        (s.has n tag && decide (tag ≠ .schedReady) && decide (tag ≠ .schedSleeping))) := by
  refine ⟨withTags (withoutTags (s.pcbs n).stateTags [.schedReady, .schedSleeping]) [.schedRunning],
    ?_, ?_⟩
  · simp only [switchTo, State.setTags, State.clearTags, State.modify, State.edit,
      Function.update_self, Function.update_idem]
  · intro tag
    cases tag <;> simp [State.has]

theorem has_switchTo_self (s : State) (n : Addr) (tag : Tag) :
    (switchTo s n).has n tag = (decide (tag = .schedRunning) ||
      (s.has n tag && decide (tag ≠ .schedReady) && decide (tag ≠ .schedSleeping))) := by
  obtain ⟨word, isSwitched, tags⟩ := switchTo_spec s n
  rw [← tags, State.has, isSwitched]
  simp only [pcbs_edit_self]

/-- The process that goes on is edited in its state word and its resume point only. -/
theorem resumeCurrent_spec {c : Addr} (isCurrent : s.current = some c)
    (inSleep : s.has c .waitTimer = true → (s.pcbs c).resume = .inSleep) :
    ∃ word point, resumeCurrent s =
        s.edit c { s.pcbs c with stateTags := word, resume := point } s.ready s.timerWaiters ∧
      ∀ tag, hasTag word tag = (s.has c tag && decide (tag ≠ .waitTimer)) := by
  have awake : (s.pcbs c).resume ≠ .inSleep → ∀ tag,
      hasTag (s.pcbs c).stateTags tag = (s.has c tag && decide (tag ≠ .waitTimer)) := by
    intro outside tag
    by_cases isTimer : tag = .waitTimer
    · subst isTimer
      have untimed : s.has c .waitTimer = false :=
        Bool.eq_false_iff.mpr fun timed => outside (inSleep timed)
      rw [untimed]
      exact untimed
    · simp [isTimer, State.has]
  have unchanged : s =
      s.edit c { s.pcbs c with resume := (s.pcbs c).resume } s.ready s.timerWaiters :=
    (s.edit_self c).symm
  cases point : (s.pcbs c).resume with
  | inSleep =>
    refine ⟨withoutTags (s.pcbs c).stateTags [.waitTimer], .user, ?_, ?_⟩
    · simp only [resumeCurrent, isCurrent, point, clearTags_eq_edit, modify_eq_edit,
        edit_edit, pcbs_edit_self, ready_edit, timerWaiters_edit]
    · intro tag
      simp [State.has]
  | inBlock =>
    refine ⟨(s.pcbs c).stateTags, .user, ?_, awake (by simp [point])⟩
    simp only [resumeCurrent, isCurrent, point]
    rfl
  | user =>
    refine ⟨_, _, Eq.trans ?_ unchanged, awake (by simp [point])⟩
    simp only [resumeCurrent, isCurrent, point]
  | inWaitpid pid options =>
    refine ⟨_, _, Eq.trans ?_ unchanged, awake (by simp [point])⟩
    simp only [resumeCurrent, isCurrent, point]

end M4KK1.Kernel
