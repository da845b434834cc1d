import Mathlib.Data.Finset.Card
import M4KK1.Lib.Run

/-!
# The alarm table of the timer

The handler scans below a mark, and a callback may create and destroy alarms (`body`).
-/

namespace M4KK1.Timer

open Lib Finset

def maxAlarms : Nat := 256

/-- `mkrn_timer_alarm_t`; a NULL callback is `none`. -/
structure Alarm (Handler : Type) where
  id : BitVec 32
  intervalMs : BitVec 32
  remainingMs : BitVec 32
  active : Bool
  callback : Option Handler

/-- `alarms`, `u32NextAlarmId`, `u32ActiveAlarms` and `u32AlarmHwm`. -/
structure AlarmTable (Handler : Type) where
  alarms : Nat → Alarm Handler
  nextAlarmId : BitVec 32
  activeAlarms : BitVec 32
  alarmHwm : Nat

variable {Handler : Type}

/-- The static variables before the first call. -/
def AlarmTable.initial : AlarmTable Handler := ⟨fun _ => ⟨0, 0, 0, false, none⟩, 1, 0, 0⟩

/-- A change to one slot. -/
def AlarmTable.put (t : AlarmTable Handler) (i : Nat) (alarm : Alarm Handler) :
    AlarmTable Handler :=
  { t with alarms := Function.update t.alarms i alarm }

/-- `while (u32AlarmHwm > 0 && !alarms[u32AlarmHwm - 1].active) u32AlarmHwm--;` -/
def lowered (alarms : Nat → Alarm Handler) : Nat → Nat
  | 0 => 0
  | mark + 1 => if (alarms mark).active then mark + 1 else lowered alarms mark

/-- An active slot goes idle: the count and the mark follow. -/
def AlarmTable.retire (t : AlarmTable Handler) (i : Nat) (callback : Option Handler) :
    AlarmTable Handler :=
  let t := t.put i { t.alarms i with active := false, callback := callback }
  { t with activeAlarms := t.activeAlarms - 1, alarmHwm := lowered t.alarms t.alarmHwm }

/-- An idle slot is armed: the next id, the count and the mark follow. -/
def AlarmTable.arm (t : AlarmTable Handler) (i : Nat) (intervalMs : BitVec 32)
    (callback : Option Handler) : AlarmTable Handler :=
  { t.put i ⟨t.nextAlarmId, intervalMs, intervalMs, true, callback⟩ with
    nextAlarmId := t.nextAlarmId + 1
    activeAlarms := t.activeAlarms + 1
    alarmHwm := if i + 1 > t.alarmHwm then i + 1 else t.alarmHwm }

/-- `mkrn_timer_create_alarm`, with the id it returns. -/
def createAlarm (t : AlarmTable Handler) (intervalMs : BitVec 32) (callback : Option Handler) :
    AlarmTable Handler × BitVec 32 :=
  if callback.isNone ∨ intervalMs = 0 then (t, 0)
  else
    match (List.range maxAlarms).find? fun i => !(t.alarms i).active with
    | none => (t, 0)
    | some i => (t.arm i intervalMs callback, t.nextAlarmId)

/-- `mkrn_timer_destroy_alarm`; `false` is the return value -1. -/
def destroyAlarm (t : AlarmTable Handler) (alarmId : BitVec 32) : AlarmTable Handler × Bool :=
  match (List.range maxAlarms).find? fun i => (t.alarms i).active && (t.alarms i).id = alarmId with
  | none => (t, false)
  | some i => (t.retire i none, true)

inductive AlarmCall (Handler : Type) where
  | create (intervalMs : BitVec 32) (callback : Option Handler)
  | destroy (alarmId : BitVec 32)

def AlarmTable.call (t : AlarmTable Handler) : AlarmCall Handler → AlarmTable Handler
  | .create intervalMs callback => (createAlarm t intervalMs callback).1
  | .destroy alarmId => (destroyAlarm t alarmId).1

abbrev Body (Handler : Type) := Handler → AlarmTable Handler → List (AlarmCall Handler)

/-- What a scan fired: the slot and its callback. -/
abbrev Fired (Handler : Type) := List (Nat × Handler)

variable (body : Body Handler)

/-- The timer handler's work on slot `i`. -/
def tickSlot (t : AlarmTable Handler) (i : Nat) : AlarmTable Handler × Fired Handler :=
  match (t.alarms i).active, (t.alarms i).callback with
  | true, some callback =>
    let t := t.put i { t.alarms i with remainingMs := (t.alarms i).remainingMs - 1 }
    if (t.alarms i).remainingMs = 0 then
      let t := (body callback t).foldl AlarmTable.call t
      if (t.alarms i).intervalMs > 0 then
        (t.put i { t.alarms i with remainingMs := (t.alarms i).intervalMs }, [(i, callback)])
      else (t.retire i (t.alarms i).callback, [(i, callback)])
    else (t, [])
  | _, _ => (t, [])

/-- A scan from slot `i` on, for at most `steps` slots, that reads its bound again before
every slot. -/
def scan (bound : AlarmTable Handler → Nat) :
    Nat → AlarmTable Handler → Nat → AlarmTable Handler × Fired Handler
  | 0, t, _ => (t, [])
  | steps + 1, t, i =>
    if i < bound t then
      let (t, fired) := tickSlot body t i
      let (t, rest) := scan bound steps t (i + 1)
      (t, fired ++ rest)
    else (t, [])

/-- The alarms' part of `mkrn_timer_handler`, with the alarms it fired. -/
def timerHandler (t : AlarmTable Handler) : AlarmTable Handler × Fired Handler :=
  if t.activeAlarms > 0 then scan body AlarmTable.alarmHwm maxAlarms t 0 else (t, [])

/-- The same work by a scan of the whole table, without the early exit. -/
def fullScan (t : AlarmTable Handler) : AlarmTable Handler × Fired Handler :=
  scan body (fun _ => maxAlarms) maxAlarms t 0

def AlarmTable.activeSlots (t : AlarmTable Handler) : Finset Nat :=
  (Finset.range maxAlarms).filter fun i => (t.alarms i).active = true

/-- The count and the mark agree with the table. -/
structure Consistent (t : AlarmTable Handler) : Prop where
  count : t.activeAlarms.toNat = t.activeSlots.card
  below : ∀ i, i ∈ t.activeSlots → i < t.alarmHwm
  mark : t.alarmHwm ≤ maxAlarms
  periodic : ∀ i, i ∈ t.activeSlots → 0 < (t.alarms i).intervalMs

section Slots

variable {t : AlarmTable Handler} {i j : Nat} {alarm : Alarm Handler}

theorem mem_activeSlots : i ∈ t.activeSlots ↔ i < maxAlarms ∧ (t.alarms i).active = true := by
  simp [AlarmTable.activeSlots]

@[simp] theorem alarms_put_self : (t.put i alarm).alarms i = alarm := Function.update_self ..

theorem alarms_put_of_ne (other : j ≠ i) : (t.put i alarm).alarms j = t.alarms j :=
  Function.update_of_ne other ..

theorem activeSlots_put_same (same : alarm.active = (t.alarms i).active) :
    (t.put i alarm).activeSlots = t.activeSlots := by
  ext j
  rw [mem_activeSlots, mem_activeSlots]
  by_cases isSlot : j = i
  · rw [isSlot, alarms_put_self, same]
  · rw [alarms_put_of_ne isSlot]

theorem activeSlots_put_on (inside : i < maxAlarms) (on : alarm.active = true) :
    (t.put i alarm).activeSlots = insert i t.activeSlots := by
  ext j
  rw [mem_insert, mem_activeSlots, mem_activeSlots]
  by_cases isSlot : j = i
  · simp [isSlot, on, inside]
  · simp [isSlot, alarms_put_of_ne isSlot]

theorem activeSlots_put_off (off : alarm.active = false) :
    (t.put i alarm).activeSlots = t.activeSlots.erase i := by
  ext j
  rw [mem_erase, mem_activeSlots, mem_activeSlots]
  by_cases isSlot : j = i
  · simp [isSlot, off]
  · simp [isSlot, alarms_put_of_ne isSlot]

theorem activeSlots_card_le : t.activeSlots.card ≤ maxAlarms := by
  refine (card_filter_le _ _).trans ?_
  rw [card_range]

theorem lowered_le (alarms : Nat → Alarm Handler) (mark : Nat) : lowered alarms mark ≤ mark := by
  induction mark with
  | zero => exact Nat.le_refl 0
  | succ mark ih =>
    rw [lowered]
    split
    · exact Nat.le_refl _
    · exact Nat.le_succ_of_le ih

theorem lt_lowered {alarms : Nat → Alarm Handler} {mark : Nat} (active : (alarms j).active = true)
    (below : j < mark) : j < lowered alarms mark := by
  induction mark with
  | zero => exact absurd below (Nat.not_lt_zero j)
  | succ mark ih =>
    rw [lowered]
    split
    · exact below
    · rename_i idle
      have apart : j ≠ mark := by
        rintro rfl
        exact idle active
      exact ih (Nat.lt_of_le_of_ne (Nat.le_of_lt_succ below) apart)

end Slots

theorem call_cases (t : AlarmTable Handler) (call : AlarmCall Handler) : t.call call = t ∨
    (∃ i intervalMs callback, i < maxAlarms ∧ i ∉ t.activeSlots ∧ intervalMs ≠ 0 ∧
      t.call call = t.arm i intervalMs callback) ∨
    ∃ i, i ∈ t.activeSlots ∧ t.call call = t.retire i none := by
  cases call with
  | create intervalMs callback =>
    unfold AlarmTable.call createAlarm
    dsimp only
    split
    · exact .inl rfl
    · rename_i valid
      split
      · exact .inl rfl
      · rename_i i found
        have idle := List.find?_some found
        refine .inr
          (.inl ⟨i, intervalMs, callback, List.mem_range.mp (List.mem_of_find?_eq_some found), ?_,
          fun zero => valid (.inr zero), rfl⟩)
        rw [mem_activeSlots]
        rintro ⟨-, active⟩
        simp [active] at idle
  | destroy alarmId =>
    unfold AlarmTable.call destroyAlarm
    dsimp only
    split
    · exact .inl rfl
    · rename_i i found
      have wanted := List.find?_some found
      rw [Bool.and_eq_true] at wanted
      exact .inr (.inr ⟨i, mem_activeSlots.mpr
        ⟨List.mem_range.mp (List.mem_of_find?_eq_some found), wanted.1⟩, rfl⟩)

namespace Consistent

open Finset

variable {t : AlarmTable Handler} {i : Nat} {alarm : Alarm Handler}

theorem initial : Consistent (AlarmTable.initial : AlarmTable Handler) where
  count := by simp [AlarmTable.activeSlots, AlarmTable.initial]
  below i member := by simp [mem_activeSlots, AlarmTable.initial] at member
  mark := Nat.zero_le _
  periodic i member := by simp [mem_activeSlots, AlarmTable.initial] at member

section

variable (consistent : Consistent t)

include consistent

theorem retime (same : alarm.active = (t.alarms i).active)
    (kept : alarm.intervalMs = (t.alarms i).intervalMs) : Consistent (t.put i alarm) := by
  have sameSlots : (t.put i alarm).activeSlots = t.activeSlots := activeSlots_put_same same
  refine ⟨?_, ?_, consistent.mark, ?_⟩
  · rw [sameSlots]
    exact consistent.count
  · rw [sameSlots]
    exact consistent.below
  · intro j member
    rw [sameSlots] at member
    by_cases isSlot : j = i
    · rw [isSlot, alarms_put_self, kept, ← isSlot]
      exact consistent.periodic j member
    · rw [alarms_put_of_ne isSlot]
      exact consistent.periodic j member

theorem retire (active : i ∈ t.activeSlots)
    (callback : Option Handler) : Consistent (t.retire i callback) := by
  have slots : (t.retire i callback).activeSlots = t.activeSlots.erase i :=
    @activeSlots_put_off _ t i { t.alarms i with active := false, callback := callback } rfl
  have counted := consistent.count
  have positive : 0 < t.activeSlots.card := card_pos.mpr ⟨i, active⟩
  have old : ∀ j, j ∈ (t.retire i callback).activeSlots →
      j ∈ t.activeSlots ∧ (t.retire i callback).alarms j = t.alarms j := by
    intro j member
    rw [slots, mem_erase] at member
    exact ⟨member.2, alarms_put_of_ne member.1⟩
  refine ⟨?_, ?_, (lowered_le _ _).trans consistent.mark, ?_⟩
  · have one : (1 : BitVec 32).toNat = 1 := rfl
    show (t.activeAlarms - 1).toNat = _
    rw [slots, card_erase_of_mem active, BitVec.toNat_sub_of_le, counted, one]
    rw [BitVec.le_def, counted, one]
    exact positive
  · intro j member
    exact lt_lowered (mem_activeSlots.mp member).2 (consistent.below j (old j member).1)
  · intro j member
    obtain ⟨was, same⟩ := old j member
    rw [same]
    exact consistent.periodic j was

theorem arm (inside : i < maxAlarms) (idle : i ∉ t.activeSlots)
    {intervalMs : BitVec 32} (positive : intervalMs ≠ 0) (callback : Option Handler) :
    Consistent (t.arm i intervalMs callback) := by
  have slots : (t.arm i intervalMs callback).activeSlots = insert i t.activeSlots :=
    @activeSlots_put_on _ t i ⟨t.nextAlarmId, intervalMs, intervalMs, true, callback⟩ inside rfl
  have counted := consistent.count
  have few : t.activeSlots.card ≤ 256 := activeSlots_card_le
  have mark := consistent.mark
  refine ⟨?_, ?_, ?_, ?_⟩
  · show (t.activeAlarms + 1#32).toNat = _
    rw [slots, card_insert_of_notMem idle, BitVec.toNat_add, counted, BitVec.toNat_ofNat]
    omega
  · intro j member
    rw [slots, mem_insert] at member
    show j < if i + 1 > t.alarmHwm then i + 1 else t.alarmHwm
    rcases member with rfl | old
    · split <;> omega
    · have := consistent.below j old
      split <;> omega
  · show (if i + 1 > t.alarmHwm then i + 1 else t.alarmHwm) ≤ maxAlarms
    split <;> omega
  · intro j member
    rw [slots, mem_insert] at member
    by_cases isSlot : j = i
    · subst isSlot
      show 0 < ((t.put j _).alarms j).intervalMs
      rw [alarms_put_self]
      exact (BitVec.pos_iff_ne_zero intervalMs).mpr positive
    · show 0 < ((t.put i _).alarms j).intervalMs
      rw [alarms_put_of_ne isSlot]
      exact consistent.periodic j (member.resolve_left isSlot)

theorem call (call : AlarmCall Handler) : Consistent (t.call call) := by
  cases call_cases t call with
  | inl same => rwa [same]
  | inr changed =>
    obtain ⟨i, intervalMs, callback, inside, idle, positive, made⟩ | ⟨i, active, made⟩ := changed
    · rw [made]
      exact consistent.arm inside idle positive callback
    · rw [made]
      exact consistent.retire active none

theorem calls (made : List (AlarmCall Handler)) : Consistent (made.foldl AlarmTable.call t) := by
  induction made generalizing t with
  | nil => exact consistent
  | cons call made ih =>
    rw [List.foldl_cons]
    exact ih (consistent.call call)

end

end Consistent

section Interrupt

variable {body} {t : AlarmTable Handler} {i : Nat}

theorem interval_call (call : AlarmCall Handler) (positive : 0 < (t.alarms i).intervalMs) :
    0 < ((t.call call).alarms i).intervalMs := by
  obtain same | ⟨k, intervalMs, callback, -, -, isSet, made⟩ | ⟨k, -, made⟩ := call_cases t call
  · rwa [same]
  · rw [made]
    show 0 < ((t.put k _).alarms i).intervalMs
    by_cases isSlot : i = k
    · subst isSlot
      rw [alarms_put_self]
      exact (BitVec.pos_iff_ne_zero intervalMs).mpr isSet
    · rwa [alarms_put_of_ne isSlot]
  · rw [made]
    show 0 < ((t.put k _).alarms i).intervalMs
    by_cases isSlot : i = k
    · subst isSlot
      rwa [alarms_put_self]
    · rwa [alarms_put_of_ne isSlot]

theorem interval_calls (made : List (AlarmCall Handler)) (positive : 0 < (t.alarms i).intervalMs) :
    0 < ((made.foldl AlarmTable.call t).alarms i).intervalMs := by
  induction made generalizing t with
  | nil => exact positive
  | cons call made ih =>
    rw [List.foldl_cons]
    exact ih (interval_call call positive)

theorem Consistent.tickSlot (consistent : Consistent t) (inside : i < maxAlarms) :
    Consistent (tickSlot body t i).1 := by
  unfold Timer.tickSlot
  split
  · rename_i callback active isCallback
    have started : Consistent (t.put i
        { t.alarms i with remainingMs := (t.alarms i).remainingMs - 1 }) :=
      consistent.retime rfl rfl
    have positive : 0 < (t.alarms i).intervalMs :=
      consistent.periodic i (mem_activeSlots.mpr ⟨inside, active⟩)
    dsimp only
    split
    · rw [if_pos]
      · exact (started.calls _).retime rfl rfl
      · apply interval_calls
        rwa [alarms_put_self]
    · exact started
  · exact consistent

theorem tickSlot_idle (idle : (t.alarms i).active = false) : tickSlot body t i = (t, []) := by
  unfold tickSlot
  rw [idle]

theorem scan_idle {bound : AlarmTable Handler → Nat} (steps : Nat) :
    ∀ i, (∀ j, i ≤ j → j < bound t → (t.alarms j).active = false) →
      scan body bound steps t i = (t, []) := by
  induction steps with
  | zero => exact fun _ _ => rfl
  | succ steps ih =>
    intro i idle
    rw [scan]
    split
    · rename_i inside
      rw [tickSlot_idle (idle i (Nat.le_refl i) inside)]
      dsimp only
      rw [ih (i + 1) fun j above below => idle j (Nat.le_of_succ_le above) below]
      rfl
    · rfl

theorem scan_marked (steps : Nat) : ∀ {t : AlarmTable Handler} (i : Nat), Consistent t →
    Consistent (scan body AlarmTable.alarmHwm steps t i).1 ∧
      scan body AlarmTable.alarmHwm steps t i = scan body (fun _ => maxAlarms) steps t i := by
  induction steps with
  | zero => exact fun _ consistent => ⟨consistent, rfl⟩
  | succ steps ih =>
    intro t i consistent
    by_cases inside : i < t.alarmHwm
    · have inTable : i < maxAlarms := Nat.lt_of_lt_of_le inside consistent.mark
      obtain ⟨after, same⟩ := ih (i + 1) (consistent.tickSlot inTable)
      rw [scan, scan, if_pos inside, if_pos inTable]
      dsimp only
      exact ⟨after, by rw [same]⟩
    · have idle : ∀ j, i ≤ j → j < maxAlarms → (t.alarms j).active = false := by
        intro j above below
        by_contra active
        have := consistent.below j (mem_activeSlots.mpr ⟨below, by simpa using active⟩)
        omega
      have whole : scan body (fun _ => maxAlarms) (steps + 1) t i = (t, []) :=
        scan_idle (steps + 1) i idle
      rw [whole, scan, if_neg inside]
      exact ⟨consistent, rfl⟩

theorem timerHandler_eq_fullScan (consistent : Consistent t) :
    timerHandler body t = fullScan body t := by
  unfold timerHandler fullScan
  split
  · exact (scan_marked maxAlarms 0 consistent).2
  · rename_i none
    have zero : t.activeSlots.card = 0 := by
      have isZero : t.activeAlarms = 0 := BitVec.le_zero_iff.mp (BitVec.not_lt.mp none)
      rw [← consistent.count, isZero]
      rfl
    refine (scan_idle maxAlarms 0 fun j _ below => ?_).symm
    by_contra active
    have member := mem_activeSlots.mpr ⟨below, by simpa using active⟩
    rw [card_eq_zero.mp zero] at member
    exact absurd member (notMem_empty j)

theorem Consistent.timerHandler (consistent : Consistent t) :
    Consistent (timerHandler body t).1 := by
  unfold Timer.timerHandler
  split
  · exact (scan_marked maxAlarms 0 consistent).1
  · exact consistent

end Interrupt

/-- A call of the interface, or a timer interrupt. -/
inductive TimerEvent (Handler : Type) where
  | call (call : AlarmCall Handler)
  | interrupt (fired : Fired Handler)

inductive TimerStep : AlarmTable Handler → TimerEvent Handler → AlarmTable Handler → Prop where
  | call {t : AlarmTable Handler} (call : AlarmCall Handler) :
      TimerStep t (.call call) (t.call call)
  | interrupt {t t' : AlarmTable Handler} {fired : Fired Handler}
      (ran : timerHandler body t = (t', fired)) : TimerStep t (.interrupt fired) t'

theorem Consistent.step {t t' : AlarmTable Handler} {event : TimerEvent Handler}
    (consistent : Consistent t) (step : TimerStep body t event t') : Consistent t' := by
  cases step with
  | call call => exact consistent.call call
  | interrupt ran =>
    have after : Consistent (Timer.timerHandler body t).1 := consistent.timerHandler
    rwa [ran] at after

/-- The count is that of the active slots, which are below the mark, and the handler fires what a
full scan would. -/
theorem alarm_table_consistent {events : List (TimerEvent Handler)} {t : AlarmTable Handler}
    (run : Steps (TimerStep body) AlarmTable.initial events t) :
    t.activeAlarms.toNat = t.activeSlots.card ∧ (∀ i ∈ t.activeSlots, i < t.alarmHwm) ∧
      t.alarmHwm ≤ maxAlarms ∧ timerHandler body t = fullScan body t ∧
      (t.activeAlarms = 0 → t.activeSlots = ∅) := by
  have consistent : Consistent t := run.invariant Consistent
    (fun _ _ _ consistent step => consistent.step body step) .initial
  refine ⟨consistent.count, consistent.below, consistent.mark,
    timerHandler_eq_fullScan consistent, ?_⟩
  intro zero
  rw [← card_eq_zero, ← consistent.count, zero]
  rfl

/-- An alarm that its own callback destroys. -/
theorem alarm_table_consistent_fired :
    ∃ (body : Body Unit) (t : AlarmTable Unit),
      Steps (TimerStep body) AlarmTable.initial
        [.call (.create 1 (some ())), .interrupt [(0, ())]] t ∧
      t.activeAlarms = 0 ∧ t.activeSlots = ∅ := by
  have run : Steps (TimerStep fun _ _ => [.destroy 1]) AlarmTable.initial
      [.call (.create 1 (some ())), .interrupt [(0, ())]] _ :=
    (Steps.refl.step (.call (.create 1 (some ())))).step (.interrupt rfl)
  refine ⟨_, _, run, rfl, ?_⟩
  exact (alarm_table_consistent _ run).2.2.2.2 rfl

section Period

/-- What an event fires from slot `i`. -/
def TimerEvent.fires (i : Nat) : TimerEvent Handler → Fired Handler
  | call _ => []
  | interrupt fired => fired.filter fun shot => shot.1 = i

def TimerEvent.isInterrupt : TimerEvent Handler → Bool
  | call _ => false
  | interrupt _ => true

variable {body} {t : AlarmTable Handler} {i j : Nat} {id interval left : BitVec 32}
    {handler : Handler}

theorem alarms_call {call : AlarmCall Handler} (active : (t.alarms i).active = true)
    (spared : call ≠ .destroy (t.alarms i).id) : (t.call call).alarms i = t.alarms i := by
  cases call with
  | create intervalMs callback =>
    unfold AlarmTable.call createAlarm
    dsimp only
    split
    · rfl
    · split
      · rfl
      · next k found =>
        have idle := List.find?_some found
        have apart : i ≠ k := by
          rintro rfl
          simp [active] at idle
        exact alarms_put_of_ne apart
  | destroy alarmId =>
    unfold AlarmTable.call destroyAlarm
    dsimp only
    split
    · rfl
    · next k found =>
      have wanted := List.find?_some found
      have apart : i ≠ k := by
        rintro rfl
        rw [Bool.and_eq_true, decide_eq_true_eq] at wanted
        exact spared (congrArg _ wanted.2.symm)
      exact alarms_put_of_ne apart

theorem alarms_calls (made : List (AlarmCall Handler)) (active : (t.alarms i).active = true)
    (spared : .destroy (t.alarms i).id ∉ made) :
    (made.foldl AlarmTable.call t).alarms i = t.alarms i := by
  induction made generalizing t with
  | nil => rfl
  | cons call made ih =>
    rw [List.mem_cons, not_or] at spared
    have same : (t.call call).alarms i = t.alarms i := alarms_call active (Ne.symm spared.1)
    rw [List.foldl_cons, ih (same ▸ active) (same ▸ spared.2), same]

/-- Slot `i` holds the alarm, and it fires the `left`-th interrupt from now. -/
def Ticking (t : AlarmTable Handler) (i : Nat) (id interval left : BitVec 32) (handler : Handler) :
    Prop :=
  t.alarms i = ⟨id, interval, left, true, some handler⟩

/-- What an interrupt does to the alarm. -/
def Ticked (i : Nat) (id interval left : BitVec 32) (handler : Handler)
    (after : AlarmTable Handler × Fired Handler) : Prop :=
  Ticking after.1 i id interval (if left - 1 = 0 then interval else left - 1) handler ∧
    (after.2.filter fun shot => shot.1 = i) = if left - 1 = 0 then [(i, handler)] else []

/-- What the work on other slots does to it. -/
def Kept (i : Nat) (id interval left : BitVec 32) (handler : Handler)
    (after : AlarmTable Handler × Fired Handler) : Prop :=
  Ticking after.1 i id interval left handler ∧ (after.2.filter fun shot => shot.1 = i) = []

section

variable (spares : ∀ handler t, .destroy id ∉ body handler t)
    (ticking : Ticking t i id interval left handler)

include spares ticking

theorem tickSlot_other (apart : j ≠ i) : Kept i id interval left handler (tickSlot body t j) := by
  have put (alarm : Alarm Handler) : Ticking (t.put j alarm) i id interval left handler :=
    (alarms_put_of_ne apart.symm).trans ticking
  unfold tickSlot
  split
  · next callback _ _ =>
    have calls {t : AlarmTable Handler} (ticking : Ticking t i id interval left handler) :
        Ticking ((body callback t).foldl AlarmTable.call t) i id interval left handler :=
      (alarms_calls _ (by rw [ticking]) (by rw [ticking]; exact spares _ _)).trans ticking
    have unseen : ([(j, callback)].filter fun shot => shot.1 = i) = [] := by simp [apart]
    dsimp only
    split
    · split
      · exact ⟨(alarms_put_of_ne apart.symm).trans (calls (put _)), unseen⟩
      · exact ⟨(alarms_put_of_ne apart.symm).trans (calls (put _)), unseen⟩
    · exact ⟨put _, rfl⟩
  · exact ⟨ticking, rfl⟩

theorem tickSlot_self (positive : 0 < interval) :
    Ticked i id interval left handler (tickSlot body t i) := by
  have is : t.alarms i = ⟨id, interval, left, true, some handler⟩ := ticking
  unfold tickSlot Ticked
  rw [is]
  dsimp only
  rw [alarms_put_self]
  dsimp only
  split
  · generalize started : t.put i _ = u
    have isNow : u.alarms i = ⟨id, interval, left - 1, true, some handler⟩ := by
      rw [← started, alarms_put_self]
    have after : ((body handler u).foldl AlarmTable.call u).alarms i =
        ⟨id, interval, left - 1, true, some handler⟩ :=
      (alarms_calls _ (by rw [isNow]) (by rw [isNow]; exact spares _ _)).trans isNow
    rw [after, if_pos positive]
    exact ⟨alarms_put_self, by simp⟩
  · exact ⟨alarms_put_self, rfl⟩

theorem scan_ticking (positive : 0 < interval) (steps : Nat) (whole : j + steps = maxAlarms) :
    (i < j → Kept i id interval left handler (scan body (fun _ => maxAlarms) steps t j)) ∧
      (j ≤ i → i < maxAlarms →
        Ticked i id interval left handler (scan body (fun _ => maxAlarms) steps t j)) := by
  induction steps generalizing t j left with
  | zero => exact ⟨fun _ => ⟨ticking, rfl⟩, fun low high => by omega⟩
  | succ steps ih =>
    rw [scan, if_pos (by omega)]
    dsimp only [Kept, Ticked]
    simp only [List.filter_append]
    refine ⟨fun past => ?_, fun low high => ?_⟩
    · obtain ⟨same, none⟩ := tickSlot_other spares ticking (Nat.ne_of_gt past)
      obtain ⟨same', none'⟩ := (ih same (by omega)).1 (Nat.lt_succ_of_lt past)
      exact ⟨same', by rw [none, none']; rfl⟩
    · rcases Nat.eq_or_lt_of_le low with rfl | below
      · obtain ⟨ticked, fired⟩ := tickSlot_self spares ticking positive
        obtain ⟨same, none⟩ := (ih ticked (by omega)).1 (Nat.lt_succ_self j)
        exact ⟨same, by rw [fired, none, List.append_nil]⟩
      · obtain ⟨same, none⟩ := tickSlot_other spares ticking (Nat.ne_of_lt below)
        obtain ⟨ticked, fired⟩ := (ih same (by omega)).2 below high
        exact ⟨ticked, by rw [none, fired]; rfl⟩

end

/-- The alarm has fired once for every `interval` interrupts. -/
structure Periodic (i : Nat) (id interval : BitVec 32) (handler : Handler)
    (events : List (TimerEvent Handler))
    (t : AlarmTable Handler) : Prop where
  consistent : Consistent t
  ticking : ∃ left, 0 < left.toNat ∧ left ≤ interval ∧ Ticking t i id interval left handler ∧
      ∃ rounds,
    events.flatMap (·.fires i) = List.replicate rounds (i, handler) ∧
      events.countP (·.isInterrupt) + left.toNat = (rounds + 1) * interval.toNat

theorem Periodic.step {events : List (TimerEvent Handler)} {event : TimerEvent Handler}
    {t' : AlarmTable Handler}
    (periodic : Periodic i id interval handler events t) (step : TimerStep body t event t')
    (inside : i < maxAlarms) (spares : ∀ handler t, .destroy id ∉ body handler t)
    (spared : event ≠ .call (.destroy id)) :
    Periodic i id interval handler (events ++ [event]) t' := by
  obtain ⟨consistent, left, positive, few, ticking, rounds, fired, counted⟩ := periodic
  refine ⟨consistent.step body step, ?_⟩
  rw [List.flatMap_append, List.countP_append, fired, List.flatMap_singleton, List.countP_singleton]
  cases step with
  | call call =>
    have same : (t.call call).alarms i = t.alarms i := by
      refine alarms_call (by rw [ticking]) ?_
      rw [ticking]
      rintro rfl
      exact spared rfl
    exact ⟨left, positive, few, same.trans ticking,
      rounds, by simp [TimerEvent.fires], by simpa [TimerEvent.isInterrupt] using counted⟩
  | interrupt ran =>
    rename_i firedNow
    have few' : left.toNat ≤ interval.toNat := few
    have positive' : 0 < interval := show 0 < interval.toNat by omega
    obtain ⟨ticked, shots⟩ :=
      (scan_ticking spares ticking positive' maxAlarms (Nat.zero_add _)).2 (Nat.zero_le i) inside
    change Ticking (fullScan body t).1 i _ _ _ _ at ticked
    change (fullScan body t).2.filter _ = _ at shots
    rw [← timerHandler_eq_fullScan consistent, ran] at ticked shots
    have less : (left - 1).toNat = left.toNat - 1 := BitVec.toNat_sub_of_le positive
    have one : (if (TimerEvent.interrupt firedNow).isInterrupt then 1 else 0) = 1 := rfl
    rw [one]
    change ∃ left, _ ∧ _ ∧ _ ∧ ∃ rounds', List.replicate rounds (i, handler) ++ firedNow.filter _ =
      _ ∧ _
    rw [shots]
    by_cases due : left - 1 = 0
    · rw [if_pos due] at ticked ⊢
      have last : left.toNat - 1 = 0 := less.symm.trans (congrArg BitVec.toNat due)
      refine ⟨interval, positive', BitVec.le_refl _, ticked, rounds + 1, List.replicate_succ'.symm,
        ?_⟩
      rw [Nat.succ_mul (rounds + 1)]
      omega
    · rw [if_neg due] at ticked ⊢
      have notLast : left.toNat - 1 ≠ 0 := fun zero => due (BitVec.eq_of_toNat_eq (less.trans zero))
      refine ⟨left - 1, by omega, ?_, ticked, rounds, List.append_nil _, by omega⟩
      rw [BitVec.le_def]
      omega

theorem createAlarm_ticking (idle : i ∉ t.activeSlots)
    (armed : i ∈ (createAlarm t interval (some handler)).1.activeSlots) :
    0 < interval ∧ Ticking (createAlarm t interval (some handler)).1 i t.nextAlarmId interval
      interval handler := by
  revert armed
  unfold createAlarm
  split
  · exact fun armed => absurd armed idle
  · next valid =>
    split
    · exact fun armed => absurd armed idle
    · next k found =>
      intro armed
      rw [mem_activeSlots] at armed idle
      by_cases isSlot : i = k
      · subst isSlot
        exact ⟨(BitVec.pos_iff_ne_zero _).mpr fun zero => valid (.inr zero), alarms_put_self⟩
      · have same : (t.arm k interval (some handler)).alarms i = t.alarms i :=
          alarms_put_of_ne isSlot
        exact absurd ⟨armed.1, same ▸ armed.2⟩ idle

/-- An alarm that nothing destroys fires with its own callback at every `interval`-th interrupt
after it was created, whatever the other alarms and the callbacks do. -/
theorem alarm_fires_periodically {before final : AlarmTable Handler}
    {prior events : List (TimerEvent Handler)}
    (reached : Steps (TimerStep body) .initial prior before) (idle : i ∉ before.activeSlots)
    (armed : i ∈ (createAlarm before interval (some handler)).1.activeSlots)
    (run : Steps (TimerStep body) (createAlarm before interval (some handler)).1 events final)
    (spares : ∀ handler t, .destroy before.nextAlarmId ∉ body handler t)
    (spared : .call (.destroy before.nextAlarmId) ∉ events) :
    events.flatMap (·.fires i) =
      List.replicate (events.countP (·.isInterrupt) / interval.toNat) (i, handler) := by
  have inside : i < maxAlarms := (mem_activeSlots.mp armed).1
  have consistent : Consistent before := reached.invariant Consistent
    (fun _ _ _ consistent step => consistent.step body step) .initial
  obtain ⟨positive, ticking⟩ := createAlarm_ticking idle armed
  have created : Periodic i before.nextAlarmId interval handler []
      (createAlarm before interval (some handler)).1 :=
    ⟨consistent.call (.create interval (some handler)), interval, positive, BitVec.le_refl _,
      ticking, 0, rfl, by simp⟩
  obtain ⟨-, left, positive', few, -, rounds, fired, counted⟩ := run.history
    (fun events t => .call (.destroy before.nextAlarmId) ∉ events →
      Periodic i before.nextAlarmId interval handler events t)
    (fun labels state label next ih step spared =>
      (ih fun member => spared (List.mem_append_left _ member)).step step inside spares
        fun same => spared (same ▸ List.mem_append_right _ List.mem_cons_self))
    (fun _ => created) spared
  have few' : left.toNat ≤ interval.toNat := few
  have quotient : events.countP (·.isInterrupt) / interval.toNat = rounds := by
    rw [Nat.succ_mul] at counted
    exact Nat.div_eq_of_lt_le (by omega) (by rw [Nat.succ_mul]; omega)
  rw [fired, quotient]

/-- Three interrupts and a second alarm in between, which destroys itself when it fires. -/
theorem alarm_fires_periodically_two :
    ∃ final, Steps (TimerStep fun again _ => if again then [] else [.destroy 2])
      (createAlarm .initial 2 (some true)).1
      [.interrupt [], .call (.create 2 (some false)), .interrupt [(0, true)],
        .interrupt [(1, false)], .interrupt [(0, true)]] final ∧
      ([.interrupt [], .call (.create 2 (some false)), .interrupt [(0, true)],
        .interrupt [(1, false)],
        .interrupt [(0, true)]] :
          List (TimerEvent Bool)).flatMap (·.fires 0) = List.replicate (4 / 2) (0, true) := by
  have run : Steps (TimerStep fun again _ => if again then [] else [.destroy 2])
    (createAlarm .initial 2 (some true)).1
      [.interrupt [], .call (.create 2 (some false)), .interrupt [(0, true)],
        .interrupt [(1, false)], .interrupt [(0, true)]] _ :=
    ((((Steps.refl.step (.interrupt rfl)).step (.call (.create 2 (some false)))).step
      (.interrupt rfl)).step
      (.interrupt rfl)).step (.interrupt rfl)
  refine ⟨_, run, ?_⟩
  refine alarm_fires_periodically .refl (by simp [mem_activeSlots, AlarmTable.initial])
    (by rw [mem_activeSlots]; decide) run ?_ ?_
  · intro again t
    cases again
    · simp
      decide
    · simp
  · simp

end Period

end M4KK1.Timer
