import M4KK1.Copland.Composite
import Mathlib.Algebra.BigOperators.Fin

/-!
# Surface slots used again

`copland_handle_commands` of `cmd/copland.c` with the command ring of `libcopland.h`.
-/

namespace M4KK1.Copland

open Function Finset

def coplandCmdRingSize : UInt32 := 32

def coplandSurfVisible : UInt32 := 1

/-- `struct copland_surface` with the damage. -/
structure SurfaceRecord extends CoplandSurface where
  dmgX : Int32
  dmgY : Int32
  dmgW : Int32
  dmgH : Int32

structure CoplandCommand where
  cmd : UInt32
  args : Fin 6 → Int32

/-- What the commands use of `struct copland_shm`. -/
structure CoplandShm where
  surfaceCount : UInt32
  surfaces : Fin coplandMaxSurfaces → SurfaceRecord
  cmdWriteIdx : UInt32
  cmdReadIdx : UInt32
  cmdRing : UInt32 → CoplandCommand

namespace SurfaceRecord

def InUse (r : SurfaceRecord) : Prop := r.inUse ≠ 0

instance (r : SurfaceRecord) : Decidable r.InUse := inferInstanceAs (Decidable (_ ≠ _))

/-- The fields that `COPLAND_CMD_CREATE_SURFACE` sets, `in_use` among them. -/
def create (r : SurfaceRecord) (args : Fin 6 → Int32) : SurfaceRecord :=
  { r with
    inUse := 1, x := args 0, y := args 1, w := args 2, h := args 3, color := (args 4).toUInt32
    flags := (args 5).toUInt32 ||| coplandSurfVisible, bufferPtr := 0 }

/-- The fields that `COPLAND_CMD_DESTROY_SURFACE` sets. -/
def destroy (r : SurfaceRecord) : SurfaceRecord :=
  { r with
    bufferPtr := 0, flags := 0, w := 0, h := 0, x := 0, y := 0, color := 0, dmgW := 0,
    inUse := 0 }

/-- The fields that no command clears are zero. -/
def NothingLeft (r : SurfaceRecord) : Prop :=
  r.dmgX = 0 ∧ r.dmgY = 0 ∧ r.dmgH = 0 ∧ r.bufferStride = 0

instance (r : SurfaceRecord) : Decidable r.NothingLeft := inferInstanceAs (Decidable (_ ∧ _))

end SurfaceRecord

namespace CoplandShm

/-- The region after `copland_init_shm`. -/
def fresh : CoplandShm where
  surfaceCount := 0
  surfaces _ := ⟨⟨0, 0, 0, 0, 0, 0, 0, 0, 0⟩, 0, 0, 0, 0⟩
  cmdWriteIdx := 0
  cmdReadIdx := 0
  cmdRing _ := ⟨0, fun _ => 0⟩

variable (shm : CoplandShm)

/-- The slot that `copland_surface_alloc` marks as used. -/
def surfaceAlloc : Option (Fin coplandMaxSurfaces) :=
  (List.finRange coplandMaxSurfaces).find? fun k => ¬(shm.surfaces k).InUse

def cmdPush (c : CoplandCommand) : CoplandShm × Int :=
  let next := (shm.cmdWriteIdx + 1) &&& (coplandCmdRingSize - 1)
  if next = shm.cmdReadIdx then (shm, -1)
  else ({ shm with cmdRing := update shm.cmdRing shm.cmdWriteIdx c, cmdWriteIdx := next }, 0)

def cmdPop : Option (CoplandCommand × CoplandShm) :=
  if shm.cmdReadIdx = shm.cmdWriteIdx then none
  else some (shm.cmdRing shm.cmdReadIdx,
    { shm with cmdReadIdx := (shm.cmdReadIdx + 1) &&& (coplandCmdRingSize - 1) })

def set (k : Fin coplandMaxSurfaces) (r : SurfaceRecord) : CoplandShm :=
  { shm with surfaces := update shm.surfaces k r }

def named (id : Int32) : Option (Fin coplandMaxSurfaces) :=
  if bounds : 0 ≤ id.toInt ∧ id.toInt < 16 then
    let k : Fin coplandMaxSurfaces := ⟨id.toInt.toNat, by unfold coplandMaxSurfaces; omega⟩
    if (shm.surfaces k).InUse then some k else none
  else none

def created (k : Fin coplandMaxSurfaces) (args : Fin 6 → Int32) : CoplandShm :=
  { shm.set k ((shm.surfaces k).create args) with surfaceCount := shm.surfaceCount + 1 }

def destroyed (k : Fin coplandMaxSurfaces) : CoplandShm :=
  { shm.set k (shm.surfaces k).destroy with
    surfaceCount := if shm.surfaceCount > 0 then shm.surfaceCount - 1 else shm.surfaceCount }

/-- The body of the loop of `copland_handle_commands`. -/
def handleCommand (c : CoplandCommand) : CoplandShm :=
  if c.cmd = 1 then
    match shm.surfaceAlloc with
    | some k => shm.created k c.args
    | none => shm
  else
    match shm.named (c.args 0) with
    | none => shm
    | some k =>
      let r := shm.surfaces k
      if c.cmd = 2 then shm.set k { r with x := c.args 1, y := c.args 2 }
      else if c.cmd = 3 then shm.set k { r with w := c.args 1, h := c.args 2 }
      else if c.cmd = 4 then shm.set k { r with color := (c.args 1).toUInt32 }
      else if c.cmd = 5 then shm.destroyed k
      else shm

end CoplandShm

/-- A command is pushed or taken, a client writes its fields, or damage is noted as seen. -/
inductive SlotEvent where
  | push (c : CoplandCommand)
  | write (k : Fin coplandMaxSurfaces) (bufferPtr bufferStride : UInt32)
      (dmgX dmgY dmgW dmgH : Int32)
  | serve
  | present

namespace CoplandShm

def step (shm : CoplandShm) : SlotEvent → CoplandShm
  | .push c => (shm.cmdPush c).1
  | .write k bufferPtr bufferStride dmgX dmgY dmgW dmgH =>
    if (shm.surfaces k).InUse then
      shm.set k { shm.surfaces k with bufferPtr, bufferStride, dmgX, dmgY, dmgW, dmgH }
    else shm
  | .serve => match shm.cmdPop with
    | some (c, rest) => rest.handleCommand c
    | none => shm
  | .present => { shm with surfaces := fun k => { shm.surfaces k with dmgW := 0 } }

def run (shm : CoplandShm) (events : List SlotEvent) : CoplandShm := events.foldl step shm

/-- The next command destroys the surface in this slot. -/
def Destroys (shm : CoplandShm) (k : Fin coplandMaxSurfaces) : Prop :=
  shm.cmdPop.any fun c => c.1.cmd = 5 ∧ shm.named (c.1.args 0) = some k

/-- The next command makes a surface in this slot. -/
def Creates (shm : CoplandShm) (k : Fin coplandMaxSurfaces) (args : Fin 6 → Int32) : Prop :=
  shm.cmdPop.any fun c => c.1.cmd = 1 ∧ c.1.args = args ∧ shm.surfaceAlloc = some k

instance (shm : CoplandShm) (k) : Decidable (shm.Destroys k) :=
  inferInstanceAs (Decidable (_ = true))

instance (shm : CoplandShm) (k args) : Decidable (shm.Creates k args) :=
  inferInstanceAs (Decidable (_ = true))

def slotsInUse (surfaces : Fin coplandMaxSurfaces → SurfaceRecord) : Nat :=
  #{k | (surfaces k).InUse}

/-- Between two commands the count is right. -/
def Counted (shm : CoplandShm) : Prop := shm.surfaceCount.toNat = slotsInUse shm.surfaces

variable {shm rest : CoplandShm} {k j : Fin coplandMaxSurfaces} {c : CoplandCommand}

theorem cmdPop_eq (popped : shm.cmdPop = some (c, rest)) :
    rest.surfaces = shm.surfaces ∧ rest.surfaceCount = shm.surfaceCount := by
  unfold cmdPop at popped
  split at popped
  · cases popped
  · obtain ⟨rfl, rfl⟩ := Prod.mk.inj (Option.some.inj popped)
    exact ⟨rfl, rfl⟩

theorem named_inUse {id : Int32} (found : shm.named id = some k) : (shm.surfaces k).InUse := by
  unfold named at found
  split at found
  · dsimp only at found
    split at found
    · next used => exact Option.some.inj found ▸ used
    · cases found
  · cases found

theorem surfaceAlloc_free (found : shm.surfaceAlloc = some k) : ¬(shm.surfaces k).InUse := by
  simpa using List.find?_some found

theorem slotsInUse_update (f : Fin coplandMaxSurfaces → SurfaceRecord) (r : SurfaceRecord) :
    slotsInUse (update f k r) + (if (f k).InUse then 1 else 0) =
      slotsInUse f + if r.InUse then 1 else 0 := by
  have others : ∀ j ∈ univ.erase k, (if (update f k r j).InUse then 1 else 0) =
      if (f j).InUse then 1 else 0 := by
    intro j other
    rw [update_of_ne (ne_of_mem_erase other)]
  rw [slotsInUse, slotsInUse, card_filter, card_filter, ← add_sum_erase univ _ (mem_univ k),
    sum_congr rfl others, ← add_sum_erase univ (fun j => if (f j).InUse then 1 else 0) (mem_univ k),
    update_self]
  omega

theorem slotsInUse_le (f : Fin coplandMaxSurfaces → SurfaceRecord) : slotsInUse f ≤ 16 :=
  (card_filter_le _ _).trans (Finset.card_fin 16).le

theorem Counted.set (counted : shm.Counted) {r : SurfaceRecord} (used : (shm.surfaces k).InUse)
    (still : r.InUse) : (shm.set k r).Counted := by
  have same := slotsInUse_update (k := k) shm.surfaces r
  rw [if_pos used, if_pos still] at same
  exact counted.trans (Nat.add_right_cancel same).symm

theorem handleCommand_cases (c : CoplandCommand) : shm.handleCommand c = shm ∨
    (∃ k, shm.surfaceAlloc = some k ∧ shm.handleCommand c = shm.created k c.args) ∨
    (∃ k r, shm.handleCommand c = shm.set k r ∧ (shm.surfaces k).InUse ∧ r.InUse) ∨
    ∃ k, (shm.surfaces k).InUse ∧ shm.handleCommand c = shm.destroyed k := by
  unfold handleCommand
  split
  · split
    · next k found => exact .inr (.inl ⟨k, found, rfl⟩)
    · exact .inl rfl
  · split
    · exact .inl rfl
    · next k found =>
      have used := named_inUse found
      dsimp only
      split_ifs
      · exact .inr (.inr (.inl ⟨k, _, rfl, used, used⟩))
      · exact .inr (.inr (.inl ⟨k, _, rfl, used, used⟩))
      · exact .inr (.inr (.inl ⟨k, _, rfl, used, used⟩))
      · exact .inr (.inr (.inr ⟨k, used, rfl⟩))
      · exact .inl rfl

theorem Counted.handleCommand (counted : shm.Counted) (c : CoplandCommand) :
    (shm.handleCommand c).Counted := by
  have few := slotsInUse_le shm.surfaces
  obtain same | ⟨k, found, same⟩ | ⟨k, r, same, used, still⟩ | ⟨k, used, same⟩ :=
    handleCommand_cases c
  · exact same ▸ counted
  · have more := slotsInUse_update (k := k) shm.surfaces ((shm.surfaces k).create c.args)
    rw [if_neg (surfaceAlloc_free found),
      if_pos (by simp [SurfaceRecord.InUse, SurfaceRecord.create])] at more
    rw [same, Counted, created, UInt32.toNat_add, counted]
    exact (Nat.mod_eq_of_lt (by simp; omega)).trans more.symm
  · exact same ▸ counted.set used still
  · have less := slotsInUse_update (k := k) shm.surfaces (shm.surfaces k).destroy
    rw [if_pos used,
      if_neg (by simp [SurfaceRecord.InUse, SurfaceRecord.destroy]), ← counted] at less
    have some : (1 : UInt32) ≤ shm.surfaceCount :=
      UInt32.le_iff_toNat_le.mpr ((Nat.le_add_left 1 _).trans less.le)
    rw [same, Counted, destroyed, if_pos (UInt32.lt_of_lt_of_le (by decide) some),
      UInt32.toNat_sub_of_le _ _ some]
    exact (congrArg (· - 1) less).symm

theorem Counted.step (counted : shm.Counted) (e : SlotEvent) : (shm.step e).Counted := by
  cases e with
  | push c =>
    unfold CoplandShm.step cmdPush
    dsimp only
    split <;> exact counted
  | write k bufferPtr bufferStride dmgX dmgY dmgW dmgH =>
    unfold CoplandShm.step
    dsimp only
    split
    · next used => exact Counted.set counted used used
    · exact counted
  | serve =>
    unfold CoplandShm.step
    dsimp only
    split
    · next c rest popped =>
      obtain ⟨surfaces, count⟩ := cmdPop_eq popped
      refine @Counted.handleCommand rest ?_ c
      rw [CoplandShm.Counted, count, surfaces]
      exact counted
    · exact counted
  | present => exact counted

theorem Counted.run (counted : shm.Counted) (events : List SlotEvent) :
    (shm.run events).Counted := by
  induction events generalizing shm with
  | nil => exact counted
  | cons e events ih => exact ih (counted.step e)

theorem step_keeps_free (e : SlotEvent) (free : ¬(shm.surfaces k).InUse)
    (quiet : (shm.surfaces k).dmgW = 0) (still : ¬((shm.step e).surfaces k).InUse) :
    (shm.step e).surfaces k = shm.surfaces k := by
  cases e with
  | push c =>
    unfold step cmdPush
    dsimp only
    split <;> rfl
  | write j bufferPtr bufferStride dmgX dmgY dmgW dmgH =>
    unfold step
    dsimp only
    split
    · next used => exact update_of_ne (by rintro rfl; exact free used) _ _
    · rfl
  | serve =>
    unfold step at still ⊢
    dsimp only at still ⊢
    split at still
    · next c rest popped =>
      obtain ⟨surfaces, -⟩ := cmdPop_eq popped
      rw [← surfaces] at free ⊢
      obtain same | ⟨j, -, same⟩ | ⟨j, r, same, used, -⟩ | ⟨j, used, same⟩ :=
        @handleCommand_cases rest c
      · rw [same]
      · rw [same] at still ⊢
        refine update_of_ne ?_ _ _
        rintro rfl
        exact still (by simp [created, set, SurfaceRecord.InUse, SurfaceRecord.create])
      · exact same ▸ update_of_ne (by rintro rfl; exact free used) _ _
      · exact same ▸ update_of_ne (by rintro rfl; exact free used) _ _
    · rfl
  | present =>
    show ({ shm.surfaces k with dmgW := 0 } : SurfaceRecord) = _
    rw [← quiet]

theorem run_keeps_free (events : List SlotEvent) (quiet : (shm.surfaces k).dmgW = 0)
    (free : ∀ seen, seen <+: events → ¬((shm.run seen).surfaces k).InUse) :
    (shm.run events).surfaces k = shm.surfaces k := by
  induction events generalizing shm with
  | nil => rfl
  | cons e events ih =>
    have same := step_keeps_free e (free [] List.nil_prefix) quiet
      (free [e] (List.prefix_append [e] events))
    have quiet : ((shm.step e).surfaces k).dmgW = 0 := same ▸ quiet
    exact (ih quiet fun seen before => free (e :: seen)
      (List.cons_prefix_cons.mpr ⟨rfl, before⟩)).trans same

theorem step_destroys (destroys : shm.Destroys k) :
    (shm.step .serve).surfaces k = (shm.surfaces k).destroy := by
  obtain ⟨⟨c, rest⟩, popped, isDestroy⟩ := (Option.any_eq_true _ _).mp destroys
  obtain ⟨cmd, found⟩ : c.cmd = 5 ∧ shm.named (c.args 0) = some k := of_decide_eq_true isDestroy
  obtain ⟨surfaces, -⟩ := cmdPop_eq popped
  have same : rest.named (c.args 0) = some k := by rw [← found, named, named, surfaces]
  unfold step
  simp [popped, handleCommand, cmd, same, destroyed, set, surfaces]

theorem step_creates {args : Fin 6 → Int32} (creates : shm.Creates k args) :
    (shm.step .serve).surfaces k = (shm.surfaces k).create args := by
  obtain ⟨⟨c, rest⟩, popped, isCreate⟩ := (Option.any_eq_true _ _).mp creates
  obtain ⟨cmd, rfl, found⟩ : c.cmd = 1 ∧ c.args = args ∧ shm.surfaceAlloc = some k :=
    of_decide_eq_true isCreate
  obtain ⟨surfaces, -⟩ := cmdPop_eq popped
  have same : rest.surfaceAlloc = some k := by rw [← found, surfaceAlloc, surfaceAlloc, surfaces]
  unfold step
  simp [popped, handleCommand, cmd, same, created, set, surfaces]

/-- A slot handed out again is as a fresh one exactly when all that is left is cleared. -/
theorem slot_reuse_iff (history between : List SlotEvent) (k : Fin coplandMaxSurfaces)
    (args : Fin 6 → Int32) (destroys : (fresh.run history).Destroys k)
    (free : ∀ seen, seen <+: between →
      ¬((fresh.run (history ++ .serve :: seen)).surfaces k).InUse)
    (creates : (fresh.run (history ++ .serve :: between)).Creates k args) :
    (∀ events, (fresh.run events).Counted) ∧
      ((fresh.run (history ++ .serve :: between ++ [.serve])).surfaces k =
        (fresh.surfaces k).create args ↔
        ((fresh.run history).surfaces k).NothingLeft) := by
  refine ⟨fun events => Counted.run (show fresh.Counted by unfold Counted; decide) events, ?_⟩
  have split : ∀ seen, fresh.run (history ++ .serve :: seen) =
      ((fresh.run history).step .serve).run seen := fun seen => by
    rw [run, List.foldl_append]; rfl
  have last : fresh.run (history ++ .serve :: between ++ [.serve]) =
      (fresh.run (history ++ .serve :: between)).step .serve := by
    rw [run, List.foldl_append]; rfl
  simp only [split] at free
  have gone := step_destroys destroys
  have kept := run_keeps_free between (by rw [gone]; rfl) free
  rw [last, step_creates creates, split, kept, gone]
  simp only [SurfaceRecord.create, SurfaceRecord.destroy, fresh, SurfaceRecord.mk.injEq,
    CoplandSurface.mk.injEq, true_and, SurfaceRecord.NothingLeft]
  tauto

/-- A client makes a surface in slot 0, says where its pixels are and ends it. -/
def usedSlot (bufferStride : UInt32) : List SlotEvent :=
  [.push ⟨1, fun _ => 7⟩, .serve, .write 0 4096 bufferStride 0 0 0 0, .push ⟨5, fun _ => 0⟩]

theorem usedSlot_reuse {bufferStride : UInt32} (known : bufferStride = 0 ∨ bufferStride = 800) :
    (fresh.run (usedSlot bufferStride)).Destroys 0 ∧
    (∀ seen, seen <+: [SlotEvent.push ⟨1, fun _ => 9⟩] →
      ¬((fresh.run (usedSlot bufferStride ++ .serve :: seen)).surfaces 0).InUse) ∧
    (fresh.run (usedSlot bufferStride ++ .serve :: [.push ⟨1, fun _ => 9⟩])).Creates 0 fun _ =>
    9 := by
  refine ⟨by rcases known with rfl | rfl <;> decide +kernel, fun seen before => ?_,
    by rcases known with rfl | rfl <;> decide +kernel⟩
  rcases List.prefix_cons_iff.mp before with rfl | ⟨rest, same, before⟩
  · rcases known with rfl | rfl <;> decide +kernel
  · rw [same, List.prefix_nil.mp before]
    rcases known with rfl | rfl <;> decide +kernel

/-- A slot that was attached and destroyed serves the next surface like a fresh one. -/
theorem slot_reuse_iff_usedSlot :
    (fresh.run (usedSlot 0 ++ .serve :: [.push ⟨1, fun _ => 9⟩] ++ [.serve])).surfaces 0 =
      (fresh.surfaces 0).create fun _ => 9 :=
  have ⟨destroys, free, creates⟩ := usedSlot_reuse (.inl rfl)
  (slot_reuse_iff _ _ 0 _ destroys free creates).2.mpr (by decide +kernel)

/-- The next surface has the stride of the one before. -/
theorem slot_reuse_keeps_stride :
    ¬ ∀ (history between : List SlotEvent) (k : Fin coplandMaxSurfaces)
    (args : Fin 6 → Int32), (fresh.run history).Destroys k →
      (∀ seen, seen <+: between → ¬((fresh.run (history ++ .serve :: seen)).surfaces k).InUse) →
      (fresh.run (history ++ .serve :: between)).Creates k args →
      (fresh.run (history ++ .serve :: between ++ [.serve])).surfaces k =
        (fresh.surfaces k).create args := by
  intro clean
  obtain ⟨destroys, free, creates⟩ := usedSlot_reuse (.inr rfl)
  exact absurd (congrArg (·.bufferStride) (clean _ _ 0 _ destroys free creates)) (by decide +kernel)

end CoplandShm

end M4KK1.Copland
