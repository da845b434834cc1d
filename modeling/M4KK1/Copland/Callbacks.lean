import M4KK1.Copland.Dispatch
import M4KK1.Copland.Reaping

/-!
# Frame callbacks

A callback goes into the first free slot or is dropped; the next frame fires what the table holds.
-/

namespace M4KK1.Copland

open M4KK1.Lib Function List

def Compositor.rounds (c : Compositor) : (Fin cpMaxSurfaces → CallbackState) × Nat :=
  (c.callbacks, c.serial)

theorem filterMap_fill {α β : Type} {slots : List α} (distinct : slots.Nodup) {slot : α}
    (member : slot ∈ slots) {f g : α → Option β} (free : f slot = none)
    (others : ∀ other ∈ slots, other ≠ slot → g other = f other) :
    (slots.filterMap g).Perm (slots.filterMap f ++ (g slot).toList) := by
  induction slots with
  | nil => exact absurd member not_mem_nil
  | cons first rest ih =>
    obtain ⟨absent, distinct⟩ := nodup_cons.mp distinct
    have restAlike := fun other inRest => others other (mem_cons_of_mem _ inRest)
    by_cases here : first = slot
    · subst here
      have same : rest.filterMap g = rest.filterMap f :=
        filterMap_congr fun other inRest =>
          restAlike other inRest fun is => absent (is ▸ inRest)
      have split : (first :: rest).filterMap g = (g first).toList ++ rest.filterMap g := by
        cases held : g first with
        | none => rw [filterMap_cons_none held]; rfl
        | some value => rw [filterMap_cons_some held]; rfl
      rw [split, same, filterMap_cons_none free]
      exact perm_append_comm
    · have later := ih distinct ((mem_cons.mp member).resolve_left (Ne.symm here)) restAlike
      have alike := others first mem_cons_self here
      cases held : f first with
      | none =>
        rw [filterMap_cons_none held, filterMap_cons_none (alike.trans held)]
        exact later
      | some value =>
        rw [filterMap_cons_some held, filterMap_cons_some (alike.trans held)]
        exact later.cons value

variable {c : Compositor} {i : Fin cpMaxClients} {req : Request}

theorem cpFrameAccum_rounds (box : Box) : (cpFrameAccum c box).rounds = c.rounds := by
  unfold cpFrameAccum
  split
  · rfl
  · split <;> rfl

theorem foldl_cpFrameAccum_rounds (boxes : List Box) :
    (boxes.foldl cpFrameAccum c).rounds = c.rounds := by
  induction boxes generalizing c with
  | nil => rfl
  | cons box boxes ih => exact ih.trans (cpFrameAccum_rounds box)

theorem cpZlistInsertTop_rounds (k : Fin cpMaxSurfaces) :
    (cpZlistInsertTop c k).rounds = c.rounds := by
  unfold cpZlistInsertTop
  split
  · rfl
  · split <;> rfl

theorem claimLayout_rounds : (claimLayout c i).rounds = c.rounds := by
  unfold claimLayout
  split
  · rfl
  · split <;> rfl

theorem releaseBuffers_rounds (obj : Nat) (slots : List (Fin cpMaxSurfaces)) :
    (releaseBuffers c i obj slots).rounds = c.rounds := by
  induction slots generalizing c with
  | nil => rfl
  | cons k rest ih =>
    unfold releaseBuffers
    split
    · exact ih
    · exact ih

/-- A request enters at most one callback, and leaves the rest of the table and the serial. -/
def Compositor.Enters (c : Compositor) (i : Fin cpMaxClients) (next : Compositor) : Prop :=
  next.rounds = c.rounds ∨ ∃ cb surfaceObj, next.rounds = (addCallback c i cb surfaceObj).rounds

variable {next : Compositor}

/-- A request enters no callback, or one into a free slot. -/
theorem Compositor.Enters.cases (enters : c.Enters i next) :
    (next.callbacks = c.callbacks ∧ next.serial = c.serial) ∨ ∃ k cb surfaceObj,
    (c.callbacks k).objId = 0 ∧
        next.callbacks = update c.callbacks k ⟨cb, (c.clients i).clientId, surfaceObj, false⟩ ∧
        next.serial = c.serial := by
  have split : ∀ {d : Compositor}, next.rounds = d.rounds →
      next.callbacks = d.callbacks ∧ next.serial = d.serial :=
    fun same => ⟨congrArg Prod.fst same, congrArg Prod.snd same⟩
  rcases enters with same | ⟨cb, surfaceObj, added⟩
  · exact .inl (split same)
  · cases found : firstSlot c.callbacks fun entry => entry.objId = 0 with
    | none =>
      simp only [addCallback, found] at added
      exact .inl (split added)
    | some k =>
      simp only [addCallback, found] at added
      exact .inr ⟨k, cb, surfaceObj, firstSlot_wanted found, split added⟩

variable (opcode : Nat)

theorem display_enters (r : Words) : c.Enters i (cpHandleDisplay c i opcode r).1 := by
  unfold cpHandleDisplay
  split
  · exact .inr ⟨_, _, rfl⟩
  · dsimp only
    split <;> exact .inl rfl
  · exact .inl rfl

theorem surface_enters (obj opcode : Nat) (r : Words) :
    c.Enters i (cpHandleSurface c i obj opcode r).1 := by
  unfold cpHandleSurface
  dsimp only
  split
  · exact .inl rfl
  · split
    · exact .inl (cpFrameAccum_rounds (c := cpZlistRemove c _) _)
    · exact .inl rfl
    · exact .inl rfl
    · exact .inr ⟨_, _, rfl⟩
    · exact .inl rfl
    · exact .inl rfl
    · exact .inl (foldl_cpFrameAccum_rounds (c := c.setSurface _ _) _)
    · split <;> exact .inl rfl
    · exact .inl rfl

theorem registry_rounds (r : Words) : (cpHandleRegistry c i opcode r).1.rounds = c.rounds := by
  unfold cpHandleRegistry
  dsimp only
  split
  · split
    · rfl
    · split
      · rfl
      · dsimp only
        split
        · exact claimLayout_rounds (c := c.setMap i _)
        · rfl
  · rfl

theorem compositor_rounds (r : Words) : (cpHandleCompositor c i opcode r).1.rounds = c.rounds := by
  unfold cpHandleCompositor
  split
  · dsimp only
    split
    · rfl
    · split
      · rfl
      · exact cpZlistInsertTop_rounds (c := (c.setMap i _).setSurface _ _) _
  · dsimp only
    split <;> rfl
  · rfl
  · rfl

theorem shm_rounds (r : Words) : (cpHandleShm c i opcode r).1.rounds = c.rounds := by
  unfold cpHandleShm
  dsimp only
  split
  · split
    · rfl
    · split <;> rfl
  · rfl

theorem pool_rounds (obj opcode : Nat) (r : Words) :
    (cpHandlePool c i obj opcode r).1.rounds = c.rounds := by
  unfold cpHandlePool
  split
  · rfl
  · split
    · dsimp only
      split
      · rfl
      · split
        · rfl
        · split <;> rfl
    · rfl
    · exact releaseBuffers_rounds obj _
    · rfl

theorem buffer_rounds (obj opcode : Nat) : (cpHandleBuffer c i obj opcode).1.rounds = c.rounds := by
  unfold cpHandleBuffer
  split
  · rfl
  · split <;> rfl

theorem region_rounds (obj opcode : Nat) (r : Words) :
    (cpHandleRegion c i obj opcode r).1.rounds = c.rounds := by
  unfold cpHandleRegion
  split
  · rfl
  · dsimp only
    split <;> rfl

theorem seat_rounds (r : Words) : (cpHandleSeat c i opcode r).1.rounds = c.rounds := by
  unfold cpHandleSeat
  split <;> rfl

theorem dispatch_enters (c : Compositor) (i : Fin cpMaxClients) (req : Request) :
    c.Enters i (dispatchRequest c i req).1 := by
  unfold dispatchRequest
  dsimp only
  split
  · exact surface_enters _ _ _
  · split
    · exact display_enters _ _
    · exact .inl (registry_rounds _ _)
    · exact .inl (compositor_rounds _ _)
    · exact .inl (shm_rounds _ _)
    · exact .inl (pool_rounds _ _ _)
    · exact .inl (buffer_rounds _ _)
    · exact surface_enters _ _ _
    · exact .inl (region_rounds _ _ _)
    · exact .inl (seat_rounds _ _)
    · exact .inl rfl

/-- Every callback in the table waits for its frame, and its client is attached. -/
def Waiting (c : Compositor) : Prop :=
  ∀ k, (c.callbacks k).objId ≠ 0 → (c.callbacks k).fired = false ∧
    ∃ i, clientSlot (c.callbacks k).clientId = some i ∧ (c.clients i).active = true

def Compositor.due (c : Compositor) (k : Fin cpMaxSurfaces) : Option (Fin cpMaxClients × Nat) :=
  match clientSlot (c.callbacks k).clientId with
  | none => none
  | some i =>
    if (c.callbacks k).objId = 0 ∨ (c.callbacks k).fired ∨ (c.clients i).active = false then none
    else some (i, (c.callbacks k).objId)

/-- The callbacks the next frame fires, by slot. -/
def awaited (c : Compositor) : List (Fin cpMaxClients × Nat) :=
  (List.finRange cpMaxSurfaces).filterMap c.due

def entered (before after : Fin cpMaxSurfaces → CallbackState) : List Nat :=
  (List.finRange cpMaxSurfaces).filterMap fun k =>
    if (before k).objId = 0 ∧ (after k).objId ≠ 0 then some (after k).objId else none

theorem clientSlot_own (wired : Wired c.tables) (active : (c.clients i).active = true) :
    clientSlot (c.clients i).clientId = some i := by
  have isId : (c.clients i).clientId = i + 1 := wired.ids i active
  rw [isId, clientSlot, dif_pos (by omega), if_neg (by omega)]
  exact congrArg some (Fin.ext (by simp))

theorem eq_of_clientSlot {clientId : Nat} (slot : clientSlot clientId = some i) :
    clientId = i + 1 := by
  unfold clientSlot at slot
  split at slot
  · split at slot
    · cases slot
    · cases slot
      simp only
      omega
  · cases slot

theorem Waiting.congr (waiting : Waiting c)
    (active : ∀ j, (c.clients j).active = true → (next.clients j).active = true)
    (callbacks : ∀ k, (next.callbacks k).objId = 0 ∨ next.callbacks k = c.callbacks k) :
    Waiting next := by
  intro k live
  rcases callbacks k with free | same
  · exact absurd free live
  · rw [same] at live ⊢
    obtain ⟨fresh, j, slot, attached⟩ := waiting k live
    exact ⟨fresh, j, slot, active j attached⟩

theorem Waiting.request (wired : Wired c.tables) (waiting : Waiting c)
    (active : (c.clients i).active = true) : Waiting (dispatchRequest c i req).1 := by
  have clients := dispatch_active c i req
  rcases (dispatch_enters c i req).cases with ⟨callbacks, -⟩ | ⟨slot, cb, surfaceObj, -, callbacks,
    -⟩
  · exact waiting.congr (fun j attached => (clients j).trans attached)
      fun k => .inr (congrFun callbacks k)
  · intro k live
    rw [callbacks] at live ⊢
    by_cases here : k = slot
    · rw [here, update_self]
      exact ⟨rfl, i, clientSlot_own wired active, (clients i).trans active⟩
    · rw [update_of_ne here] at live ⊢
      obtain ⟨fresh, j, isSlot, attached⟩ := waiting k live
      exact ⟨fresh, j, isSlot, (clients j).trans attached⟩

theorem fireCallbacks_callbacks (slots : List (Fin cpMaxSurfaces)) (k : Fin cpMaxSurfaces) :
    ((fireCallbacks c slots).1.callbacks k).objId = 0 ∨
      (fireCallbacks c slots).1.callbacks k = c.callbacks k := by
  induction slots generalizing c with
  | nil => exact .inr rfl
  | cons slot rest ih =>
    unfold fireCallbacks
    dsimp only
    split
    · exact ih
    · split
      · exact ih
      · refine (ih (c := { c with serial := _, callbacks := update c.callbacks slot _ })).elim
          .inl fun same => ?_
        rw [same]
        by_cases here : k = slot
        · exact .inl (by simp only [here, update_self])
        · exact .inr (update_of_ne here _ _)

theorem Waiting.frame (waiting : Waiting c) : Waiting (cpCompositorFrame c).1 := by
  refine waiting.congr (fun j attached => ?_)
    (fireCallbacks_callbacks (c := { c with frameDirty := false }) (List.finRange cpMaxSurfaces))
  have tables := congrFun (congrArg Tables.active (frame_tables c)) j
  exact tables.trans attached

theorem Waiting.reapClient (wired : Wired c.tables) (waiting : Waiting c)
    (active : (c.clients i).active = true) : Waiting (reapClient c i) := by
  intro k live
  rw [reapClient_callbacks] at live ⊢
  split at live
  · exact absurd rfl live
  next foreign =>
    rw [if_neg foreign]
    obtain ⟨fresh, j, slot, attached⟩ := waiting k live
    refine ⟨fresh, j, slot, ?_⟩
    have other : j ≠ i := by
      rintro rfl
      exact foreign ((eq_of_clientSlot slot).trans (wired.ids j active).symm)
    rw [reapClient_other other]
    exact attached

theorem Waiting.attach (waiting : Waiting c) (clientId clientPid : Nat) :
    Waiting (cpCompositorAttachClient c clientId clientPid).1 := by
  unfold cpCompositorAttachClient
  split
  · exact waiting
  next slot _ =>
    refine waiting.congr (fun j attached => ?_) fun k => .inr rfl
    simp only [Compositor.setClient]
    by_cases here : j = slot
    · rw [here, update_self]
    · rw [update_of_ne here]
      exact attached

/-- Whatever the step, callbacks in the table wait, and their clients are attached. -/
theorem Waiting.step {next : Compositor} {action : CompositorAction} (wired : Wired c.tables)
    (waiting : Waiting c) (transition : CompositorStep c action next) : Waiting next := by
  cases transition with
  | attach => exact waiting.attach _ _
  | setWmPid =>
    unfold cpCompositorSetWmPid
    dsimp only
    split
    · exact waiting
    · split <;> exact waiting
  | request active => exact waiting.request wired active
  | frame => exact waiting.frame
  | reap =>
    refine (coplandReapDeadClients_induction (fun d => Wired d.tables ∧ Waiting d) c _
      ⟨wired, waiting⟩ ?_).2
    intro d i both active
    exact ⟨both.1.reapClient active, both.2.reapClient both.1 active⟩

theorem waiting_of_reachable (reachable : Reachable c) : Waiting c := by
  obtain ⟨memory, actions, run⟩ := reachable
  refine (run.invariant (fun c => Wired c.tables ∧ Waiting c) (fun _ _ _ both transition =>
    ⟨both.1.step transition, both.2.step both.1 transition⟩) ⟨wired_init memory, ?_⟩).2
  exact fun k live => absurd rfl live

/-- A `CP_CALLBACK_DONE` event. -/
def callbackDone (cb serial : Nat) : Event := ⟨cb, 0, [.u32 serial]⟩

/-- The serial in a `CP_CALLBACK_DONE` event. -/
def Event.serial (event : Event) : Nat :=
  match event.fields with
  | [.u32 serial] => serial
  | _ => 0

@[simp] def doneEvents : Nat → List (Fin cpMaxClients × Nat) → List (Fin cpMaxClients × Event)
  | _, [] => []
  | serial, (i, cb) :: rest =>
    (i, callbackDone cb (add32 serial 1)) :: doneEvents (add32 serial 1) rest

theorem due_congr {k : Fin cpMaxSurfaces}
    (active : ∀ j, (next.clients j).active = (c.clients j).active)
    (callbacks : next.callbacks k = c.callbacks k) : next.due k = c.due k := by
  simp only [Compositor.due, callbacks, active]

theorem fireCallbacks_events {slots : List (Fin cpMaxSurfaces)} (distinct : slots.Nodup) :
    (fireCallbacks c slots).2 = doneEvents c.serial (slots.filterMap c.due) := by
  induction slots generalizing c with
  | nil => rfl
  | cons k rest ih =>
    obtain ⟨absent, distinct⟩ := nodup_cons.mp distinct
    unfold fireCallbacks
    dsimp only
    split
    next slot =>
      rw [filterMap_cons_none (by simp only [Compositor.due, slot])]
      exact ih distinct
    next i slot =>
      split
      next idle =>
        rw [filterMap_cons_none (by simp only [Compositor.due, slot, if_pos idle])]
        exact ih distinct
      next live =>
        rw [filterMap_cons_some (b := (i, (c.callbacks k).objId))
          (by simp only [Compositor.due, slot, if_neg live])]
        rw [doneEvents, ih distinct]
        refine congrArg (fun later => (i, callbackDone _ _) :: doneEvents _ later) ?_
        refine filterMap_congr fun other member => due_congr (fun _ => rfl) ?_
        have apart : other ≠ k := fun same => absent (by rwa [← same])
        exact update_of_ne apart _ _

theorem fireCallbacks_cleared {slots : List (Fin cpMaxSurfaces)} (waiting : Waiting c)
    {k : Fin cpMaxSurfaces} (member : k ∈ slots) :
    ((fireCallbacks c slots).1.callbacks k).objId = 0 := by
  induction slots generalizing c with
  | nil => exact absurd member not_mem_nil
  | cons slot rest ih =>
    -- a slot that is free when the loop leaves it stays free
    have stays : ∀ {d : Compositor}, (d.callbacks slot).objId = 0 → Waiting d →
        ((fireCallbacks d rest).1.callbacks k).objId = 0 := by
      intro d free waits
      rcases mem_cons.mp member with here | later
      · rw [here]
        rcases fireCallbacks_callbacks (c := d) rest slot with zero | same
        · exact zero
        · rw [same]
          exact free
      · exact ih waits later
    unfold fireCallbacks
    dsimp only
    split
    next absent =>
      refine stays ?_ waiting
      by_contra live
      obtain ⟨-, i, isSlot, -⟩ := waiting slot live
      cases absent.symm.trans isSlot
    next i isSlot =>
      split
      next idle =>
        refine stays ?_ waiting
        by_contra live
        obtain ⟨fresh, j, attached, active⟩ := waiting slot live
        cases isSlot.symm.trans attached
        simp [live, fresh, active] at idle
      next =>
        refine stays (by simp only [update_self]) ?_
        refine waiting.congr (fun _ attached => attached) fun other => ?_
        by_cases here : other = slot
        · exact .inl (by simp only [here, update_self])
        · exact .inr (update_of_ne here _ _)

theorem fireCallbacks_serial (slots : List (Fin cpMaxSurfaces)) :
    (fireCallbacks c slots).1.serial % 4294967296 =
      (c.serial + (fireCallbacks c slots).2.length) % 4294967296 := by
  induction slots generalizing c with
  | nil => rfl
  | cons k rest ih =>
    unfold fireCallbacks
    dsimp only
    split
    · exact ih
    · split
      · exact ih
      · refine ih.trans ?_
        simp only [length_cons, add32]
        omega

theorem frame_events : (cpCompositorFrame c).2.2 = doneEvents c.serial (awaited c) :=
  fireCallbacks_events (c := { c with frameDirty := false }) (nodup_finRange _)

theorem frame_serial : (cpCompositorFrame c).1.serial % 4294967296 =
    (c.serial + (cpCompositorFrame c).2.2.length) % 4294967296 :=
  fireCallbacks_serial (c := { c with frameDirty := false }) (List.finRange cpMaxSurfaces)

theorem awaited_frame (waiting : Waiting c) : awaited (cpCompositorFrame c).1 = [] := by
  refine filterMap_eq_nil_iff.mpr fun k _ => ?_
  have cleared : ((cpCompositorFrame c).1.callbacks k).objId = 0 :=
    fireCallbacks_cleared (c := { c with frameDirty := false }) waiting (mem_finRange k)
  unfold Compositor.due
  split
  · rfl
  · rw [if_pos (.inl cleared)]

variable (serial : Nat) (callbacks : List (Fin cpMaxClients × Nat))

theorem doneEvents_serials : (doneEvents serial callbacks).map (fun entry => entry.2.serial) =
      (List.range callbacks.length).map fun index => (serial + index + 1) % 4294967296 := by
  induction callbacks generalizing serial with
  | nil => rfl
  | cons entry rest ih =>
    rw [length_cons, range_succ_eq_map, map_cons, doneEvents, map_cons, ih, map_map]
    refine congrArg₂ List.cons rfl (map_congr_left fun index _ => ?_)
    simp only [add32, comp_apply]
    omega

theorem doneEvents_done : ∀ entry ∈ doneEvents serial callbacks,
      entry.2 = callbackDone entry.2.obj entry.2.serial := by
  induction callbacks generalizing serial with
  | nil => exact fun _ member => absurd member not_mem_nil
  | cons entry rest ih => exact forall_mem_cons.mpr ⟨rfl, ih _⟩

theorem doneEvents_clients :
    (doneEvents serial callbacks).map Prod.fst = callbacks.map Prod.fst := by
  induction callbacks generalizing serial with
  | nil => rfl
  | cons entry rest ih => exact congrArg (entry.1 :: ·) (ih _)

theorem doneEvents_callbacks :
    (doneEvents serial callbacks).map (fun entry => (entry.1, entry.2.obj)) = callbacks := by
  induction callbacks generalizing serial with
  | nil => rfl
  | cons entry rest ih => exact congrArg (entry :: ·) (ih _)

theorem awaited_request {req : Request} (wired : Wired c.tables)
    (transition : CompositorStep c (.request i req) next) :
    (awaited next).Perm (awaited c ++ (entered c.callbacks next.callbacks).map (i, ·)) := by
  cases transition with
  | request active =>
    have clients := dispatch_active c i req
    rcases (dispatch_enters c i req).cases with
      ⟨callbacks, -⟩ | ⟨slot, cb, surfaceObj, free, callbacks, -⟩
    · have same : awaited (dispatchRequest c i req).1 = awaited c :=
        filterMap_congr fun k _ => due_congr clients (congrFun callbacks k)
      have none : entered c.callbacks (dispatchRequest c i req).1.callbacks = [] := by
        refine filterMap_eq_nil_iff.mpr fun k _ => if_neg ?_
        rw [callbacks]
        exact fun both => both.2 both.1
      rw [same, none, map_nil, append_nil]
    · have member : slot ∈ List.finRange cpMaxSurfaces := mem_finRange slot
      have before : c.due slot = none := by
        unfold Compositor.due
        split
        · rfl
        · rw [if_pos (.inl free)]
      have after : (dispatchRequest c i req).1.due slot = if cb = 0 then none
          else some (i, cb) := by
        have own := clientSlot_own wired active
        have attached := (clients i).trans active
        simp only [Compositor.due, callbacks, update_self, own, attached]
        by_cases zero : cb = 0 <;> simp [zero]
      have waits := filterMap_fill (nodup_finRange _) member before
        fun k _ other => due_congr clients
          ((congrFun callbacks k).trans (update_of_ne other _ _))
      have enters := filterMap_fill (nodup_finRange _) member (f := fun _ => none)
        (g := fun k => if (c.callbacks k).objId = 0 ∧
            ((dispatchRequest c i req).1.callbacks k).objId ≠ 0
          then some ((dispatchRequest c i req).1.callbacks k).objId else none)
        rfl fun k _ other => if_neg (by
          rw [callbacks, update_of_ne other]
          exact fun both => both.2 both.1)
      rw [filterMap_none, nil_append] at enters
      refine waits.trans (List.Perm.append_left _ ?_)
      refine .trans (.of_eq ?_) (enters.map (i, ·)).symm
      rw [after, callbacks]
      simp only [update_self, free]
      by_cases zero : cb = 0 <;> simp [zero]

theorem dispatch_serial (enters : c.Enters i next) : next.serial = c.serial := by
  rcases enters.cases with ⟨-, serial⟩ | ⟨k, cb, surfaceObj, -, -, serial⟩
  · exact serial
  · exact serial

end M4KK1.Copland
