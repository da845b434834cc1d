import M4KK1.Copland.CompositorRuns

/-!
# Blits stay inside their pools

`CP_POOL_CREATE_BUFFER` compares a blit with the pool once, in 32 bits; the pool may be resized.
-/

namespace M4KK1.Copland

open M4KK1.Lib Function

/-- The end of the bytes that `h` rows of `w` pixels take, without wrap-around. -/
def readEnd (offset stride : Nat) (w h : Int) : Int := offset + (h - 1) * stride + 4 * w

/-- Every blit of the paint pass reads inside the pool it was resolved to. -/
def PaintContained (c : Compositor) : Prop :=
  ∀ blit ∈ cpCompositorPaint c,
    readEnd blit.offset blit.stride blit.w blit.h ≤ (c.pools blit.pool).size

/-- The live surfaces of a client that show the buffer with this id end within `size`. -/
def SurfacesFit (t : Tables) (own bufferObj offset stride size : Nat) : Prop :=
  ∀ k, (t.surfaces k).objId ≠ 0 → (t.surfaces k).clientId = own →
    (t.surfaces k).bufferObj = bufferObj →
    readEnd offset stride (t.surfaces k).w (t.surfaces k).h ≤ size

/-- A pool of this size covers the client's live buffers in it and the surfaces that show them. -/
def PoolCovers (t : Tables) (own poolObj size : Nat) : Prop :=
  ∀ k, (t.buffers k).objId ≠ 0 → (t.buffers k).clientId = own → (t.buffers k).poolObj = poolObj →
    readEnd (t.buffers k).offset (t.buffers k).stride (t.buffers k).w (t.buffers k).h ≤ size ∧
      SurfacesFit t own (t.buffers k).objId (t.buffers k).offset (t.buffers k).stride size

/-- A buffer under a new id, whose range ends inside the pool also at the size of its surfaces. -/
def BufferFits (t : Tables) (b : BufferState) : Prop :=
  (∀ k, (t.buffers k).objId ≠ 0 → (t.buffers k).clientId = b.clientId →
    (t.buffers k).objId ≠ b.objId) ∧
  ∀ p, (t.pools p).objId ≠ 0 → (t.pools p).clientId = b.clientId → (t.pools p).objId = b.poolObj →
    readEnd b.offset b.stride b.w b.h ≤ (t.pools p).size ∧
      SurfacesFit t b.clientId b.objId b.offset b.stride (t.pools p).size

/-- The `CP_SHM_CREATE_POOL` requests that make a pool. -/
def MakesPool (c : Compositor) (i : Fin cpMaxClients) (req : Request) : Prop :=
  cpObjmapIface (c.clients i).map req.obj = some .shm ∧ req.opcode = 0 ∧
    (∃ k, (c.pools k).objId = 0) ∧
    cpObjmapInsert (c.clients i).map req.args.getU32.1 .shmPool ≠ none

/-- The `CP_POOL_CREATE_BUFFER` requests that make a buffer. -/
def MakesBuffer (c : Compositor) (i : Fin cpMaxClients) (req : Request) : Prop :=
  cpObjmapIface (c.clients i).map req.obj = some .shmPool ∧
    PoolReq.ofOpcode req.opcode = some .createBuffer ∧
    (∃ p, cpFindPool c (c.clients i).clientId req.obj = some p ∧
      ¬ req.args.getBufferArgs.Refused (c.pools p).size) ∧
    (∃ k, (c.buffers k).objId = 0) ∧
    cpObjmapInsert (c.clients i).map req.args.getBufferArgs.id .buffer ≠ none

/-- The `CP_POOL_RESIZE` requests that find their pool. -/
def ResizesPool (c : Compositor) (i : Fin cpMaxClients) (req : Request) : Prop :=
  cpObjmapIface (c.clients i).map req.obj = some .shmPool ∧
    PoolReq.ofOpcode req.opcode = some .resize ∧
    cpFindPool c (c.clients i).clientId req.obj ≠ none

def SizesCover (c : Compositor) : CompositorAction → Prop
  | .request i req =>
    (MakesPool c i req →
      PoolCovers c.tables (c.clients i).clientId req.args.getU32.1
        req.args.getU32.2.getU32.2.getU32.1) ∧
    (MakesBuffer c i req →
      BufferFits c.tables (req.args.getBufferArgs.record (c.clients i).clientId req.obj)) ∧
    (ResizesPool c i req →
      PoolCovers c.tables (c.clients i).clientId req.obj req.args.getU32.1)
  | _ => True

instance (t : Tables) (own bufferObj offset stride size : Nat) :
    Decidable (SurfacesFit t own bufferObj offset stride size) :=
  inferInstanceAs (Decidable (∀ _, _ → _ → _ → _))

instance (t : Tables) (own poolObj size : Nat) : Decidable (PoolCovers t own poolObj size) :=
  inferInstanceAs (Decidable (∀ _, _ → _ → _ → _))

instance (t : Tables) (b : BufferState) : Decidable (BufferFits t b) :=
  inferInstanceAs (Decidable (_ ∧ _))

instance (c : Compositor) (i : Fin cpMaxClients) (req : Request) : Decidable (MakesPool c i req) :=
  inferInstanceAs (Decidable (_ ∧ _))

instance (c : Compositor) (i : Fin cpMaxClients) (req : Request) :
    Decidable (MakesBuffer c i req) :=
  inferInstanceAs (Decidable (_ ∧ _))

instance (c : Compositor) (i : Fin cpMaxClients) (req : Request) :
    Decidable (ResizesPool c i req) :=
  inferInstanceAs (Decidable (_ ∧ _))

instance (c : Compositor) (i : Fin cpMaxClients) (req : Request) :
    Decidable (SizesCover c (.request i req)) :=
  inferInstanceAs (Decidable (_ ∧ _))

/-- What holds in every state of such a run. -/
structure Bounded (t : Tables) : Prop where
  /-- A client has one live buffer under an id. -/
  once : ∀ j k, (t.buffers j).objId ≠ 0 → (t.buffers k).objId = (t.buffers j).objId →
    (t.buffers k).clientId = (t.buffers j).clientId → j = k
  /-- A live surface has an owner. -/
  owned : ∀ s, (t.surfaces s).objId ≠ 0 → (t.surfaces s).clientId ≠ 0
  /-- Live buffers and the surfaces that show them end inside their pools. -/
  covers : ∀ p, (t.pools p).objId ≠ 0 →
    PoolCovers t (t.pools p).clientId (t.pools p).objId (t.pools p).size

variable {c : Compositor} {i : Fin cpMaxClients} {req : Request} {t next : Tables}

theorem Bounded.paintContained (bounded : Bounded c.tables) : PaintContained c := by
  intro blit member
  obtain ⟨k, -, painted⟩ := List.mem_filterMap.mp member
  unfold paintSurface at painted
  split at painted
  case isTrue => cases painted
  case isFalse shown =>
    have live : (c.surfaces k).objId ≠ 0 := fun free => shown (Or.inl free)
    have owned := bounded.owned k live
    obtain ⟨b, foundBuffer, painted⟩ := Option.bind_eq_some_iff.mp painted
    obtain ⟨p, foundPool, painted⟩ := Option.bind_eq_some_iff.mp painted
    cases painted
    obtain ⟨bufferNamed, bufferLive, bufferScope⟩ := firstSlot_wanted foundBuffer
    obtain ⟨poolNamed, poolLive, poolScope⟩ := firstSlot_wanted foundPool
    have bufferOwner := bufferScope.resolve_left owned
    have poolOwner := poolScope.resolve_left owned
    have covered := (bounded.covers p poolLive b bufferLive (bufferOwner.trans poolOwner.symm)
      poolNamed.symm).2
    exact covered k live poolOwner.symm bufferNamed.symm

theorem Bounded.mono (bounded : Bounded t)
    (buffers : ∀ k, (next.buffers k).objId ≠ 0 → next.buffers k = t.buffers k)
    (pools : ∀ p, (next.pools p).objId ≠ 0 → next.pools p = t.pools p)
    (surfaces : ∀ s, (next.surfaces s).objId ≠ 0 → (next.surfaces s).clientId ≠ 0 ∧
      ((next.surfaces s).bufferObj = 0 ∨
        ((t.surfaces s).objId ≠ 0 ∧ SurfaceKept (t.surfaces s) (next.surfaces s)))) :
    Bounded next := by
  constructor
  · intro j k live
    rw [buffers j live]
    intro named owner
    have liveOther : (next.buffers k).objId ≠ 0 := by
      rw [named, ← buffers j live]
      exact live
    rw [buffers k liveOther] at named owner
    rw [buffers j live] at live
    exact bounded.once j k live named owner
  · exact fun s live => (surfaces s live).1
  · intro p poolLive k live owner inPool
    have samePool := pools p poolLive
    have sameBuffer := buffers k live
    rw [samePool] at poolLive owner inPool ⊢
    rw [sameBuffer] at live owner inPool ⊢
    obtain ⟨bufferEnds, surfacesEnd⟩ := bounded.covers p poolLive k live owner inPool
    refine ⟨bufferEnds, ?_⟩
    intro s surfaceLive surfaceOwner shows
    rcases (surfaces s surfaceLive).2 with detached | ⟨before, kept⟩
    · exact absurd (shows.symm.trans detached) live
    · rw [kept.w, kept.h]
      exact surfacesEnd s before (kept.clientId.symm.trans surfaceOwner)
        (kept.bufferObj.symm.trans shows)

theorem Bounded.surfaces (bounded : Bounded t) {maps ids active regions}
    {surfaces : Fin cpMaxSurfaces → SurfaceState}
    (each : ∀ s, (surfaces s).objId ≠ 0 → (surfaces s).clientId ≠ 0 ∧ ((surfaces s).bufferObj = 0 ∨
        ((t.surfaces s).objId ≠ 0 ∧ SurfaceKept (t.surfaces s) (surfaces s)))) :
    Bounded ⟨maps, ids, active, surfaces, t.pools, t.buffers, regions⟩ :=
  bounded.mono (fun _ _ => rfl) (fun _ _ => rfl) each

theorem SurfaceKept.refl (s : SurfaceState) : SurfaceKept s s := ⟨rfl, rfl, rfl, rfl, rfl⟩

theorem Bounded.unchanged (bounded : Bounded t) (s : Fin cpMaxSurfaces)
    (live : (t.surfaces s).objId ≠ 0) :
    (t.surfaces s).clientId ≠ 0 ∧ ((t.surfaces s).bufferObj = 0 ∨
      ((t.surfaces s).objId ≠ 0 ∧ SurfaceKept (t.surfaces s) (t.surfaces s))) :=
  ⟨bounded.owned s live, Or.inr ⟨live, .refl _⟩⟩

theorem Bounded.others (bounded : Bounded t) {maps ids active regions} :
    Bounded ⟨maps, ids, active, t.surfaces, t.pools, t.buffers, regions⟩ :=
  bounded.surfaces bounded.unchanged

variable {k : Fin cpMaxSurfaces}

theorem Bounded.setSurface (bounded : Bounded t) {after : SurfaceState} {maps ids active regions}
    (kept : after.objId ≠ 0 → after.clientId ≠ 0 ∧ (after.bufferObj = 0 ∨
      ((t.surfaces k).objId ≠ 0 ∧ SurfaceKept (t.surfaces k) after))) :
    Bounded ⟨maps, ids, active, update t.surfaces k after, t.pools, t.buffers, regions⟩ := by
  apply bounded.surfaces
  intro s
  by_cases here : s = k
  · subst here
    rw [update_self]
    exact kept
  · rw [update_of_ne here]
    exact bounded.unchanged s

theorem Bounded.keepSurface (bounded : Bounded t) {after : SurfaceState}
    {maps ids active regions} (kept : SurfaceKept (t.surfaces k) after) :
    Bounded ⟨maps, ids, active, update t.surfaces k after, t.pools, t.buffers, regions⟩ := by
  apply bounded.setSurface
  intro live
  rw [kept.objId] at live
  rw [kept.clientId]
  exact ⟨bounded.owned k live, Or.inr ⟨live, kept⟩⟩

theorem Bounded.setPool (bounded : Bounded t) {p : Fin cpMaxPools} {after : PoolState}
    {maps ids active regions} (covers : PoolCovers t after.clientId after.objId after.size) :
    Bounded ⟨maps, ids, active, t.surfaces, update t.pools p after, t.buffers, regions⟩ := by
  refine ⟨bounded.once, bounded.owned, ?_⟩
  intro other live
  by_cases here : other = p
  · subst here
    simp only [update_self] at live ⊢
    exact covers
  · simp only [update_of_ne here] at live ⊢
    exact bounded.covers other live

theorem Bounded.bufferMade (bounded : Bounded t) {k : Fin cpMaxSurfaces} {b : BufferState}
    {maps ids active regions} (fits : BufferFits t b) :
    Bounded ⟨maps, ids, active, t.surfaces, t.pools, update t.buffers k b, regions⟩ := by
  obtain ⟨fresh, ends⟩ := fits
  refine ⟨?_, bounded.owned, ?_⟩
  · intro left right live named owner
    by_cases atLeft : left = k
    · by_cases atRight : right = k
      · rw [atLeft, atRight]
      · subst atLeft
        simp only [update_self, update_of_ne atRight] at live named owner
        rw [← named] at live
        exact absurd named (fresh right live owner)
    · by_cases atRight : right = k
      · subst atRight
        simp only [update_self, update_of_ne atLeft] at live named owner
        exact absurd named.symm (fresh left live owner.symm)
      · simp only [update_of_ne atLeft, update_of_ne atRight] at live named owner
        exact bounded.once left right live named owner
  · intro p poolLive slot live owner inPool
    by_cases here : slot = k
    · subst here
      simp only [update_self] at live owner inPool ⊢
      obtain ⟨bufferEnds, surfacesEnd⟩ := ends p poolLive owner.symm inPool.symm
      rw [owner] at surfacesEnd
      exact ⟨bufferEnds, surfacesEnd⟩
    · simp only [update_of_ne here] at live owner inPool ⊢
      exact bounded.covers p poolLive slot live owner inPool

theorem committed_size {scope obj : Nat} {s : SurfaceState} {b : Fin cpMaxSurfaces}
    (shows : (committed c scope obj s).1.bufferObj ≠ 0)
    (found : cpFindBuffer c scope (committed c scope obj s).1.bufferObj = some b) :
    (committed c scope obj s).1.w = (c.buffers b).w ∧ (committed c scope obj s).1.h =
    (c.buffers b).h := by
  have placed := placed_kept (shown c scope s.takeBuffer)
  have damage := takeDamage_kept (shown c scope s.takeBuffer).placed
  have current : (shown c scope s.takeBuffer).bufferObj = s.takeBuffer.bufferObj := by
    unfold shown
    split
    · unfold sized
      dsimp only
      split <;> split <;> rfl
    · rfl
  have taken : (committed c scope obj s).1.bufferObj = s.takeBuffer.bufferObj :=
    damage.bufferObj.trans (placed.bufferObj.trans current)
  rw [taken] at shows found
  have size : (shown c scope s.takeBuffer).w = (c.buffers b).w ∧
      (shown c scope s.takeBuffer).h = (c.buffers b).h := by
    unfold shown
    rw [if_pos shows]
    unfold sized
    rw [found]
    dsimp only
    split <;> exact ⟨rfl, rfl⟩
  exact ⟨damage.w.trans (placed.w.trans size.1), damage.h.trans (placed.h.trans size.2)⟩

theorem Bounded.committed (bounded : Bounded c.tables) {obj : Nat}
    (live : (c.surfaces k).objId ≠ 0) (owner : (c.surfaces k).clientId = c.tables.ids i) :
    Bounded { c.tables with
      surfaces := update c.surfaces k
        (committed c (c.tables.ids i) obj (c.surfaces k)).1 } := by
  obtain ⟨sameId, sameOwner⟩ := committed_same c (c.tables.ids i) obj (c.surfaces k)
  refine ⟨bounded.once, ?_, ?_⟩
  · intro s surfaceLive
    by_cases here : s = k
    · subst here
      simp only [update_self, sameOwner]
      exact bounded.owned s live
    · simp only [update_of_ne here] at surfaceLive ⊢
      exact bounded.owned s surfaceLive
  · intro p poolLive b bufferLive bufferOwner inPool
    obtain ⟨bufferEnds, surfacesEnd⟩ := bounded.covers p poolLive b bufferLive bufferOwner inPool
    refine ⟨bufferEnds, ?_⟩
    intro s surfaceLive surfaceOwner shows
    by_cases here : s = k
    · subst here
      simp only [update_self, sameOwner] at surfaceOwner shows ⊢
      have mine : (c.buffers b).clientId = c.tables.ids i :=
        bufferOwner.trans (surfaceOwner.symm.trans owner)
      have found : cpFindBuffer c (c.tables.ids i)
          (Copland.committed c (c.tables.ids i) obj (c.surfaces s)).1.bufferObj = some b := by
        apply firstSlot_eq_some
        · exact ⟨shows.symm, bufferLive, Or.inr mine⟩
        · rintro other ⟨named, -, scope⟩
          have theirs : (c.buffers other).clientId = (c.buffers b).clientId := by
            rcases scope with zero | same
            · exact absurd (owner.trans zero) (bounded.owned s live)
            · exact same.trans mine.symm
          exact (bounded.once b other bufferLive (named.trans shows) theirs).symm
      obtain ⟨w, h⟩ := committed_size (shows ▸ bufferLive) found
      rw [w, h]
      exact bufferEnds
    · simp only [update_of_ne here] at surfaceLive surfaceOwner shows ⊢
      exact surfacesEnd s surfaceLive surfaceOwner shows

theorem Bounded.request (bounded : Bounded c.tables) (wired : Wired c.tables)
    (active : (c.clients i).active = true) (sizes : SizesCover c (.request i req)) :
    Bounded (dispatchRequest c i req).1.tables := by
  obtain ⟨makesPool, makesBuffer, resizesPool⟩ := sizes
  have identified : c.tables.ids i ≠ 0 := by
    rw [wired.ids i active]
    omega
  have effect := dispatch_effect c i req
  generalize (dispatchRequest c i req).1.tables = next at effect ⊢
  cases effect with
  | kept => exact bounded
  | mapped inserted plain => exact bounded.others
  | surfaceMade free inserted => exact bounded.setSurface fun _ => ⟨identified, Or.inl rfl⟩
  | regionMade free => exact bounded.others
  | @poolMade k map target opcode free inserted =>
    apply bounded.setPool
    apply makesPool
    refine ⟨target, opcode, ⟨k, free⟩, ?_⟩
    exact Option.ne_none_iff_exists'.mpr ⟨map, inserted⟩
  | @bufferMade p k map target opcode found accepted free inserted =>
    apply bounded.bufferMade
    apply makesBuffer
    refine ⟨target, opcode, ⟨p, found, accepted⟩, ⟨k, free⟩, ?_⟩
    exact Option.ne_none_iff_exists'.mpr ⟨map, inserted⟩
  | @poolResized p target opcode found =>
    apply bounded.setPool
    obtain ⟨named, -, scope⟩ := firstSlot_wanted found
    have covers := resizesPool ⟨target, opcode, Option.ne_none_iff_exists'.mpr ⟨p, found⟩⟩
    have owner : (c.pools p).clientId = (c.clients i).clientId := scope.resolve_left identified
    rw [← owner, ← named] at covers
    exact covers
  | @poolDestroyed p target opcode found =>
    apply bounded.mono
    · intro k live
      by_cases taken : (c.buffers k).InPool req.obj
      · simp [BufferState.released, taken] at live
      · exact if_neg taken
    · intro other live
      by_cases here : other = p
      · simp [here] at live
      · exact update_of_ne here _ _
    · exact bounded.unchanged
  | @bufferDestroyed k target opcode found =>
    apply bounded.mono
    · intro other live
      by_cases here : other = k
      · simp [here] at live
      · exact update_of_ne here _ _
    · exact fun _ _ => rfl
    · intro s live
      obtain ⟨sameId, sameOwner⟩ := detachBuffer_same c req.obj s
      have before : (c.surfaces s).objId ≠ 0 := sameId ▸ live
      refine ⟨?_, ?_⟩
      · intro none
        exact bounded.owned s before (sameOwner.symm.trans none)
      · by_cases used : (c.surfaces s).Uses req.obj
        · left
          simp only [detachBuffer, if_pos used]
        · right
          refine ⟨before, ?_⟩
          simp only [detachBuffer, if_neg used]
          exact .refl _
  | surfaceDestroyed target found =>
    apply bounded.setSurface
    intro live
    exact absurd rfl live
  | surfaceSet target found keeps => exact bounded.keepSurface keeps
  | positioned opcode layout keeps => exact bounded.keepSurface keeps
  | surfaceCommitted target found =>
    obtain ⟨named, nonzero, owner⟩ := wired.found_own active target found
    exact bounded.committed (named ▸ nonzero) owner
  | regionSet target found changed => exact bounded.others
  | regionDestroyed target opcode found => exact bounded.others

theorem Bounded.reapClient (bounded : Bounded c.tables) (i : Fin cpMaxClients) :
    Bounded (reapClient c i).tables := by
  rw [reapClient_tables]
  apply bounded.mono
  · intro k live
    by_cases theirs : (c.buffers k).clientId = c.tables.ids i
    · simp [BufferState.reaped, theirs] at live
    · exact if_neg theirs
  · intro p live
    by_cases theirs : (c.pools p).clientId = c.tables.ids i
    · simp [PoolState.reaped, theirs] at live
    · exact if_neg theirs
  · intro s live
    by_cases theirs : (c.surfaces s).clientId = c.tables.ids i
    · simp [SurfaceState.reaped, theirs] at live
    · simp only [SurfaceState.reaped, if_neg theirs] at live ⊢
      exact bounded.unchanged s live

theorem Bounded.step {after : Compositor} {action : CompositorAction} (bounded : Bounded c.tables)
    (wired : Wired c.tables) (transition : Guarded CompositorStep SizesCover c action after) :
    Bounded after.tables := by
  obtain ⟨sizes, transition⟩ := transition
  cases transition with
  | attach =>
    rcases attach_tables c _ _ with same | ⟨i, -, attached⟩
    · rw [same]
      exact bounded
    · rw [attached]
      exact bounded.others
  | setWmPid =>
    rw [setWmPid_tables]
    exact bounded
  | request active => exact bounded.request wired active sizes
  | frame =>
    rw [frame_tables]
    apply bounded.surfaces
    intro s live
    exact ⟨bounded.owned s live, Or.inr ⟨live, framed_kept _⟩⟩
  | reap =>
    exact coplandReapDeadClients_induction (fun d => Bounded d.tables) c _ bounded
      fun d i holds _ => holds.reapClient i

theorem bounded_init (memory : Compositor) : Bounded (cpCompositorInit memory).tables := by
  refine ⟨?_, ?_, ?_⟩
  · intro j k live
    exact absurd rfl live
  · intro s live
    exact absurd rfl live
  · intro p live
    exact absurd rfl live

/-- When sizes cover what is drawn, every blit of the paint pass reads inside its pool. -/
theorem paint_within_pools {memory : Compositor} {actions : List CompositorAction}
    (run : Steps (Guarded CompositorStep SizesCover) (cpCompositorInit memory) actions c) :
    PaintContained c := by
  have both : Wired c.tables ∧ Bounded c.tables := by
    apply run.invariant (fun c => Wired c.tables ∧ Bounded c.tables)
    · intro state action after holds transition
      exact ⟨holds.1.step transition.2, holds.2.step holds.1 transition⟩
    · exact ⟨wired_init memory, bounded_init memory⟩
  exact both.2.paintContained

/-- Requests of attached clients whose sizes cover what is drawn, one after the other. -/
def AllCover (c : Compositor) : List (Fin cpMaxClients × Request) → Prop
  | [] => True
  | entry :: rest =>
    (c.clients entry.1).active = true ∧ SizesCover c (.request entry.1 entry.2) ∧
      AllCover (dispatchRequest c entry.1 entry.2).1 rest

instance decideAllCover (c : Compositor) :
    (requests : List (Fin cpMaxClients × Request)) → Decidable (AllCover c requests)
  | [] => isTrue trivial
  | entry :: rest =>
    have := decideAllCover (dispatchRequest c entry.1 entry.2).1 rest
    inferInstanceAs (Decidable (_ ∧ _ ∧ _))

theorem steps_serve {start : Compositor} {actions : List CompositorAction}
    {requests : List (Fin cpMaxClients × Request)}
    (run : Steps (Guarded CompositorStep SizesCover) start actions c)
    (covered : AllCover c requests) :
    ∃ actions, Steps (Guarded CompositorStep SizesCover) start actions (serve c requests) := by
  induction requests generalizing c actions with
  | nil => exact ⟨actions, run⟩
  | cons entry rest ih =>
    obtain ⟨active, sizes, later⟩ := covered
    exact ih (run.step ⟨sizes, .request active⟩) later

/-- A client makes a pool of 4096 bytes and a surface, and commits a buffer of 32 by 32
pixels on it. -/
def drawSquare : List (Fin cpMaxClients × Request) :=
  [(0, ⟨1, 1, [2]⟩), (0, ⟨2, 0, [4, 3]⟩), (0, ⟨2, 0, [5, 5]⟩), (0, ⟨5, 0, [4, 8388608, 4096]⟩),
   (0, ⟨3, 0, [7]⟩), (0, ⟨4, 0, [6, 0, 32, 32, 128, 0]⟩), (0, ⟨7, 1, [6]⟩), (0, ⟨7, 6, []⟩)]

/-- A client that has drawn a square is painted within its pool. -/
theorem paint_within_pools_square :
    cpCompositorPaint (serve twoClients drawSquare) =
      [⟨0, 0, 32, 32, 8388608, 128, 0, 0⟩] ∧
    PaintContained (serve twoClients drawSquare) := by
  refine ⟨by decide +kernel, ?_⟩
  have attach : ∀ c clientId pid, Guarded CompositorStep SizesCover c (.attach clientId pid)
      (cpCompositorAttachClient c clientId pid).1 := fun _ _ _ => ⟨trivial, .attach⟩
  have attached : Steps (Guarded CompositorStep SizesCover) (cpCompositorInit zeroCompositor)
      _ twoClients := (Steps.refl.step (attach _ 1 100)).step (attach _ 2 200)
  have covered : AllCover twoClients drawSquare := by decide +kernel
  obtain ⟨actions, run⟩ := steps_serve attached covered
  exact paint_within_pools run

/-- The square is drawn after the pool was shrunk to 64 bytes, from beyond its end. -/
theorem paint_beyond_shrunk_pool :
    Reachable (serve twoClients (drawSquare ++ [(0, ⟨4, 1, [64]⟩)])) ∧
      ¬ PaintContained (serve twoClients (drawSquare ++ [(0, ⟨4, 1, [64]⟩)])) := by
  refine ⟨reachable_serve reachable_twoClients (by decide +kernel), ?_⟩
  unfold PaintContained
  decide +kernel

end M4KK1.Copland
