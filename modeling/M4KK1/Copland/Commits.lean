import M4KK1.Copland.Isolation

/-!
# Surface commits

`CP_SURFACE_COMMIT` applies the pending state as a whole, but for the scan of `CP_BUFFER_DESTROY`.
-/

namespace M4KK1.Copland

open M4KK1.Lib Function

/-- The fields `cp_compositor_paint` and `cp_input_pick` read. -/
structure Presented where
  bufferObj : Nat
  x : Int
  y : Int
  w : Int
  h : Int
  mapped : Bool
  visible : Bool
deriving DecidableEq, Repr

/-- The fields a commit applies; a zero buffer is none. -/
structure PendingState where
  buffer : Nat
  position : Option (Int × Int)
deriving DecidableEq, Repr

def SurfaceState.presented (s : SurfaceState) : Presented :=
  ⟨s.bufferObj, s.x, s.y, s.w, s.h, s.mapped, s.visible⟩

def SurfaceState.pending (s : SurfaceState) : PendingState :=
  ⟨s.pendingBuffer, if s.pendPos then some (s.pendX, s.pendY) else none⟩

def Presented.bufferAfter (current : Presented) (pending : PendingState) : Nat :=
  if pending.buffer = 0 then current.bufferObj else pending.buffer

/-- The current state with the pending buffer and position; a surface with a buffer is mapped. -/
def Presented.applying (c : Compositor) (clientId : Nat) (current : Presented)
    (pending : PendingState) : Presented :=
  let buffer := current.bufferAfter pending
  let size := (cpFindBuffer c clientId buffer).map fun k => ((c.buffers k).w, (c.buffers k).h)
  let position := pending.position.getD (current.x, current.y)
  { bufferObj := buffer
    x := position.1
    y := position.2
    w := (size.getD (current.w, current.h)).1
    h := (size.getD (current.w, current.h)).2
    mapped := current.mapped || decide (buffer ≠ 0)
    visible := current.visible || (decide (buffer ≠ 0) && !current.mapped) }

/-- A request of this sort on the surface in slot `k`. -/
structure Addresses (c : Compositor) (i : Fin cpMaxClients) (req : Request) (sort : SurfaceReq)
    (k : Fin cpMaxSurfaces) : Prop where
  opcode : SurfaceReq.ofOpcode req.opcode = some sort
  target : sort = .setPosition ∨ cpObjmapIface (c.clients i).map req.obj = some .surface
  found : cpFindSurface c (c.clients i).clientId req.obj = some k

/-- The call dispatches the commit of the surface in slot `k`. -/
def CommitsSurface (c : Compositor) (action : CompositorAction) (k : Fin cpMaxSurfaces) : Prop :=
  ∃ i req, action = .request i req ∧ Addresses c i req .commit k

/-- The pending state of the surface in slot `k` after a request other than its commit. -/
def pendingAfter (c : Compositor) (i : Fin cpMaxClients) (req : Request) (k : Fin cpMaxSurfaces)
    (pending : PendingState) : PendingState :=
  if cpFindSurface c (c.clients i).clientId req.obj = some k then
    match SurfaceReq.ofOpcode req.opcode with
    | some .attach =>
      if cpObjmapIface (c.clients i).map req.obj = some .surface then
        { pending with buffer := req.args.getU32.1 }
      else pending
    | some .setPosition =>
      if c.wmClientId ≠ 0 ∧ c.wmClientId = (c.clients i).clientId then
        { pending with position := some (req.args.getI32.1, req.args.getI32.2.getI32.1) }
      else pending
    | _ => pending
  else pending

def CompositorAction.pendingAfter (c : Compositor) (action : CompositorAction)
    (k : Fin cpMaxSurfaces) (pending : PendingState) : PendingState :=
  match action with
  | .request i req => Copland.pendingAfter c i req k pending
  | _ => pending

/-- The buffer that the owner of the surface in slot `k` has under an id is destroyed. -/
def LosesBuffer (c next : Compositor) (k : Fin cpMaxSurfaces) (id : Nat) : Prop :=
  id ≠ 0 ∧ ∃ b, (c.buffers b).objId = id ∧ (c.buffers b).clientId = (c.surfaces k).clientId ∧
    (next.buffers b).objId = 0

/-- The surface in slot `k` is in use before and after the call. -/
def Survives (c next : Compositor) (k : Fin cpMaxSurfaces) : Prop :=
  (c.surfaces k).objId ≠ 0 ∧ (next.surfaces k).objId ≠ 0

/-- A call that changes what surfaces show only as their commits say. -/
structure Atomic (c : Compositor) (action : CompositorAction) (next : Compositor) : Prop where
  /-- A current state changes only with a commit, or when the surface or its buffer is destroyed. -/
  kept : ∀ k, Survives c next k → ¬ CommitsSurface c action k →
    ¬ LosesBuffer c next k (c.surfaces k).bufferObj →
    (next.surfaces k).presented = (c.surfaces k).presented
  /-- `CP_SURFACE_ATTACH`, `CP_SURFACE_DAMAGE` and `CP_SURFACE_SET_POSITION` change no
  current state. -/
  prepared : ∀ i req sort slot, action = .request i req → Addresses c i req sort slot →
    sort = .attach ∨ sort = .damage ∨ sort = .setPosition →
    ∀ k, (next.surfaces k).presented = (c.surfaces k).presented
  /-- The pending state is what the latest requests asked for. -/
  latest : ∀ k, Survives c next k → ¬ CommitsSurface c action k →
    ¬ LosesBuffer c next k (c.surfaces k).bufferObj →
    ¬ LosesBuffer c next k (c.surfaces k).pendingBuffer →
    (next.surfaces k).pending = action.pendingAfter c k (c.surfaces k).pending
  /-- A commit applies the pending state and clears it. -/
  applied : ∀ k, CommitsSurface c action k →
    (next.surfaces k).presented =
      (c.surfaces k).presented.applying c (c.surfaces k).clientId (c.surfaces k).pending ∧
    (next.surfaces k).pending = ⟨0, none⟩

/-- A `CP_BUFFER_DESTROY` whose scan reaches a surface that does not show the buffer. -/
def DetachesOther (c : Compositor) : CompositorAction → Prop
  | .request i req =>
    let own := (c.clients i).clientId
    cpObjmapIface (c.clients i).map req.obj = some .buffer ∧ req.opcode = 0 ∧
      cpFindBuffer c own req.obj ≠ none ∧
      ∃ k, (c.surfaces k).Uses req.obj ∧
        ((c.surfaces k).clientId ≠ own ∨
          ((c.surfaces k).bufferObj ≠ req.obj ∧ (c.surfaces k).bufferObj ≠ 0))
  | _ => False

variable {c next : Compositor} {i : Fin cpMaxClients} {req : Request} {k : Fin cpMaxSurfaces}

def SurfaceState.served (c : Compositor) (i : Fin cpMaxClients) (req : Request)
    (s : SurfaceState) : SurfaceState :=
  let scope := (c.clients i).clientId
  match SurfaceReq.ofOpcode req.opcode with
  | some .destroy => { s with objId := 0 }
  | some .attach => { s with pendingBuffer := req.args.getU32.1 }
  | some .damage => s.damaged req.args.getBox
  | some .setInputRegion => withInputRegion c s req.args.getU32.1
  | some .commit => (committed c scope req.obj s).1
  | some .setPosition =>
    if c.wmClientId = 0 ∨ c.wmClientId ≠ scope then s
    else
      { s with
        pendX := req.args.getI32.1, pendY := req.args.getI32.2.getI32.1, pendPos := true }
  | _ => s

theorem foldl_cpFrameAccum_surfaces (boxes : List Box) :
    (boxes.foldl cpFrameAccum c).surfaces = c.surfaces :=
  congrArg Tables.surfaces (foldl_cpFrameAccum_tables boxes)

theorem cpHandleSurface_surfaces (found : cpFindSurface c (c.clients i).clientId req.obj = some k) :
    (cpHandleSurface c i req.obj req.opcode req.args).1.surfaces =
      update c.surfaces k ((c.surfaces k).served c i req) := by
  have same : c.surfaces = update c.surfaces k (c.surfaces k) :=
    (update_eq_self k c.surfaces).symm
  simp only [cpHandleSurface, found, SurfaceState.served]
  cases SurfaceReq.ofOpcode req.opcode with
  | none => exact same
  | some sort =>
    cases sort with
    | destroy =>
      have accumulated : (cpFrameAccum (cpZlistRemove c k) (c.surfaces k).box).surfaces =
          c.surfaces := congrArg Tables.surfaces (cpFrameAccum_tables (c.surfaces k).box)
      simp only [Compositor.setSurface, Compositor.unmap, setMap_surfaces, accumulated]
    | attach => rfl
    | damage => rfl
    | frame => exact (congrArg Tables.surfaces (addCallback_tables _ _)).trans same
    | setOpaqueRegion => exact same
    | setInputRegion => rfl
    | commit => exact foldl_cpFrameAccum_surfaces _
    | setPosition =>
      dsimp only
      split
      · exact same
      · rfl

inductive SurfaceEffect (c : Compositor) (i : Fin cpMaxClients) (req : Request) :
    (Fin cpMaxSurfaces → SurfaceState) → Prop where
  | kept (other : ∀ sort slot, ¬ Addresses c i req sort slot) :
      SurfaceEffect c i req c.surfaces
  | made {k : Fin cpMaxSurfaces} {s : SurfaceState}
      (other : ∀ sort slot, ¬ Addresses c i req sort slot) (free : (c.surfaces k).objId = 0) :
      SurfaceEffect c i req (update c.surfaces k s)
  | detached {b : Fin cpMaxSurfaces}
      (target : cpObjmapIface (c.clients i).map req.obj = some .buffer) (opcode : req.opcode = 0)
      (found : cpFindBuffer c (c.clients i).clientId req.obj = some b) :
      SurfaceEffect c i req (detachBuffer c req.obj).surfaces
  | served {k : Fin cpMaxSurfaces}
      (target : req.opcode = cpSurfaceSetPosition ∨
        cpObjmapIface (c.clients i).map req.obj = some .surface)
      (found : cpFindSurface c (c.clients i).clientId req.obj = some k) :
      SurfaceEffect c i req (update c.surfaces k ((c.surfaces k).served c i req))

theorem ofOpcode_setPosition {opcode : Nat}
    (named : SurfaceReq.ofOpcode opcode = some .setPosition) : opcode = cpSurfaceSetPosition := by
  unfold SurfaceReq.ofOpcode at named
  split at named <;> first | rfl | cases named

theorem Addresses.routed {sort : SurfaceReq} (addresses : Addresses c i req sort k) :
    req.opcode = cpSurfaceSetPosition ∨ cpObjmapIface (c.clients i).map req.obj =
      some .surface := by
  rcases addresses.target with rfl | target
  · exact Or.inl (ofOpcode_setPosition addresses.opcode)
  · exact Or.inr target

theorem dispatch_surface (target : req.opcode = cpSurfaceSetPosition ∨
      cpObjmapIface (c.clients i).map req.obj = some .surface) :
    (dispatchRequest c i req).1 = (cpHandleSurface c i req.obj req.opcode req.args).1 := by
  unfold dispatchRequest
  by_cases opcode : req.opcode = cpSurfaceSetPosition
  · simp only [if_pos opcode]
  · simp only [if_neg opcode, target.resolve_left opcode]

theorem dispatch_surfaces (c : Compositor) (i : Fin cpMaxClients) (req : Request) :
    SurfaceEffect c i req (dispatchRequest c i req).1.surfaces := by
  by_cases target : req.opcode = cpSurfaceSetPosition ∨
      cpObjmapIface (c.clients i).map req.obj = some .surface
  · rw [dispatch_surface target]
    cases found : cpFindSurface c (c.clients i).clientId req.obj with
    | none =>
      have same : (cpHandleSurface c i req.obj req.opcode req.args).1 = c := by
        simp only [cpHandleSurface, found]
      rw [same]
      apply SurfaceEffect.kept
      intro sort slot addresses
      rw [addresses.found] at found
      cases found
    | some k =>
      rw [cpHandleSurface_surfaces found]
      exact .served target found
  · have other : ∀ sort slot, ¬ Addresses c i req sort slot :=
      fun sort slot addresses => target addresses.routed
    have effect := dispatch_effect c i req
    have surfaces : (dispatchRequest c i req).1.surfaces =
        (dispatchRequest c i req).1.tables.surfaces := rfl
    rw [surfaces]
    generalize (dispatchRequest c i req).1.tables = next at effect ⊢
    cases effect with
    | surfaceMade free inserted => exact .made other free
    | bufferDestroyed mapped opcode found => exact .detached mapped opcode found
    | surfaceDestroyed mapped found => exact absurd (Or.inr mapped) target
    | surfaceSet mapped found keeps => exact absurd (Or.inr mapped) target
    | positioned opcode layout keeps => exact absurd (Or.inl opcode) target
    | surfaceCommitted mapped found => exact absurd (Or.inr mapped) target
    | kept => exact .kept other
    | mapped inserted plain => exact .kept other
    | regionMade free => exact .kept other
    | poolMade mapped opcode free inserted => exact .kept other
    | bufferMade mapped opcode found accepted free inserted => exact .kept other
    | poolResized mapped opcode found => exact .kept other
    | poolDestroyed mapped opcode found => exact .kept other
    | regionSet mapped found changed => exact .kept other
    | regionDestroyed mapped opcode found => exact .kept other

theorem served_presented {s : SurfaceState}
    (quiet : SurfaceReq.ofOpcode req.opcode ≠ some .commit) :
    (s.served c i req).presented = s.presented := by
  unfold SurfaceState.served
  dsimp only
  split
  case h_1 => rfl
  case h_2 => rfl
  case h_3 =>
    unfold SurfaceState.damaged
    split <;> rfl
  case h_4 =>
    unfold withInputRegion
    split
    · rfl
    · split <;> rfl
  case h_5 commit => exact absurd commit quiet
  case h_6 => split <;> rfl
  case h_7 => rfl

theorem served_pending {s : SurfaceState} (target : req.opcode = cpSurfaceSetPosition ∨
      cpObjmapIface (c.clients i).map req.obj = some .surface)
    (found : cpFindSurface c (c.clients i).clientId req.obj = some k)
    (quiet : SurfaceReq.ofOpcode req.opcode ≠ some .commit) :
    (s.served c i req).pending = pendingAfter c i req k s.pending := by
  unfold SurfaceState.served pendingAfter
  rw [if_pos found]
  cases named : SurfaceReq.ofOpcode req.opcode with
  | none => rfl
  | some sort =>
    cases sort with
    | destroy => rfl
    | attach =>
      have mapped : cpObjmapIface (c.clients i).map req.obj = some .surface := by
        rcases target with opcode | mapped
        · rw [opcode] at named
          cases named
        · exact mapped
      simp only [if_pos mapped]
      rfl
    | damage =>
      dsimp only
      unfold SurfaceState.damaged
      split <;> rfl
    | frame => rfl
    | setOpaqueRegion => rfl
    | setInputRegion =>
      dsimp only
      unfold withInputRegion
      split
      · rfl
      · split <;> rfl
    | commit => exact absurd named quiet
    | setPosition =>
      dsimp only
      by_cases denied : c.wmClientId = 0 ∨ c.wmClientId ≠ (c.clients i).clientId
      · rw [if_pos denied, if_neg (by tauto)]
      · rw [if_neg denied, if_pos (by tauto)]
        rfl

theorem takeBuffer_presented (s : SurfaceState) : s.takeBuffer.presented =
      { s.presented with bufferObj := s.presented.bufferAfter s.pending } := by
  unfold SurfaceState.takeBuffer Presented.bufferAfter
  by_cases none : s.pendingBuffer = 0
  · simp [none, SurfaceState.pending, SurfaceState.presented]
  · simp [none, SurfaceState.pending, SurfaceState.presented]

theorem takeBuffer_pending (s : SurfaceState) :
    s.takeBuffer.pending = { s.pending with buffer := 0 } := by
  unfold SurfaceState.takeBuffer
  by_cases none : s.pendingBuffer = 0
  · simp [none, SurfaceState.pending]
  · simp [none, SurfaceState.pending]

theorem cpFindBuffer_zero (scope : Nat) : cpFindBuffer c scope 0 = none := by
  apply firstSlot_eq_none.mpr
  rintro slot ⟨named, live, -⟩
  exact live named

theorem shown_presented (scope : Nat) (s : SurfaceState) :
    (shown c scope s).presented = s.presented.applying c scope ⟨0, none⟩ := by
  unfold shown Presented.applying Presented.bufferAfter
  by_cases detached : s.bufferObj = 0
  · simp [SurfaceState.presented, detached, cpFindBuffer_zero]
  · cases found : cpFindBuffer c scope s.bufferObj with
    | none =>
      cases mapped : s.mapped <;> simp [SurfaceState.presented, sized, detached, found, mapped]
    | some b =>
      cases mapped : s.mapped <;> simp [SurfaceState.presented, sized, detached, found, mapped]

theorem shown_pending (scope : Nat) (s : SurfaceState) : (shown c scope s).pending = s.pending := by
  have size : (sized c scope s).pending = s.pending := by
    unfold sized
    split <;> rfl
  unfold shown
  split
  · dsimp only
    split <;> exact size
  · rfl

theorem placed_presented (s : SurfaceState) :
    s.placed.presented =
      { s.presented with
        x := (s.pending.position.getD (s.x, s.y)).1, y :=
          (s.pending.position.getD (s.x, s.y)).2 } := by
  unfold SurfaceState.placed SurfaceState.pending
  cases waiting : s.pendPos <;> rfl

theorem placed_pending (s : SurfaceState) :
    s.placed.pending = { s.pending with position := none } := by
  unfold SurfaceState.placed SurfaceState.pending
  cases waiting : s.pendPos <;> simp [waiting]

theorem takeDamage_states (s : SurfaceState) :
    s.takeDamage.presented = s.presented ∧ s.takeDamage.pending = s.pending := by
  unfold SurfaceState.takeDamage
  split <;> exact ⟨rfl, rfl⟩

theorem committed_presented (scope obj : Nat) (s : SurfaceState) :
    (committed c scope obj s).1.presented = s.presented.applying c scope s.pending := by
  have shows := @shown_presented c scope s.takeBuffer
  have position : (shown c scope s.takeBuffer).pending.position = s.pending.position := by
    rw [shown_pending, takeBuffer_pending]
  rw [takeBuffer_presented] at shows
  have x : (shown c scope s.takeBuffer).x = s.x := congrArg Presented.x shows
  have y : (shown c scope s.takeBuffer).y = s.y := congrArg Presented.y shows
  calc
    (committed c scope obj s).1.presented = (shown c scope s.takeBuffer).placed.presented :=
      (takeDamage_states _).1
    _ = s.presented.applying c scope s.pending := by
      rw [placed_presented, position, shows, x, y]
      rfl

theorem committed_pending (scope obj : Nat) (s : SurfaceState) :
    (committed c scope obj s).1.pending = ⟨0, none⟩ := by
  calc
    (committed c scope obj s).1.pending = (shown c scope s.takeBuffer).placed.pending :=
      (takeDamage_states _).2
    _ = ⟨0, none⟩ := by rw [placed_pending, shown_pending, takeBuffer_pending]

variable {action : CompositorAction}

theorem pendingAfter_other {pending : PendingState}
    (other : cpFindSurface c (c.clients i).clientId req.obj ≠ some k) :
    pendingAfter c i req k pending = pending := if_neg other

theorem pendingAfter_unaddressed {pending : PendingState}
    (unaddressed : ∀ sort slot, ¬ Addresses c i req sort slot) :
    pendingAfter c i req k pending = pending := by
  unfold pendingAfter
  split
  case isFalse => rfl
  case isTrue found =>
    split
    case h_1 named =>
      split
      · exact absurd ⟨named, Or.inr ‹_›, found⟩ (unaddressed .attach k)
      · rfl
    case h_2 named => exact absurd ⟨named, Or.inl rfl, found⟩ (unaddressed .setPosition k)
    case h_3 => rfl

theorem atomic_of_unaddressed
    (unaddressed : ∀ i req sort slot, action = .request i req → ¬ Addresses c i req sort slot)
    (presented : ∀ k, Survives c next k → ¬ LosesBuffer c next k (c.surfaces k).bufferObj →
      (next.surfaces k).presented = (c.surfaces k).presented)
    (pending : ∀ k, Survives c next k → ¬ LosesBuffer c next k (c.surfaces k).bufferObj →
      ¬ LosesBuffer c next k (c.surfaces k).pendingBuffer →
      (next.surfaces k).pending = (c.surfaces k).pending) : Atomic c action next := by
  constructor
  · exact fun k survives _ keeps => presented k survives keeps
  · intro i req sort slot request addresses
    exact absurd addresses (unaddressed i req sort slot request)
  · intro k survives _ keeps keepsPending
    rw [pending k survives keeps keepsPending]
    cases action with
    | request i req =>
      exact (pendingAfter_unaddressed fun sort slot => unaddressed i req sort slot rfl).symm
    | attach clientId clientPid => rfl
    | setWmPid pid => rfl
    | frame => rfl
    | reap alive => rfl
  · rintro k ⟨i, req, request, addresses⟩
    exact absurd addresses (unaddressed i req .commit k request)

theorem atomic_of_same
    (unaddressed : ∀ i req sort slot, action = .request i req → ¬ Addresses c i req sort slot)
    (same : ∀ k, Survives c next k → next.surfaces k = c.surfaces k) : Atomic c action next := by
  apply atomic_of_unaddressed unaddressed
  · intro k survives _
    rw [same k survives]
  · intro k survives _ _
    rw [same k survives]

variable {b : Fin cpMaxSurfaces}

theorem dispatch_bufferDestroy (target : cpObjmapIface (c.clients i).map req.obj = some .buffer)
    (opcode : req.opcode = 0)
    (found : cpFindBuffer c (c.clients i).clientId req.obj = some b) :
    (dispatchRequest c i req).1.surfaces = (detachBuffer c req.obj).surfaces ∧
      (dispatchRequest c i req).1.buffers =
        update c.buffers b { c.buffers b with objId := 0 } := by
  have other : req.opcode ≠ cpSurfaceSetPosition := by
    rw [opcode]
    decide
  simp only [dispatchRequest, if_neg other, target, cpHandleBuffer, found, if_pos opcode]
  exact ⟨rfl, rfl⟩

theorem bufferDestroy_unaddressed
    (target : cpObjmapIface (c.clients i).map req.obj = some .buffer) (opcode : req.opcode = 0)
    (sort : SurfaceReq) (slot : Fin cpMaxSurfaces) : ¬ Addresses c i req sort slot := by
  intro addresses
  rcases addresses.routed with position | mapped
  · rw [opcode] at position
    cases position
  · rw [target] at mapped
    cases mapped

theorem atomic_bufferDestroy (wired : Wired c.tables) (active : (c.clients i).active = true)
    (target : cpObjmapIface (c.clients i).map req.obj = some .buffer) (opcode : req.opcode = 0)
    (found : cpFindBuffer c (c.clients i).clientId req.obj = some b)
    (own : ¬ DetachesOther c (.request i req)) :
    Atomic c (.request i req) (dispatchRequest c i req).1 := by
  obtain ⟨surfaces, buffers⟩ := dispatch_bufferDestroy target opcode found
  obtain ⟨named, live, bufferOwner⟩ := firstSlot_wanted found
  have owner : (c.buffers b).clientId = (c.clients i).clientId := by
    rcases bufferOwner with zero | owned
    · have positive : (c.clients i).clientId = i + 1 := wired.ids i active
      omega
    · exact owned
  -- a surface in which the scan finds the id shows the buffer, or has it pending and shows none
  have shows : ∀ k, (c.surfaces k).Uses req.obj → (c.surfaces k).clientId = (c.clients i).clientId ∧
      ((c.surfaces k).bufferObj = req.obj ∨ (c.surfaces k).bufferObj = 0) := by
    intro k uses
    by_contra stray
    apply own
    refine ⟨target, opcode, Option.ne_none_iff_exists'.mpr ⟨b, found⟩, k, uses, ?_⟩
    by_cases mine : (c.surfaces k).clientId = (c.clients i).clientId
    · exact Or.inr (not_or.mp fun shown => stray ⟨mine, shown⟩)
    · exact Or.inl mine
  have loses : ∀ k, (c.surfaces k).clientId = (c.clients i).clientId →
      LosesBuffer c (dispatchRequest c i req).1 k req.obj := by
    intro k mine
    refine ⟨named ▸ live, b, named, owner.trans mine.symm, ?_⟩
    rw [buffers, update_self]
  have after : ∀ k, (dispatchRequest c i req).1.surfaces k = if (c.surfaces k).Uses req.obj then
      { c.surfaces k with bufferObj := 0, pendingBuffer := 0 } else c.surfaces k :=
    fun k => congrFun surfaces k
  apply atomic_of_unaddressed
  · intro i req sort slot request
    cases request
    exact bufferDestroy_unaddressed target opcode sort slot
  · intro k survives keeps
    rw [after k]
    split
    case isFalse => rfl
    case isTrue uses =>
      obtain ⟨mine, shown | none⟩ := shows k uses
      · exact absurd (shown.symm ▸ loses k mine) keeps
      · simp [SurfaceState.presented, none]
  · intro k survives keeps keepsPending
    rw [after k]
    split
    case isFalse => rfl
    case isTrue uses =>
      obtain ⟨mine, -⟩ := shows k uses
      rcases uses.2 with shown | waiting
      · exact absurd (shown.symm ▸ loses k mine) keeps
      · exact absurd (waiting.symm ▸ loses k mine) keepsPending

theorem atomic_prepared (target : req.opcode = cpSurfaceSetPosition ∨
      cpObjmapIface (c.clients i).map req.obj = some .surface)
    (found : cpFindSurface c (c.clients i).clientId req.obj = some k)
    (quiet : SurfaceReq.ofOpcode req.opcode ≠ some .commit)
    (surfaces : next.surfaces = update c.surfaces k ((c.surfaces k).served c i req)) :
    Atomic c (.request i req) next := by
  have presented : ∀ other, (next.surfaces other).presented = (c.surfaces other).presented := by
    intro other
    rw [surfaces]
    by_cases here : other = k
    · subst here
      rw [update_self]
      exact served_presented quiet
    · rw [update_of_ne here]
  constructor
  · exact fun other _ _ _ => presented other
  · exact fun _ _ _ _ _ _ _ other => presented other
  · intro other _ _ _ _
    rw [surfaces]
    by_cases here : other = k
    · subst here
      rw [update_self]
      exact served_pending target found quiet
    · rw [update_of_ne here]
      refine (pendingAfter_other ?_).symm
      rw [found]
      exact fun same => here (Option.some.inj same).symm
  · rintro other ⟨i, req, request, addresses⟩
    cases request
    exact absurd addresses.opcode quiet

theorem atomic_commit (wired : Wired c.tables) (active : (c.clients i).active = true)
    (commit : Addresses c i req .commit k)
    (surfaces : next.surfaces = update c.surfaces k ((c.surfaces k).served c i req)) :
    Atomic c (.request i req) next := by
  have target := commit.target.resolve_left (by decide)
  have owner : (c.surfaces k).clientId = (c.clients i).clientId :=
    (wired.found_own active target commit.found).2.2
  have others : ∀ other, other ≠ k → next.surfaces other = c.surfaces other := by
    intro other apart
    rw [surfaces, update_of_ne apart]
  have commits : CommitsSurface c (.request i req) k := ⟨i, req, rfl, commit⟩
  have apart : ∀ other, ¬ CommitsSurface c (.request i req) other → other ≠ k := by
    rintro other quiet rfl
    exact quiet commits
  constructor
  · intro other _ quiet _
    rw [others other (apart other quiet)]
  · rintro j request sort slot same addresses prepares
    cases same
    have sorts := addresses.opcode.symm.trans commit.opcode
    cases sorts
    simp at prepares
  · intro other _ quiet _ _
    rw [others other (apart other quiet)]
    refine (pendingAfter_other ?_).symm
    rw [commit.found]
    exact fun same => apart other quiet (Option.some.inj same).symm
  · rintro other ⟨j, request, same, addresses⟩
    cases same
    have here : k = other := Option.some.inj (commit.found.symm.trans addresses.found)
    subst here
    have after : next.surfaces k =
        (committed c (c.clients i).clientId req.obj (c.surfaces k)).1 := by
      rw [surfaces, update_self]
      simp only [SurfaceState.served, commit.opcode]
    rw [after, owner]
    exact ⟨committed_presented _ _ _, committed_pending _ _ _⟩

theorem atomic_request (wired : Wired c.tables) (active : (c.clients i).active = true)
    (own : ¬ DetachesOther c (.request i req)) :
    Atomic c (.request i req) (dispatchRequest c i req).1 := by
  have effect := dispatch_surfaces c i req
  generalize after : (dispatchRequest c i req).1.surfaces = surfaces at effect
  cases effect with
  | kept other =>
    apply atomic_of_same
    · intro j request sort slot same
      cases same
      exact other sort slot
    · exact fun k _ => congrFun after k
  | @made fresh s other free =>
    apply atomic_of_same
    · intro j request sort slot same
      cases same
      exact other sort slot
    · rintro k ⟨live, -⟩
      rw [after]
      have apart : k ≠ fresh := by
        rintro rfl
        exact live free
      exact update_of_ne apart _ _
  | detached target opcode found => exact atomic_bufferDestroy wired active target opcode found own
  | served target found =>
    by_cases commit : SurfaceReq.ofOpcode req.opcode = some .commit
    · have mapped : cpObjmapIface (c.clients i).map req.obj = some .surface := by
        rcases target with opcode | mapped
        · rw [opcode] at commit
          cases commit
        · exact mapped
      exact atomic_commit wired active ⟨commit, Or.inr mapped, found⟩ after
    · exact atomic_prepared target found commit after

theorem reap_surfaces (c : Compositor) (alive : List Nat) (k : Fin cpMaxSurfaces) :
    (coplandReapDeadClients c alive).surfaces k = c.surfaces k ∨
      ((coplandReapDeadClients c alive).surfaces k).objId = 0 := by
  apply coplandReapDeadClients_induction
    (fun d => d.surfaces k = c.surfaces k ∨ (d.surfaces k).objId = 0) c alive (Or.inl rfl)
  intro d i holds _
  have after : (reapClient d i).surfaces k = (d.surfaces k).reaped (d.clients i).clientId :=
    congrFun (congrArg Tables.surfaces (reapClient_tables d i)) k
  rw [after]
  unfold SurfaceState.reaped
  split
  · exact Or.inr rfl
  · exact holds

theorem atomic_step (wired : Wired c.tables) (transition : CompositorStep c action next)
    (own : ¬ DetachesOther c action) : Atomic c action next := by
  cases transition with
  | request active => exact atomic_request wired active own
  | @attach clientId clientPid =>
    have same : (cpCompositorAttachClient c clientId clientPid).1.surfaces = c.surfaces := by
      rcases attach_tables c clientId clientPid with same | ⟨i, -, attached⟩
      · exact congrArg Tables.surfaces same
      · exact congrArg Tables.surfaces attached
    exact atomic_of_same (fun _ _ _ _ request => by cases request) fun k _ => congrFun same k
  | @setWmPid pid =>
    have same := congrArg Tables.surfaces (setWmPid_tables c pid)
    exact atomic_of_same (fun _ _ _ _ request => by cases request) fun k _ => congrFun same k
  | frame =>
    have framed : (cpCompositorFrame c).1.surfaces = fun k => (c.surfaces k).framed :=
      congrArg Tables.surfaces (frame_tables c)
    apply atomic_of_unaddressed (fun _ _ _ _ request => by cases request)
    · intro k _ _
      rw [framed]
      rfl
    · intro k _ _ _
      rw [framed]
      rfl
  | reap =>
    apply atomic_of_same (fun _ _ _ _ request => by cases request)
    rintro k ⟨-, live⟩
    exact (reap_surfaces c _ k).resolve_right live

theorem bufferDestroy_loses {id : Nat}
    (target : cpObjmapIface (c.clients i).map req.obj = some .buffer) (opcode : req.opcode = 0)
    (found : cpFindBuffer c (c.clients i).clientId req.obj = some b)
    (loses : LosesBuffer c (dispatchRequest c i req).1 k id) :
    id = req.obj ∧ (c.buffers b).clientId = (c.surfaces k).clientId := by
  obtain ⟨nonzero, lost, named, owner, gone⟩ := loses
  rw [(dispatch_bufferDestroy target opcode found).2] at gone
  have here : lost = b := by
    by_contra apart
    rw [update_of_ne apart] at gone
    exact nonzero (named.symm.trans gone)
  subst here
  exact ⟨named.symm.trans (firstSlot_wanted found).1, owner⟩

theorem not_atomic_of_detachesOther (wired : Wired c.tables)
    (active : (c.clients i).active = true) (stray : DetachesOther c (.request i req)) :
    ¬ Atomic c (.request i req) (dispatchRequest c i req).1 := by
  intro atomic
  obtain ⟨target, opcode, some, k, uses, other⟩ := stray
  obtain ⟨b, found⟩ := Option.ne_none_iff_exists'.mp some
  obtain ⟨named, nonzero, owner⟩ := wired.buffer_own active found
  have after : (dispatchRequest c i req).1.surfaces k =
      { c.surfaces k with bufferObj := 0, pendingBuffer := 0 } := by
    rw [(dispatch_bufferDestroy target opcode found).1]
    exact if_pos uses
  have survives : Survives c (dispatchRequest c i req).1 k := ⟨uses.1, by rw [after]; exact uses.1⟩
  have quiet : ¬ CommitsSurface c (.request i req) k := by
    rintro ⟨j, request, same, addresses⟩
    cases same
    exact bufferDestroy_unaddressed target opcode _ _ addresses
  have keeps : ¬ LosesBuffer c (dispatchRequest c i req).1 k (c.surfaces k).bufferObj := by
    intro loses
    obtain ⟨shown, mine⟩ := bufferDestroy_loses target opcode found loses
    rcases other with foreign | ⟨hidden, -⟩
    · exact foreign (mine.symm.trans owner)
    · exact hidden shown
  have presented := atomic.kept k survives quiet keeps
  rw [after] at presented
  have none : (c.surfaces k).bufferObj = 0 := (congrArg Presented.bufferObj presented).symm
  -- the surface shows nothing, so it is another client's and its pending buffer is lost
  have foreign : (c.surfaces k).clientId ≠ (c.clients i).clientId :=
    other.resolve_right fun shows => shows.2 none
  have waiting : (c.surfaces k).pendingBuffer = req.obj :=
    uses.2.resolve_left fun shown => nonzero (shown.symm.trans none)
  have keepsPending : ¬ LosesBuffer c (dispatchRequest c i req).1 k (c.surfaces k).pendingBuffer :=
    fun loses => foreign ((bufferDestroy_loses target opcode found loses).2.symm.trans owner)
  have pending := atomic.latest k survives quiet keeps keepsPending
  rw [after] at pending
  have unasked := @pendingAfter_unaddressed c i req k (c.surfaces k).pending
    (bufferDestroy_unaddressed target opcode)
  have lost : 0 = (c.surfaces k).pendingBuffer :=
    congrArg PendingState.buffer (pending.trans unasked)
  exact nonzero (waiting.symm.trans lost.symm)

/-- Surfaces change only as commits say exactly when no `CP_BUFFER_DESTROY` detaches another one. -/
theorem commits_atomic_iff (memory : Compositor) (actions : List CompositorAction) :
    Throughout CompositorStep Atomic (cpCompositorInit memory) actions ↔
      Throughout CompositorStep (fun c action _ => ¬ DetachesOther c action)
        (cpCompositorInit memory) actions := by
  apply Throughout.congr
  intro prior c action next run transition
  have wired := wired_of_reachable ⟨memory, prior, run⟩
  constructor
  · intro atomic stray
    cases transition with
    | request active => exact not_atomic_of_detachesOther wired active stray atomic
    | attach => exact stray
    | setWmPid => exact stray
    | frame => exact stray
    | reap => exact stray
  · exact atomic_step wired transition

/-- Two clients with a buffer under the id 7, of which the first one shows its own. -/
def sharedBufferId : Compositor :=
  serve twoClients
    [(0, ⟨1, 1, [2]⟩), (0, ⟨2, 0, [4, 3]⟩), (0, ⟨2, 0, [5, 4]⟩), (0, ⟨4, 0, [5, 4096, 4096]⟩),
     (0, ⟨5, 0, [7, 0, 1, 1, 4, 0]⟩), (0, ⟨3, 0, [8]⟩), (0, ⟨8, 1, [7]⟩), (0, ⟨8, 6, []⟩),
     (1, ⟨1, 1, [2]⟩), (1, ⟨2, 0, [5, 4]⟩), (1, ⟨4, 0, [5, 8192, 4096]⟩),
     (1, ⟨5, 0, [7, 0, 1, 1, 4, 0]⟩)]

theorem reachable_sharedBufferId : Reachable sharedBufferId :=
  reachable_serve reachable_twoClients (by decide +kernel)

/-- The second client's `CP_BUFFER_DESTROY` takes the first client's buffer off its surface. -/
theorem buffer_detached_across_clients :
    Reachable sharedBufferId ∧ (sharedBufferId.clients 1).active = true ∧
      ¬ Atomic sharedBufferId (.request 1 ⟨7, 0, []⟩)
        (dispatchRequest sharedBufferId 1 ⟨7, 0, []⟩).1 := by
  have active : (sharedBufferId.clients 1).active = true := by decide +kernel
  refine ⟨reachable_sharedBufferId, active, ?_⟩
  apply not_atomic_of_detachesOther (wired_of_reachable reachable_sharedBufferId) active
  have shows : (sharedBufferId.surfaces 0).Uses 7 := by decide +kernel
  have foreign : (sharedBufferId.surfaces 0).clientId ≠ (sharedBufferId.clients 1).clientId := by
    decide +kernel
  exact ⟨by decide +kernel, rfl, by decide +kernel, 0, shows, Or.inl foreign⟩

end M4KK1.Copland
