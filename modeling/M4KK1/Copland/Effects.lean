import M4KK1.Copland.Compositor

/-!
# What a request does to the object tables

`Tables` is the part of the compositor in which objects live; `dispatch_effect` is about a request.
-/

namespace M4KK1.Copland

open M4KK1.Lib Function List

/-- The clients and their objects. -/
structure Tables where
  maps : Fin cpMaxClients → Objmap
  ids : Fin cpMaxClients → Nat
  active : Fin cpMaxClients → Bool
  surfaces : Fin cpMaxSurfaces → SurfaceState
  pools : Fin cpMaxPools → PoolState
  buffers : Fin cpMaxSurfaces → BufferState
  regions : Fin cpMaxSurfaces → RegionState

def Compositor.tables (c : Compositor) : Tables :=
  { maps := fun i => (c.clients i).map
    ids := fun i => (c.clients i).clientId
    active := fun i => (c.clients i).active
    surfaces := c.surfaces
    pools := c.pools
    buffers := c.buffers
    regions := c.regions }

variable {c : Compositor} {i : Fin cpMaxClients}

variable (k : Fin cpMaxSurfaces)

@[simp] theorem setSurface_tables (s : SurfaceState) : (c.setSurface k s).tables =
      { c.tables with surfaces := update c.surfaces k s } := rfl

@[simp] theorem setPool_tables (k : Fin cpMaxPools) (p : PoolState) :
    (c.setPool k p).tables = { c.tables with pools := update c.pools k p } := rfl

@[simp] theorem setBuffer_tables (b : BufferState) :
    (c.setBuffer k b).tables = { c.tables with buffers := update c.buffers k b } := rfl

@[simp] theorem setRegion_tables (rg : RegionState) :
    (c.setRegion k rg).tables = { c.tables with regions := update c.regions k rg } := rfl

theorem setClient_tables {client : Client} (map : client.map = (c.clients i).map)
    (clientId : client.clientId = (c.clients i).clientId)
    (active : client.active = (c.clients i).active) :
    (c.setClient i client).tables = c.tables := by
  unfold Compositor.tables Compositor.setClient
  congr 1 <;>
  · funext j
    by_cases here : j = i
    · subst here
      simp [map, clientId, active]
    · simp [here]

variable (map : Objmap)

@[simp] theorem setMap_tables :
    (c.setMap i map).tables = { c.tables with maps := update c.tables.maps i map } := by
  unfold Compositor.tables Compositor.setMap Compositor.setClient
  congr 1 <;>
  · funext j
    by_cases here : j = i
    · subst here
      simp
    · simp [here]

@[simp] theorem setMap_surfaces : (c.setMap i map).surfaces = c.surfaces := rfl

@[simp] theorem setMap_pools : (c.setMap i map).pools = c.pools := rfl

@[simp] theorem setMap_buffers : (c.setMap i map).buffers = c.buffers := rfl

@[simp] theorem setMap_regions : (c.setMap i map).regions = c.regions := rfl

@[simp] theorem setMap_clientId (j : Fin cpMaxClients) :
    ((c.setMap i map).clients j).clientId = (c.clients j).clientId := by
  unfold Compositor.setMap Compositor.setClient
  by_cases here : j = i
  · subst here
    simp
  · simp [here]

@[simp] theorem cpFrameAccum_tables (box : Box) : (cpFrameAccum c box).tables = c.tables := by
  unfold cpFrameAccum
  split
  · rfl
  · split <;> rfl

@[simp] theorem foldl_cpFrameAccum_tables (boxes : List Box) :
    (boxes.foldl cpFrameAccum c).tables = c.tables := by
  induction boxes generalizing c with
  | nil => rfl
  | cons box rest ih => rw [foldl_cons, ih, cpFrameAccum_tables]

@[simp] theorem cpZlistInsertTop_tables : (cpZlistInsertTop c k).tables = c.tables := by
  unfold cpZlistInsertTop
  split
  · rfl
  · split <;> rfl

@[simp] theorem cpZlistRemove_tables : (cpZlistRemove c k).tables = c.tables := rfl

@[simp] theorem addCallback_tables (cb surfaceObj : Nat) :
    (addCallback c i cb surfaceObj).tables = c.tables := by
  unfold addCallback
  split <;> rfl

@[simp] theorem claimLayout_tables : (claimLayout c i).tables = c.tables := by
  unfold claimLayout
  split
  · rfl
  · split <;> rfl

theorem unmap_tables (id : Nat) :
    (c.unmap i id).tables =
      { c.tables with
        maps := update c.tables.maps i (cpObjmapRemove (c.tables.maps i) id) } :=
  setMap_tables _

def unmapBuffers (buffers : Fin cpMaxSurfaces → BufferState) (obj : Nat) (map : Objmap) :
    List (Fin cpMaxSurfaces) → Objmap
  | [] => map
  | k :: rest =>
    unmapBuffers buffers obj
      (if (buffers k).InPool obj then cpObjmapRemove map (buffers k).objId else map) rest

def BufferState.released (b : BufferState) (obj : Nat) : BufferState :=
  if b.InPool obj then { b with objId := 0 } else b

variable {iface : Interface}

theorem unmapBuffers_mapped {buffers : Fin cpMaxSurfaces → BufferState} {obj id : Nat}
    {map : Objmap} {slots : List (Fin cpMaxSurfaces)}
    (mapped : cpObjmapIface (unmapBuffers buffers obj map slots) id = some iface) :
    cpObjmapIface map id = some iface := by
  induction slots generalizing map with
  | nil => exact mapped
  | cons k rest ih =>
    have before := ih mapped
    split at before
    · rw [cpObjmapIface_remove] at before
      split at before
      · cases before
      · exact before
    · exact before

theorem unmapBuffers_congr {buffers others : Fin cpMaxSurfaces → BufferState} {obj : Nat}
    {map : Objmap} {slots : List (Fin cpMaxSurfaces)}
    (same : ∀ k ∈ slots, buffers k = others k) :
    unmapBuffers buffers obj map slots = unmapBuffers others obj map slots := by
  induction slots generalizing map with
  | nil => rfl
  | cons k rest ih =>
    unfold unmapBuffers
    rw [same k mem_cons_self]
    exact ih fun other member => same other (mem_cons_of_mem _ member)

theorem releaseBuffers_tables {obj : Nat} {slots : List (Fin cpMaxSurfaces)}
    (distinct : slots.Nodup) :
    (releaseBuffers c i obj slots).tables =
      { c.tables with
        maps := update c.tables.maps i
          (unmapBuffers c.buffers obj (c.tables.maps i) slots)
        buffers := fun k => if k ∈ slots then (c.buffers k).released obj else c.buffers k } := by
  induction slots generalizing c with
  | nil => simp [releaseBuffers, unmapBuffers, Compositor.tables]
  | cons k rest ih =>
    obtain ⟨fresh, distinct⟩ := nodup_cons.mp distinct
    unfold releaseBuffers unmapBuffers
    split
    case isTrue inPool =>
      have others : ∀ map, unmapBuffers (update c.buffers k { c.buffers k with objId := 0 })
          obj map rest = unmapBuffers c.buffers obj map rest := by
        intro map
        apply unmapBuffers_congr
        intro other member
        have apart : other ≠ k := by
          rintro rfl
          exact fresh member
        rw [update_of_ne apart]
      rw [ih distinct, setBuffer_tables, unmap_tables]
      have after : ((c.unmap i (c.buffers k).objId).setBuffer k
          { c.buffers k with objId := 0 }).buffers =
          update c.buffers k { c.buffers k with objId := 0 } := rfl
      simp only [after, others, update_self, update_idem]
      congr 1
      funext other
      by_cases here : other = k
      · subst here
        simp [fresh, BufferState.released, inPool]
      · simp [here]
    case isFalse outside =>
      rw [ih distinct]
      dsimp only
      congr 1
      funext other
      by_cases here : other = k
      · subst here
        simp [fresh, BufferState.released, outside]
      · simp [here]

/-- A surface that a request other than a commit or a destruction leaves. -/
structure SurfaceKept (before after : SurfaceState) : Prop where
  objId : after.objId = before.objId
  clientId : after.clientId = before.clientId
  bufferObj : after.bufferObj = before.bufferObj
  w : after.w = before.w
  h : after.h = before.h

/-- What a request of client `i` does to the tables. -/
inductive Effect (c : Compositor) (i : Fin cpMaxClients) (req : Request) : Tables → Prop where
  | kept : Effect c i req c.tables
  | mapped {map : Objmap} {id : Nat} {iface : Interface}
      (inserted : cpObjmapInsert (c.tables.maps i) id iface = some map)
      (plain : iface ≠ .surface) :
      Effect c i req { c.tables with maps := update c.tables.maps i map }
  | surfaceMade {k : Fin cpMaxSurfaces} {map : Objmap} {id : Nat}
      (free : (c.surfaces k).objId = 0)
      (inserted : cpObjmapInsert (c.tables.maps i) id .surface = some map) :
      Effect c i req
        { c.tables with
          maps := update c.tables.maps i map
          surfaces := update c.surfaces k (newSurface (c.surfaces k) id (c.tables.ids i)) }
  | regionMade {k : Fin cpMaxSurfaces} {id : Nat} (free : (c.regions k).objId = 0) :
      Effect c i req
        { c.tables with
          maps := update c.tables.maps i
            ((cpObjmapInsert (c.tables.maps i) id .region).getD (c.tables.maps i))
          regions := update c.regions k ⟨id, c.tables.ids i, Box.empty, true⟩ }
  | poolMade {k : Fin cpMaxPools} {map : Objmap}
      (target : cpObjmapIface (c.tables.maps i) req.obj = some .shm) (opcode : req.opcode = 0)
      (free : (c.pools k).objId = 0)
      (inserted : cpObjmapInsert (c.tables.maps i) req.args.getU32.1 .shmPool = some map) :
      Effect c i req
        { c.tables with
          maps := update c.tables.maps i map
          pools := update c.pools k
            ⟨req.args.getU32.1, c.tables.ids i, req.args.getU32.2.getU32.1,
              req.args.getU32.2.getU32.2.getU32.1⟩ }
  | bufferMade {p : Fin cpMaxPools} {k : Fin cpMaxSurfaces} {map : Objmap}
      (target : cpObjmapIface (c.tables.maps i) req.obj = some .shmPool)
      (opcode : PoolReq.ofOpcode req.opcode = some .createBuffer)
      (found : cpFindPool c (c.tables.ids i) req.obj = some p)
      (accepted : ¬ req.args.getBufferArgs.Refused (c.pools p).size)
      (free : (c.buffers k).objId = 0)
      (inserted : cpObjmapInsert (c.tables.maps i) req.args.getBufferArgs.id .buffer = some map) :
      Effect c i req
        { c.tables with
          maps := update c.tables.maps i map
          buffers := update c.buffers k
            (req.args.getBufferArgs.record (c.tables.ids i) req.obj) }
  | poolResized {p : Fin cpMaxPools}
      (target : cpObjmapIface (c.tables.maps i) req.obj = some .shmPool)
      (opcode : PoolReq.ofOpcode req.opcode = some .resize)
      (found : cpFindPool c (c.tables.ids i) req.obj = some p) :
      Effect c i req
        { c.tables with
          pools := update c.pools p { c.pools p with size := req.args.getU32.1 } }
  | poolDestroyed {p : Fin cpMaxPools}
      (target : cpObjmapIface (c.tables.maps i) req.obj = some .shmPool)
      (opcode : PoolReq.ofOpcode req.opcode = some .destroy)
      (found : cpFindPool c (c.tables.ids i) req.obj = some p) :
      Effect c i req
        { c.tables with
          maps := update c.tables.maps i
            (cpObjmapRemove (unmapBuffers c.buffers req.obj (c.tables.maps i)
              (List.finRange cpMaxSurfaces)) req.obj)
          buffers := fun k => (c.buffers k).released req.obj
          pools := update c.pools p { c.pools p with objId := 0 } }
  | bufferDestroyed {k : Fin cpMaxSurfaces}
      (target : cpObjmapIface (c.tables.maps i) req.obj = some .buffer) (opcode : req.opcode = 0)
      (found : cpFindBuffer c (c.tables.ids i) req.obj = some k) :
      Effect c i req
        { c.tables with
          maps := update c.tables.maps i (cpObjmapRemove (c.tables.maps i) req.obj)
          surfaces := (detachBuffer c req.obj).surfaces
          buffers := update c.buffers k { c.buffers k with objId := 0 } }
  | surfaceDestroyed {k : Fin cpMaxSurfaces}
      (target : cpObjmapIface (c.tables.maps i) req.obj = some .surface)
      (found : cpFindSurface c (c.tables.ids i) req.obj = some k) :
      Effect c i req
        { c.tables with
          maps := update c.tables.maps i (cpObjmapRemove (c.tables.maps i) req.obj)
          surfaces := update c.surfaces k { c.surfaces k with objId := 0 } }
  | surfaceSet {k : Fin cpMaxSurfaces} {next : SurfaceState}
      (target : cpObjmapIface (c.tables.maps i) req.obj = some .surface)
      (found : cpFindSurface c (c.tables.ids i) req.obj = some k)
      (keeps : SurfaceKept (c.surfaces k) next) :
      Effect c i req { c.tables with surfaces := update c.surfaces k next }
  | positioned {k : Fin cpMaxSurfaces} {next : SurfaceState}
      (opcode : req.opcode = cpSurfaceSetPosition) (layout : c.wmClientId = c.tables.ids i)
      (keeps : SurfaceKept (c.surfaces k) next) :
      Effect c i req { c.tables with surfaces := update c.surfaces k next }
  | surfaceCommitted {k : Fin cpMaxSurfaces}
      (target : cpObjmapIface (c.tables.maps i) req.obj = some .surface)
      (found : cpFindSurface c (c.tables.ids i) req.obj = some k) :
      Effect c i req
        { c.tables with
          surfaces := update c.surfaces k
            (committed c (c.tables.ids i) req.obj (c.surfaces k)).1 }
  | regionSet {k : Fin cpMaxSurfaces} {next : RegionState}
      (target : cpObjmapIface (c.tables.maps i) req.obj = some .region)
      (found : cpFindRegion c req.obj = some k)
      (changed : (RegionReq.ofOpcode req.opcode = some .add ∧
          next = (c.regions k).add req.args.getBox) ∨
        (RegionReq.ofOpcode req.opcode = some .subtract ∧
          next = (c.regions k).subtract req.args.getBox)) :
      Effect c i req { c.tables with regions := update c.regions k next }
  | regionDestroyed {k : Fin cpMaxSurfaces}
      (target : cpObjmapIface (c.tables.maps i) req.obj = some .region)
      (opcode : RegionReq.ofOpcode req.opcode = some .destroy)
      (found : cpFindRegion c req.obj = some k) :
      Effect c i req
        { c.tables with
          maps := update c.tables.maps i (cpObjmapRemove (c.tables.maps i) req.obj)
          regions := update c.regions k { c.regions k with objId := 0 } }

variable {req : Request}

theorem display_effect : Effect c i req (cpHandleDisplay c i req.opcode req.args).1.tables := by
  unfold cpHandleDisplay
  split
  case h_1 =>
    rw [addCallback_tables]
    exact .kept
  case h_2 =>
    dsimp only
    split
    case h_1 => exact .kept
    case h_2 map inserted =>
      rw [setMap_tables]
      exact .mapped inserted (by decide)
  case h_3 => exact .kept

theorem boundInterface_plain {name : Nat}
    (bound : boundInterface name = some iface) : iface ≠ .surface := by
  unfold boundInterface at bound
  split at bound
  all_goals
    cases bound
    try decide

theorem registry_effect : Effect c i req (cpHandleRegistry c i req.opcode req.args).1.tables := by
  unfold cpHandleRegistry
  split
  case isFalse => exact .kept
  case isTrue =>
    dsimp only
    split
    case h_1 => exact .kept
    case h_2 iface bound =>
      split
      case h_1 => exact .kept
      case h_2 map inserted =>
        have plain := boundInterface_plain bound
        split
        · rw [claimLayout_tables, setMap_tables]
          exact .mapped inserted plain
        · rw [setMap_tables]
          exact .mapped inserted plain

theorem compositor_effect :
    Effect c i req (cpHandleCompositor c i req.opcode req.args).1.tables := by
  unfold cpHandleCompositor
  split
  case h_1 =>
    dsimp only
    split
    case h_1 => exact .kept
    case h_2 k found =>
      split
      case h_1 => exact .kept
      case h_2 map inserted =>
        have free := firstSlot_wanted found
        simp only [cpZlistInsertTop_tables, setSurface_tables, setMap_tables, setMap_surfaces,
          setMap_clientId]
        exact .surfaceMade free inserted
  case h_2 =>
    dsimp only
    split
    case h_1 => exact .kept
    case h_2 k found =>
      have free := firstSlot_wanted found
      rw [setMap_tables]
      exact .regionMade free
  case h_3 => exact .kept
  case h_4 => exact .kept

theorem shm_effect (target : cpObjmapIface (c.tables.maps i) req.obj = some .shm) :
    Effect c i req (cpHandleShm c i req.opcode req.args).1.tables := by
  unfold cpHandleShm
  split
  case isFalse => exact .kept
  case isTrue opcode =>
    dsimp only
    split
    case h_1 => exact .kept
    case h_2 k found =>
      split
      case h_1 => exact .kept
      case h_2 map inserted =>
        have free := firstSlot_wanted found
        rw [setPool_tables, setMap_tables, setMap_pools]
        exact .poolMade target opcode free inserted

theorem pool_effect (target : cpObjmapIface (c.tables.maps i) req.obj = some .shmPool) :
    Effect c i req (cpHandlePool c i req.obj req.opcode req.args).1.tables := by
  unfold cpHandlePool
  split
  case h_1 => exact .kept
  case h_2 p found =>
    split
    case h_1 opcode =>
      dsimp only
      split
      case isTrue => exact .kept
      case isFalse accepted =>
        split
        case h_1 => exact .kept
        case h_2 k slotFound =>
          split
          case h_1 => exact .kept
          case h_2 map inserted =>
            have free := firstSlot_wanted slotFound
            rw [setBuffer_tables, setMap_tables, setMap_buffers]
            exact .bufferMade target opcode found accepted free inserted
    case h_2 opcode => exact .poolResized target opcode found
    case h_3 opcode =>
      have effect := Effect.poolDestroyed target opcode found
      have released := @releaseBuffers_tables c i req.obj _ (nodup_finRange cpMaxSurfaces)
      simp only [mem_finRange, if_true] at released
      have pools : (releaseBuffers c i req.obj (List.finRange cpMaxSurfaces)).pools = c.pools :=
        congrArg Tables.pools released
      dsimp only
      rw [setPool_tables, unmap_tables, released]
      simp only [Compositor.unmap, setMap_pools, pools, update_self, update_idem]
      exact effect
    case h_4 => exact .kept

theorem buffer_effect (target : cpObjmapIface (c.tables.maps i) req.obj = some .buffer) :
    Effect c i req (cpHandleBuffer c i req.obj req.opcode).1.tables := by
  unfold cpHandleBuffer
  split
  case h_1 => exact .kept
  case h_2 k found =>
    split
    case isFalse => exact .kept
    case isTrue opcode =>
      dsimp only
      rw [setBuffer_tables, unmap_tables]
      exact .bufferDestroyed target opcode found

theorem damaged_kept (s : SurfaceState) (box : Box) : SurfaceKept s (s.damaged box) := by
  unfold SurfaceState.damaged
  split <;> exact ⟨rfl, rfl, rfl, rfl, rfl⟩

theorem withInputRegion_kept (s : SurfaceState) (reg : Nat) :
    SurfaceKept s (withInputRegion c s reg) := by
  unfold withInputRegion
  split
  · exact ⟨rfl, rfl, rfl, rfl, rfl⟩
  · split <;> exact ⟨rfl, rfl, rfl, rfl, rfl⟩

theorem surface_effect (target : req.opcode = cpSurfaceSetPosition ∨
      cpObjmapIface (c.tables.maps i) req.obj = some .surface) :
    Effect c i req (cpHandleSurface c i req.obj req.opcode req.args).1.tables := by
  have own : ∀ {sort}, SurfaceReq.ofOpcode req.opcode = some sort → sort ≠ .setPosition →
      cpObjmapIface (c.tables.maps i) req.obj = some .surface := by
    intro sort named other
    rcases target with opcode | target
    · rw [opcode] at named
      exact absurd (Option.some.inj named).symm other
    · exact target
  unfold cpHandleSurface
  dsimp only
  split
  case h_1 => exact .kept
  case h_2 k found =>
    split
    case h_1 named =>
      rw [setSurface_tables, unmap_tables, cpFrameAccum_tables, cpZlistRemove_tables]
      have surfaces : ((cpFrameAccum (cpZlistRemove c k) (c.surfaces k).box).unmap i
          req.obj).surfaces = c.surfaces :=
        congrArg Tables.surfaces (cpFrameAccum_tables (c.surfaces k).box)
      rw [surfaces]
      exact .surfaceDestroyed (own named (by decide)) found
    case h_2 named =>
      exact .surfaceSet (own named (by decide)) found ⟨rfl, rfl, rfl, rfl, rfl⟩
    case h_3 named => exact .surfaceSet (own named (by decide)) found (damaged_kept _ _)
    case h_4 =>
      rw [addCallback_tables]
      exact .kept
    case h_5 => exact .kept
    case h_6 named => exact .surfaceSet (own named (by decide)) found (withInputRegion_kept _ _)
    case h_7 named =>
      rw [foldl_cpFrameAccum_tables, setSurface_tables]
      exact .surfaceCommitted (own named (by decide)) found
    case h_8 named =>
      split
      case isTrue => exact .kept
      case isFalse granted =>
        have opcode : req.opcode = cpSurfaceSetPosition := by
          unfold SurfaceReq.ofOpcode at named
          split at named <;> first | assumption | cases named
        have layout : c.wmClientId = c.tables.ids i := by
          by_contra other
          exact granted (Or.inr other)
        exact .positioned opcode layout ⟨rfl, rfl, rfl, rfl, rfl⟩
    case h_9 => exact .kept

theorem region_effect (target : cpObjmapIface (c.tables.maps i) req.obj = some .region) :
    Effect c i req (cpHandleRegion c i req.obj req.opcode req.args).1.tables := by
  unfold cpHandleRegion
  split
  case h_1 => exact .kept
  case h_2 k found =>
    dsimp only
    split
    case h_1 opcode => exact .regionSet target found (Or.inl ⟨opcode, rfl⟩)
    case h_2 opcode => exact .regionSet target found (Or.inr ⟨opcode, rfl⟩)
    case h_3 opcode =>
      rw [setRegion_tables, unmap_tables]
      exact .regionDestroyed target opcode found
    case h_4 => exact .kept

theorem addDevice_effect (id : Nat) (plain : iface ≠ .surface) :
    Effect c i req (addDevice c i id iface).tables := by
  unfold addDevice
  rw [setMap_tables]
  cases inserted : cpObjmapInsert (c.clients i).map id iface with
  | none =>
    have same : update c.tables.maps i ((none : Option Objmap).getD (c.clients i).map) =
        c.tables.maps := update_eq_self i c.tables.maps
    rw [same]
    exact .kept
  | some map => exact .mapped inserted plain

theorem seat_effect : Effect c i req (cpHandleSeat c i req.opcode req.args).1.tables := by
  unfold cpHandleSeat
  split
  · exact addDevice_effect _ (by decide)
  · exact addDevice_effect _ (by decide)
  · exact .kept
  · exact .kept

/-- What a request has done to the tables is one of the listed effects. -/
theorem dispatch_effect (c : Compositor) (i : Fin cpMaxClients) (req : Request) :
    Effect c i req (dispatchRequest c i req).1.tables := by
  unfold dispatchRequest
  dsimp only
  split
  case isTrue opcode => exact surface_effect (Or.inl opcode)
  case isFalse =>
    split
    case h_1 => exact display_effect
    case h_2 => exact registry_effect
    case h_3 => exact compositor_effect
    case h_4 target => exact shm_effect target
    case h_5 target => exact pool_effect target
    case h_6 target => exact buffer_effect target
    case h_7 target => exact surface_effect (Or.inr target)
    case h_8 target => exact region_effect target
    case h_9 => exact seat_effect
    case h_10 =>
      have same : (c.setClient i { c.clients i with
          protocolErrors := add32 (c.clients i).protocolErrors 1 }).tables = c.tables :=
        setClient_tables rfl rfl rfl
      rw [same]
      exact .kept

end M4KK1.Copland
