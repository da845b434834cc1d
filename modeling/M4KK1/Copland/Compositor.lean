import M4KK1.Copland.Objects

/-!
# The Copland compositor

`compositor.c` as a state machine, with the part of `cmd/copland.c` that releases exited clients.
-/

namespace M4KK1.Copland

open M4KK1.Lib Function

/-- `struct cp_client`; `conn` says whether a connection is attached. -/
structure Client where
  conn : Bool
  map : Objmap
  clientId : Nat
  connPid : Nat
  active : Bool
  protocolErrors : Nat

/-- `struct cp_compositor`, with `zlist` the first `zcount` entries of its array. -/
structure Compositor where
  clients : Fin cpMaxClients → Client
  surfaces : Fin cpMaxSurfaces → SurfaceState
  pools : Fin cpMaxPools → PoolState
  buffers : Fin cpMaxSurfaces → BufferState
  callbacks : Fin cpMaxSurfaces → CallbackState
  regions : Fin cpMaxSurfaces → RegionState
  frameDmg : Box
  frameDirty : Bool
  zlist : List (Fin cpMaxSurfaces)
  serial : Nat
  wmClientId : Nat
  wmPid : Nat

/-- One `cp_evt_begin`, its puts and `cp_evt_send`. -/
structure Event where
  obj : Nat
  opcode : Nat
  fields : List Field

/-- `CP_ERR_*` -/
inductive ErrorCode where
  | invalidObject
  | invalidMethod
  | noMemory
  | implementation
  | accessDenied
deriving DecidableEq, Repr

def ErrorCode.code : ErrorCode → Nat
  | .invalidObject => 0
  | .invalidMethod => 1
  | .noMemory => 2
  | .implementation => 3
  | .accessDenied => 4

/-- A `CP_DISPLAY_ERROR` event about an object. -/
def displayError (obj : Nat) (error : ErrorCode) : Event :=
  ⟨1, 0, [.u32 obj, .u32 error.code]⟩

/-- `struct cp_msg_reader`, as the words of the message that are left. -/
abbrev Words := List UInt32

def Words.getU32 : Words → Nat × Words
  | [] => (0, [])
  | word :: rest => (word.toNat, rest)

def Words.getI32 (r : Words) : Int × Words :=
  (toInt32 r.getU32.1, r.getU32.2)

/-- Four `cp_get_i32` calls for the sides of a rectangle. -/
def Words.getBox (r : Words) : Box :=
  let (x, r) := r.getI32
  let (y, r) := r.getI32
  let (w, r) := r.getI32
  let (h, _) := r.getI32
  ⟨x, y, w, h⟩

/-- The test on `lookup_client_id`. -/
def InScope (scope clientId : Nat) : Prop := scope = 0 ∨ clientId = scope

instance (scope clientId : Nat) : Decidable (InScope scope clientId) :=
  inferInstanceAs (Decidable (_ ∨ _))

variable (c : Compositor)

/-- `cp_find_surface`: the client's own surface, else the first one with the id. -/
def cpFindSurface (scope obj : Nat) : Option (Fin cpMaxSurfaces) :=
  (firstSlot c.surfaces fun s => s.objId ≠ 0 ∧ s.objId = obj ∧ InScope scope s.clientId) <|>
  firstSlot c.surfaces fun s => s.objId ≠ 0 ∧ s.objId = obj

def cpFindBuffer (scope obj : Nat) : Option (Fin cpMaxSurfaces) :=
  firstSlot c.buffers fun b => b.objId = obj ∧ b.objId ≠ 0 ∧ InScope scope b.clientId

def cpFindPool (scope obj : Nat) : Option (Fin cpMaxPools) :=
  firstSlot c.pools fun p => p.objId = obj ∧ p.objId ≠ 0 ∧ InScope scope p.clientId

/-- `cp_find_region`, which looks at no client. -/
def cpFindRegion (obj : Nat) : Option (Fin cpMaxSurfaces) :=
  firstSlot c.regions fun rg => rg.objId = obj ∧ rg.objId ≠ 0

def cpFrameAccum (box : Box) : Compositor :=
  if box.w ≤ 0 ∨ box.h ≤ 0 then c
  else if c.frameDirty = false then { c with frameDmg := box, frameDirty := true }
  else { c with frameDmg := c.frameDmg.cover box }

def cpZlistInsertTop (index : Fin cpMaxSurfaces) : Compositor :=
  if index ∈ c.zlist then { c with zlist := c.zlist.erase index ++ [index] }
  else if c.zlist.length < cpMaxSurfaces then { c with zlist := c.zlist ++ [index] }
  else c

def cpZlistRemove (index : Fin cpMaxSurfaces) : Compositor :=
  { c with zlist := c.zlist.erase index }

def Compositor.setClient (i : Fin cpMaxClients) (client : Client) : Compositor :=
  { c with clients := update c.clients i client }

def Compositor.setMap (i : Fin cpMaxClients) (map : Objmap) : Compositor :=
  c.setClient i { c.clients i with map := map }

def Compositor.setSurface (k : Fin cpMaxSurfaces) (s : SurfaceState) :
    Compositor :=
  { c with surfaces := update c.surfaces k s }

def Compositor.setPool (k : Fin cpMaxPools) (p : PoolState) : Compositor :=
  { c with pools := update c.pools k p }

def Compositor.setBuffer (k : Fin cpMaxSurfaces) (b : BufferState) : Compositor :=
  { c with buffers := update c.buffers k b }

def Compositor.setRegion (k : Fin cpMaxSurfaces) (rg : RegionState) :
    Compositor :=
  { c with regions := update c.regions k rg }

/-- `cp_objmap_remove` on the requesting client's map. -/
def Compositor.unmap (i : Fin cpMaxClients) (id : Nat) : Compositor :=
  c.setMap i (cpObjmapRemove (c.clients i).map id)

inductive DisplayReq where
  | sync
  | getRegistry

def DisplayReq.ofOpcode : Nat → Option DisplayReq
  | 0 => some .sync
  | 1 => some .getRegistry
  | _ => none

/-- The loop that puts a callback into the first free slot, or drops it. -/
def addCallback (i : Fin cpMaxClients) (cb surfaceObj : Nat) : Compositor :=
  match firstSlot c.callbacks fun entry => entry.objId = 0 with
  | none => c
  | some k =>
    { c with callbacks := update c.callbacks k ⟨cb, (c.clients i).clientId, surfaceObj, false⟩ }

/-- The globals `CP_DISPLAY_GET_REGISTRY` announces. -/
def registryGlobals : List (Interface × CString) :=
  [(.compositor, ⟨"copland_compositor".toUTF8.toList, by decide +kernel⟩),
   (.shm, ⟨"copland_shm".toUTF8.toList, by decide +kernel⟩),
   (.seat, ⟨"copland_seat".toUTF8.toList, by decide +kernel⟩),
   (.output, ⟨"copland_output".toUTF8.toList, by decide +kernel⟩)]

def cpHandleDisplay (i : Fin cpMaxClients) (opcode : Nat) (r : Words) :
    Compositor × List Event :=
  match DisplayReq.ofOpcode opcode with
  | some .sync => (addCallback c i r.getU32.1 0, [])
  | some .getRegistry =>
    let regId := r.getU32.1
    match cpObjmapInsert (c.clients i).map regId .registry with
    | none => (c, [displayError 0 .invalidObject])
    | some map =>
      (c.setMap i map,
       registryGlobals.map fun entry =>
         ⟨regId, 0, [.u32 entry.1.code, .string (some entry.2), .u32 1]⟩)
  | none => (c, [displayError 0 .invalidMethod])

/-- The interfaces `CP_REGISTRY_BIND` accepts, from the low byte of a global's name. -/
def boundInterface (name : Nat) : Option Interface :=
  match name % 256 with
  | 4 => some .compositor
  | 5 => some .shm
  | 10 => some .seat
  | 13 => some .output
  | _ => none

/-- The claim of the layout privilege when `copland_compositor` is bound. -/
def claimLayout (i : Fin cpMaxClients) : Compositor :=
  if c.wmPid ≠ 0 ∧ (c.clients i).connPid ≠ c.wmPid then c
  else if c.wmClientId = 0 then { c with wmClientId := (c.clients i).clientId }
  else c

/-- What follows a successful bind. -/
def boundEvents (iface : Interface) (id : Nat) : List Event :=
  match iface with
  | .shm => [⟨id, 0, [.u32 0]⟩]
  | .seat => [⟨id, 0, [.u32 3]⟩]
  | .output => [⟨id, 0, [.u32 0, .u32 0, .u32 800, .u32 600]⟩]
  | _ => []

def cpHandleRegistry (i : Fin cpMaxClients) (opcode : Nat) (r : Words) :
    Compositor × List Event :=
  if opcode = 0 then
    let (name, r) := r.getU32
    let (id, _) := r.getU32
    match boundInterface name with
    | none => (c, [displayError name .invalidObject])
    | some iface =>
      match cpObjmapInsert (c.clients i).map id iface with
      | none => (c, [displayError 0 .invalidObject])
      | some map =>
        let c := c.setMap i map
        (if iface = .compositor then claimLayout c i else c, boundEvents iface id)
  else (c, [displayError 0 .invalidMethod])

inductive CompositorReq where
  | createSurface
  | createRegion
  | release

def CompositorReq.ofOpcode : Nat → Option CompositorReq
  | 0 => some .createSurface
  | 1 => some .createRegion
  | 2 => some .release
  | _ => none

variable (s : SurfaceState)

/-- The surface `CP_COMPOSITOR_CREATE_SURFACE` leaves in a free slot. -/
def newSurface (id clientId : Nat) : SurfaceState :=
  { s with
    objId := id, clientId := clientId, x := 0, y := 0, w := 0, h := 0
    bufferObj := 0, pendingBuffer := 0
    dmg := { s.dmg with w := 0, h := 0 }, pdmg := { s.pdmg with w := 0, h := 0 }
    pendPos := false, mapped := false, visible := false, hasInputRegion := false }

def cpHandleCompositor (i : Fin cpMaxClients) (opcode : Nat) (r : Words) :
    Compositor × List Event :=
  match CompositorReq.ofOpcode opcode with
  | some .createSurface =>
    let id := r.getU32.1
    match firstSlot c.surfaces fun s => s.objId = 0 with
    | none => (c, [displayError 0 .noMemory])
    | some k =>
      match cpObjmapInsert (c.clients i).map id .surface with
      | none => (c, [displayError 0 .noMemory])
      | some map =>
        let c := c.setMap i map
        let c := c.setSurface k (newSurface (c.surfaces k) id (c.clients i).clientId)
        (cpZlistInsertTop c k, [])
  | some .createRegion =>
    let id := r.getU32.1
    match firstSlot c.regions fun rg => rg.objId = 0 with
    | none => (c, [displayError 0 .noMemory])
    | some k =>
      -- a refused id keeps its old entry, and the region keeps its slot
      let c := c.setRegion k ⟨id, (c.clients i).clientId, Box.empty, true⟩
      (c.setMap i ((cpObjmapInsert (c.clients i).map id .region).getD (c.clients i).map), [])
  | some .release => (c, [])
  | none => (c, [displayError 0 .invalidMethod])

def cpHandleShm (i : Fin cpMaxClients) (opcode : Nat) (r : Words) :
    Compositor × List Event :=
  if opcode = 0 then
    let (id, r) := r.getU32
    let (addr, r) := r.getU32
    let (size, _) := r.getU32
    match firstSlot c.pools fun p => p.objId = 0 with
    | none => (c, [displayError 0 .noMemory])
    | some k =>
      match cpObjmapInsert (c.clients i).map id .shmPool with
      | none => (c, [displayError 0 .noMemory])
      | some map => ((c.setMap i map).setPool k ⟨id, (c.clients i).clientId, addr, size⟩, [])
  else (c, [displayError 0 .invalidMethod])

inductive PoolReq where
  | createBuffer
  | resize
  | destroy
deriving DecidableEq, Repr

def PoolReq.ofOpcode : Nat → Option PoolReq
  | 0 => some .createBuffer
  | 1 => some .resize
  | 2 => some .destroy
  | _ => none

/-- The arguments of `CP_POOL_CREATE_BUFFER`. -/
structure BufferArgs where
  id : Nat
  off : Int
  w : Int
  h : Int
  stride : Int
  fmt : Int
deriving DecidableEq, Repr

/-- The six reads of `CP_POOL_CREATE_BUFFER`. -/
def Words.getBufferArgs (r : Words) : BufferArgs :=
  let (id, r) := r.getU32
  let (off, r) := r.getI32
  let (w, r) := r.getI32
  let (h, r) := r.getI32
  let (stride, r) := r.getI32
  let (fmt, _) := r.getI32
  ⟨id, off, w, h, stride, fmt⟩

/-- The test by which `CP_POOL_CREATE_BUFFER` refuses a buffer. -/
def BufferArgs.Refused (args : BufferArgs) (size : Nat) : Prop :=
  args.fmt ≠ 0 ∨ args.off < 0 ∨ args.w ≤ 0 ∨ args.h ≤ 0 ∨ args.stride < int32 (args.w * 4) ∨
    (int32 (args.off + int32 (args.h * args.stride)) % 4294967296).toNat > size

instance (args : BufferArgs) (size : Nat) : Decidable (args.Refused size) :=
  inferInstanceAs (Decidable (_ ∨ _))

def BufferArgs.record (args : BufferArgs) (clientId poolObj : Nat) : BufferState :=
  ⟨args.id, clientId, poolObj, (args.off % 4294967296).toNat, args.w, args.h,
    (args.stride % 4294967296).toNat⟩

/-- The test by which `CP_POOL_DESTROY` takes a buffer along. -/
def BufferState.InPool (b : BufferState) (obj : Nat) : Prop := b.objId ≠ 0 ∧ b.poolObj = obj

instance (b : BufferState) (obj : Nat) : Decidable (b.InPool obj) :=
  inferInstanceAs (Decidable (_ ∧ _))

/-- The loop of `CP_POOL_DESTROY` over the buffers. -/
def releaseBuffers (c : Compositor) (i : Fin cpMaxClients) (obj : Nat) :
    List (Fin cpMaxSurfaces) → Compositor
  | [] => c
  | k :: rest =>
    if (c.buffers k).InPool obj then
      releaseBuffers ((c.unmap i (c.buffers k).objId).setBuffer k { c.buffers k with objId := 0 })
        i obj rest
    else releaseBuffers c i obj rest

def cpHandlePool (i : Fin cpMaxClients) (obj opcode : Nat) (r : Words) :
    Compositor × List Event :=
  match cpFindPool c (c.clients i).clientId obj with
  | none => (c, [displayError obj .invalidObject])
  | some p =>
    match PoolReq.ofOpcode opcode with
    | some .createBuffer =>
      let args := r.getBufferArgs
      if args.Refused (c.pools p).size then (c, [displayError obj .invalidMethod])
      else
        match firstSlot c.buffers fun b => b.objId = 0 with
        | none => (c, [displayError 0 .noMemory])
        | some k =>
          match cpObjmapInsert (c.clients i).map args.id .buffer with
          | none => (c, [displayError 0 .noMemory])
          | some map => ((c.setMap i map).setBuffer k (args.record (c.clients i).clientId obj), [])
    | some .resize => (c.setPool p { c.pools p with size := r.getU32.1 }, [])
    | some .destroy =>
      let c := releaseBuffers c i obj (List.finRange cpMaxSurfaces)
      ((c.unmap i obj).setPool p { c.pools p with objId := 0 }, [])
    | none => (c, [displayError obj .invalidMethod])

/-- The test by which `CP_BUFFER_DESTROY` detaches a surface. -/
def SurfaceState.Uses (obj : Nat) : Prop :=
  s.objId ≠ 0 ∧ (s.bufferObj = obj ∨ s.pendingBuffer = obj)

instance (s : SurfaceState) (obj : Nat) : Decidable (s.Uses obj) :=
  inferInstanceAs (Decidable (_ ∧ _))

/-- The loop of `CP_BUFFER_DESTROY` over the surfaces. -/
def detachBuffer (obj : Nat) : Compositor :=
  { c with surfaces := fun k =>
      if (c.surfaces k).Uses obj then { c.surfaces k with bufferObj := 0, pendingBuffer := 0 }
      else c.surfaces k }

def cpHandleBuffer (i : Fin cpMaxClients) (obj opcode : Nat) :
    Compositor × List Event :=
  match cpFindBuffer c (c.clients i).clientId obj with
  | none => (c, [displayError obj .invalidObject])
  | some k =>
    if opcode = 0 then
      let c := (detachBuffer c obj).unmap i obj
      (c.setBuffer k { c.buffers k with objId := 0 }, [])
    else (c, [displayError obj .invalidMethod])

inductive SurfaceReq where
  | destroy
  | attach
  | damage
  | frame
  | setOpaqueRegion
  | setInputRegion
  | commit
  | setPosition
deriving DecidableEq, Repr

def SurfaceReq.ofOpcode : Nat → Option SurfaceReq
  | 0 => some .destroy
  | 1 => some .attach
  | 2 => some .damage
  | 3 => some .frame
  | 4 => some .setOpaqueRegion
  | 5 => some .setInputRegion
  | 6 => some .commit
  | 7 => some .setPosition
  | _ => none

def SurfaceState.box : Box := ⟨s.x, s.y, s.w, s.h⟩

/-- `CP_SURFACE_DAMAGE` on the surface. -/
def SurfaceState.damaged (box : Box) : SurfaceState :=
  if box.w > 0 ∧ box.h > 0 then
    { s with pdmg := if s.pdmg.w = 0 then box else s.pdmg.cover box }
  else s

/-- `CP_SURFACE_SET_INPUT_REGION` on the surface. -/
def withInputRegion (reg : Nat) : SurfaceState :=
  if reg = 0 then { s with hasInputRegion := false }
  else
    match cpFindRegion c reg with
    | none => s
    | some k => { s with hasInputRegion := true, input := (c.regions k).box }

def SurfaceState.takeBuffer : SurfaceState :=
  if s.pendingBuffer ≠ 0 then { s with bufferObj := s.pendingBuffer, pendingBuffer := 0 } else s

/-- The size a commit takes from the buffer, when the client has it. -/
def sized (scope : Nat) (s : SurfaceState) : SurfaceState :=
  match cpFindBuffer c scope s.bufferObj with
  | none => s
  | some k => { s with w := (c.buffers k).w, h := (c.buffers k).h }

def shown (scope : Nat) (s : SurfaceState) : SurfaceState :=
  if s.bufferObj ≠ 0 then
    let s := sized c scope s
    if s.mapped = false then { s with mapped := true, visible := true } else s
  else s

def SurfaceState.placed : SurfaceState :=
  if s.pendPos then { s with x := s.pendX, y := s.pendY, pendPos := false } else s

def SurfaceState.takeDamage : SurfaceState :=
  if s.pdmg.w > 0 then { s with dmg := s.pdmg, pdmg := { s.pdmg with w := 0, h := 0 } } else s

/-- `CP_SURFACE_COMMIT`: the record, the rectangles for `cp_frame_accum`, and the events. -/
def committed (scope obj : Nat) (s : SurfaceState) :
    SurfaceState × List Box × List Event :=
  let taken := s.takeBuffer
  let enters := taken.bufferObj ≠ 0 ∧ taken.mapped = false
  let current := shown c scope taken
  let next := current.placed
  let entered : List Box := if enters then [current.box] else []
  let moved : List Box :=
    if current.pendPos then [⟨s.x, s.y, current.w, current.h⟩, next.box] else []
  let repainted : List Box :=
    if next.pdmg.w > 0 then
      [⟨int32 (next.x + next.pdmg.x), int32 (next.y + next.pdmg.y), next.pdmg.w, next.pdmg.h⟩]
    else if next.bufferObj ≠ s.bufferObj then [next.box]
    else []
  (next.takeDamage, entered ++ moved ++ repainted,
   (if enters then [⟨obj, 0, [.u32 0]⟩] else []) ++
   (if s.bufferObj ≠ 0 ∧ s.bufferObj ≠ next.bufferObj then [⟨s.bufferObj, 0, []⟩] else []))

def cpHandleSurface (i : Fin cpMaxClients) (obj opcode : Nat) (r : Words) :
    Compositor × List Event :=
  let scope := (c.clients i).clientId
  match cpFindSurface c scope obj with
  | none => (c, [displayError obj .invalidObject])
  | some k =>
    let s := c.surfaces k
    match SurfaceReq.ofOpcode opcode with
    | some .destroy =>
      let c := (cpFrameAccum (cpZlistRemove c k) s.box).unmap i obj
      (c.setSurface k { s with objId := 0 }, [])
    | some .attach => (c.setSurface k { s with pendingBuffer := r.getU32.1 }, [])
    | some .damage => (c.setSurface k (s.damaged r.getBox), [])
    | some .frame => (addCallback c i r.getU32.1 obj, [])
    | some .setOpaqueRegion => (c, [])
    | some .setInputRegion => (c.setSurface k (withInputRegion c s r.getU32.1), [])
    | some .commit =>
      let (next, boxes, events) := committed c scope obj s
      (boxes.foldl cpFrameAccum (c.setSurface k next), events)
    | some .setPosition =>
      let (x, r) := r.getI32
      let (y, _) := r.getI32
      if c.wmClientId = 0 ∨ c.wmClientId ≠ scope then (c, [displayError obj .accessDenied])
      else (c.setSurface k { s with pendX := x, pendY := y, pendPos := true }, [])
    | none => (c, [displayError obj .invalidMethod])

inductive RegionReq where
  | destroy
  | add
  | subtract
deriving DecidableEq, Repr

def RegionReq.ofOpcode : Nat → Option RegionReq
  | 0 => some .destroy
  | 1 => some .add
  | 2 => some .subtract
  | _ => none

/-- `CP_REGION_ADD` on the region. -/
def RegionState.add (rg : RegionState) (box : Box) : RegionState :=
  if rg.infinite then { rg with infinite := false, box := box }
  else { rg with box := rg.box.cover box }

/-- The full-edge cuts of `CP_REGION_SUBTRACT`. -/
def Box.cut (box hole : Box) : Box :=
  let cx2 := int32 (box.x + box.w)
  let cy2 := int32 (box.y + box.h)
  let hx2 := int32 (hole.x + hole.w)
  let hy2 := int32 (hole.y + hole.h)
  if hole.y ≤ box.y ∧ hy2 ≥ cy2 then
    if hole.x ≤ box.x then { box with x := hx2 }
    else if hx2 ≥ cx2 then { box with w := int32 (hole.x - box.x) }
    else box
  else if hole.x ≤ box.x ∧ hx2 ≥ cx2 then
    if hole.y ≤ box.y then { box with y := hy2 }
    else if hy2 ≥ cy2 then { box with h := int32 (hole.y - box.y) }
    else box
  else box

/-- `CP_REGION_SUBTRACT` on the region. -/
def RegionState.subtract (rg : RegionState) (hole : Box) : RegionState :=
  if rg.infinite then rg else { rg with box := rg.box.cut hole }

def cpHandleRegion (i : Fin cpMaxClients) (obj opcode : Nat) (r : Words) :
    Compositor × List Event :=
  match cpFindRegion c obj with
  | none => (c, [displayError obj .invalidObject])
  | some k =>
    let rg := c.regions k
    match RegionReq.ofOpcode opcode with
    | some .add => (c.setRegion k (rg.add r.getBox), [])
    | some .subtract => (c.setRegion k (rg.subtract r.getBox), [])
    | some .destroy => ((c.unmap i obj).setRegion k { rg with objId := 0 }, [])
    | none => (c, [displayError obj .invalidMethod])

inductive SeatReq where
  | getPointer
  | getKeyboard
  | release

def SeatReq.ofOpcode : Nat → Option SeatReq
  | 0 => some .getPointer
  | 1 => some .getKeyboard
  | 2 => some .release
  | _ => none

/-- The object a seat request makes; a refused id is ignored. -/
def addDevice (i : Fin cpMaxClients) (id : Nat) (iface : Interface) : Compositor :=
  c.setMap i ((cpObjmapInsert (c.clients i).map id iface).getD (c.clients i).map)

def cpHandleSeat (i : Fin cpMaxClients) (opcode : Nat) (r : Words) :
    Compositor × List Event :=
  match SeatReq.ofOpcode opcode with
  | some .getPointer => (addDevice c i r.getU32.1 .pointer, [])
  | some .getKeyboard => (addDevice c i r.getU32.1 .keyboard, [])
  | some .release => (c, [])
  | none => (c, [displayError 0 .invalidMethod])

/-- A message as `cp_compositor_dispatch` takes it apart. -/
structure Request where
  obj : Nat
  opcode : Nat
  args : Words

def cpSurfaceSetPosition : Nat := 7

/-- `cp_compositor_dispatch` behind the read of the message: also the events, and `1` or `-1`. -/
def dispatchRequest (i : Fin cpMaxClients) (req : Request) :
    Compositor × List Event × Int :=
  let obj := req.obj
  let opcode := req.opcode
  let r := req.args
  let served (result : Compositor × List Event) : Compositor × List Event × Int :=
    (result.1, result.2, 1)
  if opcode = cpSurfaceSetPosition then served (cpHandleSurface c i obj opcode r)
  else
    match cpObjmapIface (c.clients i).map obj with
    | some .display => served (cpHandleDisplay c i opcode r)
    | some .registry => served (cpHandleRegistry c i opcode r)
    | some .compositor => served (cpHandleCompositor c i opcode r)
    | some .shm => served (cpHandleShm c i opcode r)
    | some .shmPool => served (cpHandlePool c i obj opcode r)
    | some .buffer => served (cpHandleBuffer c i obj opcode)
    | some .surface => served (cpHandleSurface c i obj opcode r)
    | some .region => served (cpHandleRegion c i obj opcode r)
    | some .seat => served (cpHandleSeat c i opcode r)
    | _ =>
      let client := c.clients i
      (c.setClient i { client with protocolErrors := add32 client.protocolErrors 1 },
       [displayError obj .invalidObject], -1)

def cpCompositorInit : Compositor :=
  { c with
    clients := fun i =>
      { c.clients i with conn := false, active := false, clientId := 0, protocolErrors := 0 }
    surfaces := fun k => { c.surfaces k with objId := 0 }
    pools := fun k => { c.pools k with objId := 0 }
    buffers := fun k => { c.buffers k with objId := 0 }
    callbacks := fun k => { c.callbacks k with objId := 0 }
    regions := fun k => { c.regions k with objId := 0 }
    frameDirty := false
    zlist := []
    serial := 0
    wmClientId := 0 }

def clientSlot (clientId : Nat) : Option (Fin cpMaxClients) :=
  if inside : clientId - 1 < cpMaxClients then
    if clientId = 0 then none else some ⟨clientId - 1, inside⟩
  else none

/-- `cp_compositor_attach_client`; an id outside the table is refused. -/
def cpCompositorAttachClient (clientId clientPid : Nat) :
    Compositor × Option (Fin cpMaxClients) :=
  match clientSlot clientId with
  | none => (c, none)
  | some i =>
    (c.setClient i
      { conn := true
        map := (cpObjmapInsert cpObjmapInit 1 .display).getD cpObjmapInit
        clientId := clientId
        connPid := clientPid
        active := true
        protocolErrors := 0 },
     some i)

def cpCompositorSetWmPid (pid : Nat) : Compositor :=
  let c := { c with wmPid := pid }
  match clientSlot c.wmClientId with
  | none => c
  | some holder =>
    if pid ≠ 0 ∧ (c.clients holder).connPid ≠ pid then { c with wmClientId := 0 } else c

/-- One call of `cp_backend->blit`, with the pool and the offset its source pointer
comes from. -/
structure Blit where
  x : Int
  y : Int
  w : Int
  h : Int
  src : Nat
  stride : Nat
  pool : Fin cpMaxPools
  offset : Nat
deriving DecidableEq, Repr

def paintSurface : Option Blit :=
  if s.objId = 0 ∨ s.mapped = false ∨ s.visible = false then none
  else do
    let k ← cpFindBuffer c s.clientId s.bufferObj
    let b := c.buffers k
    let p ← cpFindPool c s.clientId b.poolObj
    some ⟨s.x, s.y, s.w, s.h, add32 (c.pools p).addr b.offset, b.stride, p, b.offset⟩

/-- `cp_compositor_paint`: the blits, bottom to top. -/
def cpCompositorPaint : List Blit :=
  c.zlist.filterMap fun k => paintSurface c (c.surfaces k)

/-- The callback loop of `cp_compositor_frame`. -/
def fireCallbacks (c : Compositor) :
    List (Fin cpMaxSurfaces) → Compositor × List (Fin cpMaxClients × Event)
  | [] => (c, [])
  | k :: rest =>
    let entry := c.callbacks k
    match clientSlot entry.clientId with
    | none => fireCallbacks c rest
    | some i =>
      if entry.objId = 0 ∨ entry.fired ∨ (c.clients i).active = false then fireCallbacks c rest
      else
        let serial := add32 c.serial 1
        let (final, events) := fireCallbacks
          { c with
            serial := serial
            callbacks := update c.callbacks k { entry with objId := 0, fired := true } }
          rest
        (final, (i, ⟨entry.objId, 0, [.u32 serial]⟩) :: events)

/-- `cp_compositor_frame`: the compositor, the blits, and the events with the clients
they go to. -/
def cpCompositorFrame :
    Compositor × List Blit × List (Fin cpMaxClients × Event) :=
  let blits := if c.frameDirty then cpCompositorPaint c else []
  let c := { c with frameDirty := false }
  let (c, events) := fireCallbacks c (List.finRange cpMaxSurfaces)
  ({ c with surfaces := fun k => { c.surfaces k with dmg := { (c.surfaces k).dmg with w := 0 } } },
   blits, events)

/-- The rectangle `copland_reap_dead_clients` keeps of the surfaces it removes. -/
def reapedDamage (damage : Box) (s : SurfaceState) : Box :=
  let x2 := int32 (damage.x + damage.w)
  let y2 := int32 (damage.y + damage.h)
  let x := if s.x < damage.x then s.x else damage.x
  let y := if s.y < damage.y then s.y else damage.y
  let x2 := if int32 (s.x + s.w) > x2 then int32 (s.x + s.w) else x2
  let y2 := if int32 (s.y + s.h) > y2 then int32 (s.y + s.h) else y2
  ⟨x, y, int32 (x2 - x), int32 (y2 - y)⟩

/-- The surface loop of `copland_reap_dead_clients` for one client. -/
def reapSurfaces (c : Compositor) (clientId : Nat) (damaged : Bool) :
    List (Fin cpMaxSurfaces) → Compositor
  | [] => c
  | k :: rest =>
    let s := c.surfaces k
    if s.objId = 0 ∨ s.clientId ≠ clientId then reapSurfaces c clientId damaged rest
    else
      let c :=
        if damaged then { c with frameDmg := reapedDamage c.frameDmg s }
        else { c with frameDmg := s.box, frameDirty := true }
      reapSurfaces ((cpZlistRemove c k).setSurface k { s with objId := 0 }) clientId true rest

/-- The teardown of one client in `copland_reap_dead_clients`. -/
def reapClient (i : Fin cpMaxClients) : Compositor :=
  let clientId := (c.clients i).clientId
  let c := reapSurfaces c clientId false (List.finRange cpMaxSurfaces)
  let c :=
    { c with
      pools := fun k =>
        if (c.pools k).clientId = clientId then { c.pools k with objId := 0 } else c.pools k
      buffers := fun k =>
        if (c.buffers k).clientId = clientId then { c.buffers k with objId := 0 } else c.buffers k
      callbacks := fun k =>
        if (c.callbacks k).clientId = clientId then { c.callbacks k with objId := 0 }
        else c.callbacks k
      regions := fun k =>
        if (c.regions k).clientId = clientId then { c.regions k with objId := 0 } else c.regions k
      wmClientId := if c.wmClientId = clientId then 0 else c.wmClientId }
  c.setClient i
    { c.clients i with
      conn := false, active := false, clientId := 0, connPid := 0, protocolErrors := 0 }

/-- `copland_reap_dead_clients`, with `alive` the processes `musr_sc_getprocs` lists; where it lists
none, nobody is reaped. -/
def coplandReapDeadClients (alive : List Nat) : Compositor :=
  if alive = [] then c
  else (List.finRange cpMaxClients).foldl
    (fun c i =>
      if (c.clients i).active = false ∨ (c.clients i).connPid = 0 ∨ (c.clients i).connPid ∈ alive
      then c else reapClient c i)
    c

end M4KK1.Copland
