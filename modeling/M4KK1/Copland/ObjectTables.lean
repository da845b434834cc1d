import Mathlib.Data.Fintype.Card
import M4KK1.Copland.Commits
import M4KK1.Lib.Directory

/-!
# Consistency of the object tables

Every object has an entry in a map and a slot in a table (`Consistent`).
-/

namespace M4KK1.Copland

open M4KK1.Lib Function List

/-- One record of the table has the id, for this owner. -/
def HeldOnce {α : Type} {size : Nat} (objId clientId : α → Nat) (table : Fin size → α)
    (owner id : Nat) : Prop :=
  ∃! k, objId (table k) ≠ 0 ∧ objId (table k) = id ∧ clientId (table k) = owner

/-- The object maps agree with the tables, and the stacking order with the surfaces. -/
structure Consistent (c : Compositor) : Prop where
  surfaces : ∀ i id, (c.clients i).active = true →
    (cpObjmapIface (c.clients i).map id = some .surface ↔
      HeldOnce SurfaceState.objId SurfaceState.clientId c.surfaces (c.clients i).clientId id)
  buffers : ∀ i id, (c.clients i).active = true →
    (cpObjmapIface (c.clients i).map id = some .buffer ↔
      HeldOnce BufferState.objId BufferState.clientId c.buffers (c.clients i).clientId id)
  pools : ∀ i id, (c.clients i).active = true →
    (cpObjmapIface (c.clients i).map id = some .shmPool ↔
      HeldOnce PoolState.objId PoolState.clientId c.pools (c.clients i).clientId id)
  regions : ∀ i id, (c.clients i).active = true →
    (cpObjmapIface (c.clients i).map id = some .region ↔
      HeldOnce RegionState.objId RegionState.clientId c.regions (c.clients i).clientId id)
  stackedOnce : c.zlist.Nodup
  stacked : ∀ k, k ∈ c.zlist ↔ (c.surfaces k).objId ≠ 0

/-- The id under which a request makes an object of the global tables is not zero. -/
def ChoosesNonzero (c : Compositor) (i : Fin cpMaxClients) (req : Request) : Prop :=
  let target := cpObjmapIface (c.clients i).map req.obj
  (target = some .compositor → req.opcode = 0 ∨ req.opcode = 1 → req.args.getU32.1 ≠ 0) ∧
    (target = some .shm → req.opcode = 0 → req.args.getU32.1 ≠ 0) ∧
    (target = some .shmPool → req.opcode = 0 → req.args.getBufferArgs.id ≠ 0)

instance (c : Compositor) (i : Fin cpMaxClients) (req : Request) :
    Decidable (ChoosesNonzero c i req) :=
  inferInstanceAs (Decidable (_ ∧ _ ∧ _))

/-- The map can take the id. -/
def Objmap.Admits (map : Objmap) (id : Nat) : Prop :=
  cpObjmapIface map id = none ∧ ∃ slot, map.slot slot = none

instance (map : Objmap) (id : Nat) : Decidable (map.Admits id) :=
  inferInstanceAs (Decidable (_ ∧ _))

/-- A request makes a region only under an id that is free, and destroys only the client's own. -/
def TidyRequest (c : Compositor) (i : Fin cpMaxClients) (req : Request) : Prop :=
  let own := (c.clients i).clientId
  let target := cpObjmapIface (c.clients i).map req.obj
  (target = some .compositor → req.opcode = 1 → (∃ k, (c.regions k).objId = 0) →
      (c.clients i).map.Admits req.args.getU32.1) ∧
    (target = some .shmPool → PoolReq.ofOpcode req.opcode = some .destroy →
      ∀ k, (c.buffers k).InPool req.obj → (c.buffers k).clientId = own) ∧
    (target = some .region → RegionReq.ofOpcode req.opcode = some .destroy →
      ∀ k, cpFindRegion c req.obj = some k → (c.regions k).clientId = own)

instance (c : Compositor) (i : Fin cpMaxClients) (req : Request) :
    Decidable (TidyRequest c i req) :=
  inferInstanceAs (Decidable (_ ∧ _ ∧ _))

/-- No table has a record of the client. -/
structure NoneLeft (c : Compositor) (clientId : Nat) : Prop where
  surfaces : ∀ k, (c.surfaces k).objId ≠ 0 → (c.surfaces k).clientId ≠ clientId
  pools : ∀ k, (c.pools k).objId ≠ 0 → (c.pools k).clientId ≠ clientId
  buffers : ∀ k, (c.buffers k).objId ≠ 0 → (c.buffers k).clientId ≠ clientId
  regions : ∀ k, (c.regions k).objId ≠ 0 → (c.regions k).clientId ≠ clientId

def NonzeroIds (c : Compositor) : CompositorAction → Prop
  | .request i req => ChoosesNonzero c i req
  | _ => True

/-- A tidy request, or the attachment of a client of which no object is left. -/
def Tidy (c : Compositor) : CompositorAction → Prop
  | .request i req => TidyRequest c i req
  | .attach clientId _ => NoneLeft c clientId
  | _ => True

instance (c : Compositor) (i : Fin cpMaxClients) (req : Request) :
    Decidable (NonzeroIds c (.request i req)) :=
  inferInstanceAs (Decidable (ChoosesNonzero c i req))

instance (c : Compositor) (i : Fin cpMaxClients) (req : Request) :
    Decidable (Tidy c (.request i req)) :=
  inferInstanceAs (Decidable (TidyRequest c i req))

inductive ObjectSort where
  | surface
  | pool
  | buffer
  | region
deriving DecidableEq, Repr

def ObjectSort.iface : ObjectSort → Interface
  | .surface => .surface
  | .pool => .shmPool
  | .buffer => .buffer
  | .region => .region

def ObjectSort.size : ObjectSort → Nat
  | .surface => cpMaxSurfaces
  | .pool => cpMaxPools
  | .buffer => cpMaxSurfaces
  | .region => cpMaxSurfaces

theorem ObjectSort.iface_inj {left right : ObjectSort} (same : left.iface = right.iface) :
    left = right := by
  cases left <;> cases right <;> first | rfl | cases same

/-- The owner and id of a record, when it is in use. -/
def recordKey (objId clientId : Nat) : Option (Nat × Nat) :=
  if objId = 0 then none else some (clientId, objId)

def SurfaceState.key (s : SurfaceState) : Option (Nat × Nat) := recordKey s.objId s.clientId

def PoolState.key (p : PoolState) : Option (Nat × Nat) := recordKey p.objId p.clientId

def BufferState.key (b : BufferState) : Option (Nat × Nat) := recordKey b.objId b.clientId

def RegionState.key (rg : RegionState) : Option (Nat × Nat) := recordKey rg.objId rg.clientId

/-- The owner and id each slot is in use for. -/
def Tables.keys (t : Tables) : (sort : ObjectSort) → Fin sort.size → Option (Nat × Nat)
  | .surface => fun k => (t.surfaces k).key
  | .pool => fun k => (t.pools k).key
  | .buffer => fun k => (t.buffers k).key
  | .region => fun k => (t.regions k).key

/-- Maps and tables agree on every id, and no slot holds what another one does. -/
structure Filed (t : Tables) : Prop where
  ids : ∀ i, t.active i = true → t.ids i = i + 1
  distinct : ∀ sort, Distinct (t.keys sort)
  lists : ∀ sort i, t.active i = true →
    Lists (t.keys sort) (t.ids i) fun id => cpObjmapIface (t.maps i) id = some sort.iface

/-- The stacking order is a list without repetition of the live surfaces. -/
structure Stacked (c : Compositor) : Prop where
  once : c.zlist.Nodup
  live : ∀ k, k ∈ c.zlist ↔ (c.surfaces k).objId ≠ 0

variable {t next : Tables} {i : Fin cpMaxClients} {sort : ObjectSort} {k : Fin sort.size}

theorem recordKey_eq_some {objId clientId : Nat} {key : Nat × Nat} :
    recordKey objId clientId = some key ↔
      objId ≠ 0 ∧ objId = key.2 ∧ clientId = key.1 := by
  unfold recordKey
  split
  case isTrue free => simp [free]
  case isFalse live =>
    simp only [Option.some.injEq]
    constructor
    · rintro rfl
      exact ⟨live, rfl, rfl⟩
    · rintro ⟨-, same, owner⟩
      rw [same, owner]

theorem recordKey_eq_none {objId clientId : Nat} : recordKey objId clientId = none ↔ objId = 0 := by
  unfold recordKey
  split
  case isTrue free => simp [free]
  case isFalse live => simp [live]

theorem Filed.consistent {c : Compositor} (filed : Filed c.tables) (stacked : Stacked c) :
    Consistent c := by
  have once : ∀ {size : Nat} {α : Type} {objId clientId : α → Nat} {table : Fin size → α}
      {keys : Fin size → Option (Nat × Nat)} {owner id : Nat},
      (∀ k, keys k = recordKey (objId (table k)) (clientId (table k))) →
      ((∃! k, keys k = some (owner, id)) ↔ HeldOnce objId clientId table owner id) := by
    intro size α objId clientId table keys owner id key
    unfold HeldOnce
    apply existsUnique_congr
    intro k
    rw [key k, recordKey_eq_some]
  constructor
  · intro i id active
    exact ((filed.lists .surface i active).existsUnique (filed.distinct .surface) id).trans
      (once fun k => rfl)
  · intro i id active
    exact ((filed.lists .buffer i active).existsUnique (filed.distinct .buffer) id).trans
      (once fun k => rfl)
  · intro i id active
    exact ((filed.lists .pool i active).existsUnique (filed.distinct .pool) id).trans
      (once fun k => rfl)
  · intro i id active
    exact ((filed.lists .region i active).existsUnique (filed.distinct .region) id).trans
      (once fun k => rfl)
  · exact stacked.once
  · exact stacked.live

variable {map : Objmap} {id : Nat} {iface : Interface}

theorem inserted_unmapped {after : Objmap}
    (inserted : cpObjmapInsert map id iface = some after) : cpObjmapIface map id = none := by
  unfold cpObjmapInsert at inserted
  split at inserted
  case isTrue unmapped => simp [cpObjmapIface, unmapped]
  case isFalse => cases inserted

theorem Objmap.Admits.inserted (admits : map.Admits id)
    (iface : Interface) : ∃ after, cpObjmapInsert map id iface = some after := by
  obtain ⟨unmapped, slot, empty⟩ := admits
  have unused : map.slotOf id = none := by
    cases found : map.slotOf id with
    | none => rfl
    | some used =>
      have named : (map.slot used).map Prod.fst = some id := firstSlot_wanted found
      have free : map.slot used = none := by simpa [cpObjmapIface, found] using unmapped
      rw [free] at named
      cases named
  have room : ∃ free, (firstSlot map.slot fun entry => entry = none) = some free :=
    firstSlot_of_wanted empty
  obtain ⟨free, found⟩ := room
  exact ⟨_, by rw [cpObjmapInsert, dif_pos unused, found]; rfl⟩

theorem Filed.ids_ne (filed : Filed t) {left right : Fin cpMaxClients}
    (activeLeft : t.active left = true) (activeRight : t.active right = true)
    (distinct : left ≠ right) : t.ids left ≠ t.ids right := by
  intro same
  rw [filed.ids left activeLeft, filed.ids right activeRight] at same
  exact distinct (Fin.ext (by omega))

theorem Lists.of_other_map {Slot : Type} {keys : Slot → Option (Nat × Nat)} {owner : Nat}
    {maps : Fin cpMaxClients → Objmap} {j : Fin cpMaxClients}
    (other : j ≠ i) (lists : Lists keys owner fun id => cpObjmapIface (maps j) id = some iface) :
    Lists keys owner fun id => cpObjmapIface (update maps i map j) id = some iface := by
  rw [update_of_ne other]
  exact lists

theorem Filed.same (filed : Filed t) (keys : next.keys = t.keys) (maps : next.maps = t.maps)
    (ids : next.ids = t.ids) (active : next.active = t.active) : Filed next := by
  constructor
  · rw [ids, active]
    exact filed.ids
  · rw [keys]
    exact filed.distinct
  · rw [keys, maps, ids, active]
    exact filed.lists

theorem Filed.create (filed : Filed t) (active : t.active i = true) (free : t.keys sort k = none)
    (inserted : cpObjmapInsert (t.maps i) id sort.iface = some map)
    (keys : next.keys = update t.keys sort (update (t.keys sort) k (some (t.ids i, id))))
    (maps : next.maps = update t.maps i map) (ids : next.ids = t.ids)
    (stillActive : next.active = t.active) : Filed next := by
  have unmapped := inserted_unmapped inserted
  have absent : ∀ other, t.keys sort other ≠ some (t.ids i, id) := by
    intro other holds
    have mapped : cpObjmapIface (t.maps i) id = some sort.iface :=
      (filed.lists sort i active id).mpr ⟨other, holds⟩
    rw [unmapped] at mapped
    cases mapped
  constructor
  · rw [ids, stillActive]
    exact filed.ids
  · intro s
    rw [keys]
    by_cases here : s = sort
    · subst here
      rw [update_self]
      exact (filed.distinct s).create absent
    · rw [update_of_ne here]
      exact filed.distinct s
  · intro s j activeOther
    rw [stillActive] at activeOther
    rw [keys, maps, ids]
    by_cases here : s = sort
    · subst here
      rw [update_self]
      by_cases mine : j = i
      · subst mine
        rw [update_self]
        apply (filed.lists s j active).create free
        intro other
        rw [cpObjmapIface_insert inserted]
        split
        case isTrue same => simp [same]
        case isFalse apart => simp [apart]
      · apply Lists.of_other_map mine
        exact (filed.lists s j activeOther).create_other free
          (filed.ids_ne active activeOther (Ne.symm mine))
    · rw [update_of_ne here]
      by_cases mine : j = i
      · subst mine
        rw [update_self]
        apply (filed.lists s j active).congr
        intro other
        rw [cpObjmapIface_insert inserted]
        split
        case isTrue same =>
          subst same
          rw [unmapped]
          simp only [Option.some.injEq, reduceCtorEq, iff_false]
          exact fun same => here (ObjectSort.iface_inj same.symm)
        case isFalse => rfl
      · exact Lists.of_other_map mine (filed.lists s j activeOther)

theorem Filed.mapPlain (filed : Filed t) (inserted : cpObjmapInsert (t.maps i) id iface = some map)
    (plain : ∀ sort : ObjectSort, sort.iface ≠ iface) :
    Filed { t with maps := update t.maps i map } := by
  refine ⟨filed.ids, filed.distinct, ?_⟩
  intro s j active
  by_cases mine : j = i
  · subst mine
    simp only [update_self]
    apply (filed.lists s j active).congr
    intro other
    rw [cpObjmapIface_insert inserted]
    split
    case isTrue same =>
      subst same
      rw [inserted_unmapped inserted]
      simp only [Option.some.injEq, reduceCtorEq, iff_false]
      exact fun same => plain s same.symm
    case isFalse => rfl
  · exact Lists.of_other_map mine (filed.lists s j active)

theorem Filed.destroy (filed : Filed t) (active : t.active i = true)
    (held : t.keys sort k = some (t.ids i, id))
    (keys : next.keys = update t.keys sort (update (t.keys sort) k none))
    (maps : next.maps = update t.maps i (cpObjmapRemove (t.maps i) id))
    (ids : next.ids = t.ids) (stillActive : next.active = t.active) : Filed next := by
  have mapped : cpObjmapIface (t.maps i) id = some sort.iface :=
    (filed.lists sort i active id).mpr ⟨k, held⟩
  have cleared : ∀ slot key, update (t.keys sort) k none slot = some key ↔
      t.keys sort slot = some key ∧ ¬ slot = k := by
    intro slot key
    by_cases here : slot = k
    · subst here
      simp
    · simp [here]
  constructor
  · rw [ids, stillActive]
    exact filed.ids
  · intro s
    rw [keys]
    by_cases here : s = sort
    · subst here
      rw [update_self]
      exact (filed.distinct s).clear fun slot key holds => ((cleared slot key).mp holds).1
    · rw [update_of_ne here]
      exact filed.distinct s
  · intro s j activeOther
    rw [stillActive] at activeOther
    rw [keys, maps, ids]
    by_cases here : s = sort
    · subst here
      rw [update_self]
      by_cases mine : j = i
      · subst mine
        rw [update_self]
        refine (filed.lists s j active).clear (· = k) (· = id) cleared ?_ ?_
        · intro slot other holds
          constructor
          · rintro rfl
            rw [held] at holds
            cases holds
            rfl
          · rintro rfl
            exact filed.distinct s slot k _ holds held
        · intro other
          rw [cpObjmapIface_remove]
          split
          case isTrue same => simp [same]
          case isFalse apart => simp [apart]
      · apply Lists.of_other_map mine
        refine (filed.lists s j activeOther).clear (· = k) (fun _ => False) cleared ?_ ?_
        · intro slot other holds
          simp only [iff_false]
          rintro rfl
          rw [held] at holds
          exact filed.ids_ne active activeOther (Ne.symm mine)
            (congrArg Prod.fst (Option.some.inj holds))
        · simp
    · rw [update_of_ne here]
      by_cases mine : j = i
      · subst mine
        rw [update_self]
        apply (filed.lists s j active).congr
        intro other
        rw [cpObjmapIface_remove]
        split
        case isTrue same =>
          subst same
          rw [mapped]
          simp only [Option.some.injEq, reduceCtorEq, false_iff]
          exact fun same => here (ObjectSort.iface_inj same.symm)
        case isFalse => rfl
      · exact Lists.of_other_map mine (filed.lists s j activeOther)

theorem keys_setSurface (t : Tables) (k : Fin cpMaxSurfaces) (s : SurfaceState) :
    { t with surfaces := update t.surfaces k s }.keys =
      update t.keys .surface (update (t.keys .surface) k s.key) := by
  funext sort
  cases sort with
  | surface =>
    rw [update_self]
    exact comp_update SurfaceState.key t.surfaces k s
  | pool => rfl
  | buffer => rfl
  | region => rfl

theorem keys_setPool (t : Tables) (k : Fin cpMaxPools) (p : PoolState) :
    { t with pools := update t.pools k p }.keys =
      update t.keys .pool (update (t.keys .pool) k p.key) := by
  funext sort
  cases sort with
  | surface => rfl
  | pool =>
    rw [update_self]
    exact comp_update PoolState.key t.pools k p
  | buffer => rfl
  | region => rfl

theorem keys_setBuffer (t : Tables) (k : Fin cpMaxSurfaces) (b : BufferState) :
    { t with buffers := update t.buffers k b }.keys =
      update t.keys .buffer (update (t.keys .buffer) k b.key) := by
  funext sort
  cases sort with
  | surface => rfl
  | pool => rfl
  | buffer =>
    rw [update_self]
    exact comp_update BufferState.key t.buffers k b
  | region => rfl

theorem keys_setRegion (t : Tables) (k : Fin cpMaxSurfaces) (rg : RegionState) :
    { t with regions := update t.regions k rg }.keys =
      update t.keys .region (update (t.keys .region) k rg.key) := by
  funext sort
  cases sort with
  | surface => rfl
  | pool => rfl
  | buffer => rfl
  | region =>
    rw [update_self]
    exact comp_update RegionState.key t.regions k rg

theorem update_keys_self {keys : (sort : ObjectSort) → Fin sort.size → Option (Nat × Nat)}
    {key : Option (Nat × Nat)} (same : key = keys sort k) :
    update keys sort (update (keys sort) k key) = keys := by
  rw [same, update_eq_self, update_eq_self]

variable {c : Compositor} {req : Request}

theorem plain_sort (surface : iface ≠ .surface) (pool : iface ≠ .shmPool)
    (buffer : iface ≠ .buffer) (region : iface ≠ .region) (sort : ObjectSort) :
    sort.iface ≠ iface := by
  cases sort with
  | surface => exact surface.symm
  | pool => exact pool.symm
  | buffer => exact buffer.symm
  | region => exact region.symm

theorem Filed.display (filed : Filed c.tables) :
    Filed (cpHandleDisplay c i req.opcode req.args).1.tables := by
  unfold cpHandleDisplay
  split
  case h_1 =>
    rw [addCallback_tables]
    exact filed
  case h_2 =>
    dsimp only
    split
    case h_1 => exact filed
    case h_2 map inserted =>
      rw [setMap_tables]
      exact filed.mapPlain inserted (plain_sort (by decide) (by decide) (by decide) (by decide))
  case h_3 => exact filed

theorem boundInterface_sort {name : Nat} (bound : boundInterface name = some iface)
    (sort : ObjectSort) : sort.iface ≠ iface := by
  unfold boundInterface at bound
  split at bound
  case h_5 => cases bound
  all_goals
    cases bound
    cases sort <;> decide

theorem Filed.registry (filed : Filed c.tables) :
    Filed (cpHandleRegistry c i req.opcode req.args).1.tables := by
  unfold cpHandleRegistry
  split
  case isFalse => exact filed
  case isTrue =>
    dsimp only
    split
    case h_1 => exact filed
    case h_2 iface bound =>
      split
      case h_1 => exact filed
      case h_2 map inserted =>
        have after := filed.mapPlain inserted (boundInterface_sort bound)
        split
        · rw [claimLayout_tables, setMap_tables]
          exact after
        · rw [setMap_tables]
          exact after

theorem Filed.addDevice (filed : Filed c.tables) (id : Nat)
    (plain : ∀ sort : ObjectSort, sort.iface ≠ iface) : Filed (addDevice c i id iface).tables := by
  unfold Copland.addDevice
  rw [setMap_tables]
  cases inserted : cpObjmapInsert (c.clients i).map id iface with
  | none =>
    have same : update c.tables.maps i ((none : Option Objmap).getD (c.clients i).map) =
        c.tables.maps := update_eq_self i c.tables.maps
    rw [same]
    exact filed
  | some map => exact filed.mapPlain inserted plain

theorem Filed.seat (filed : Filed c.tables) :
    Filed (cpHandleSeat c i req.opcode req.args).1.tables := by
  unfold cpHandleSeat
  split
  · exact filed.addDevice _ (plain_sort (by decide) (by decide) (by decide) (by decide))
  · exact filed.addDevice _ (plain_sort (by decide) (by decide) (by decide) (by decide))
  · exact filed
  · exact filed

theorem recordKey_live {objId : Nat} (live : objId ≠ 0) (clientId : Nat) :
    recordKey objId clientId = some (clientId, objId) := if_neg live

theorem Filed.createSurface (filed : Filed c.tables) (active : (c.clients i).active = true)
    {k : Fin cpMaxSurfaces} (free : (c.surfaces k).objId = 0)
    (inserted : cpObjmapInsert (c.clients i).map id .surface = some map) (nonzero : id ≠ 0)
    {s : SurfaceState} (objId : s.objId = id) (clientId : s.clientId = (c.clients i).clientId) :
    Filed ((c.setMap i map).setSurface k s).tables := by
  have unused : c.tables.keys .surface k = none := recordKey_eq_none.mpr free
  have key : s.key = some (c.tables.ids i, id) := by
    unfold SurfaceState.key
    rw [objId, clientId]
    exact recordKey_live nonzero _
  have keys := keys_setSurface c.tables k s
  rw [key] at keys
  rw [setSurface_tables, setMap_tables]
  exact filed.create active unused inserted keys rfl rfl rfl

theorem Filed.createRegion (filed : Filed c.tables) (active : (c.clients i).active = true)
    {k : Fin cpMaxSurfaces} (free : (c.regions k).objId = 0)
    (inserted : cpObjmapInsert (c.clients i).map id .region = some map) (nonzero : id ≠ 0) :
    Filed ((c.setRegion k ⟨id, (c.clients i).clientId, Box.empty, true⟩).setMap i map).tables := by
  have unused : c.tables.keys .region k = none := recordKey_eq_none.mpr free
  have keys := keys_setRegion c.tables k ⟨id, (c.clients i).clientId, Box.empty, true⟩
  have key : (⟨id, (c.clients i).clientId, Box.empty, true⟩ : RegionState).key =
      some (c.tables.ids i, id) := recordKey_live nonzero _
  rw [key] at keys
  rw [setMap_tables, setRegion_tables]
  exact filed.create active unused inserted keys rfl rfl rfl

theorem createSurface_opcode {opcode : Nat}
    (named : CompositorReq.ofOpcode opcode = some .createSurface) : opcode = 0 := by
  unfold CompositorReq.ofOpcode at named
  split at named <;> first | rfl | cases named

theorem createRegion_opcode {opcode : Nat}
    (named : CompositorReq.ofOpcode opcode = some .createRegion) : opcode = 1 := by
  unfold CompositorReq.ofOpcode at named
  split at named <;> first | rfl | cases named

section

variable (filed : Filed c.tables)

include filed

theorem Filed.compositor (active : (c.clients i).active = true)
    (target : cpObjmapIface (c.clients i).map req.obj = some .compositor)
    (nonzero : ChoosesNonzero c i req) (tidy : TidyRequest c i req) :
    Filed (cpHandleCompositor c i req.opcode req.args).1.tables := by
  have nonzero := nonzero.1 target
  have tidy := tidy.1 target
  unfold cpHandleCompositor
  split
  case h_1 named =>
    dsimp only
    split
    case h_1 => exact filed
    case h_2 k found =>
      split
      case h_1 => exact filed
      case h_2 map inserted =>
        rw [cpZlistInsertTop_tables]
        exact filed.createSurface active (firstSlot_wanted found) inserted
          (nonzero (Or.inl (createSurface_opcode named))) rfl (setMap_clientId _ _)
  case h_2 named =>
    dsimp only
    split
    case h_1 => exact filed
    case h_2 k found =>
      have free : (c.regions k).objId = 0 := firstSlot_wanted found
      obtain ⟨map, inserted⟩ := (tidy (createRegion_opcode named) ⟨k, free⟩).inserted .region
      have mapped : cpObjmapInsert ((c.setRegion k ⟨req.args.getU32.1, (c.clients i).clientId,
          Box.empty, true⟩).clients i).map req.args.getU32.1 .region = some map := inserted
      rw [mapped]
      exact filed.createRegion active free inserted
        (nonzero (Or.inr (createRegion_opcode named)))
  case h_3 => exact filed
  case h_4 => exact filed

theorem Filed.shm (active : (c.clients i).active = true)
    (target : cpObjmapIface (c.clients i).map req.obj = some .shm)
    (nonzero : ChoosesNonzero c i req) :
    Filed (cpHandleShm c i req.opcode req.args).1.tables := by
  have nonzero := nonzero.2.1 target
  unfold cpHandleShm
  split
  case isFalse => exact filed
  case isTrue opcode =>
    dsimp only
    split
    case h_1 => exact filed
    case h_2 k found =>
      split
      case h_1 => exact filed
      case h_2 map inserted =>
        have free : (c.pools k).objId = 0 := firstSlot_wanted found
        have unused : c.tables.keys .pool k = none := recordKey_eq_none.mpr free
        have keys := keys_setPool c.tables k ⟨req.args.getU32.1, (c.clients i).clientId,
          req.args.getU32.2.getU32.1, req.args.getU32.2.getU32.2.getU32.1⟩
        have key : (⟨req.args.getU32.1, (c.clients i).clientId, req.args.getU32.2.getU32.1,
            req.args.getU32.2.getU32.2.getU32.1⟩ : PoolState).key =
            some (c.tables.ids i, req.args.getU32.1) := recordKey_live (nonzero opcode) _
        rw [key] at keys
        rw [setPool_tables, setMap_tables]
        exact filed.create active unused inserted keys rfl rfl rfl

theorem Filed.releaseBuffer (active : (c.clients i).active = true)
    {k : Fin cpMaxSurfaces} (live : (c.buffers k).objId ≠ 0)
    (owner : (c.buffers k).clientId = (c.clients i).clientId) :
    Filed ((c.unmap i (c.buffers k).objId).setBuffer k { c.buffers k with objId := 0 }).tables := by
  have held : c.tables.keys .buffer k = some (c.tables.ids i, (c.buffers k).objId) :=
    recordKey_eq_some.mpr ⟨live, rfl, owner⟩
  rw [setBuffer_tables, unmap_tables]
  exact filed.destroy active held (keys_setBuffer c.tables k _) rfl rfl rfl

theorem Filed.releaseBuffers {obj : Nat}
    (active : (c.clients i).active = true) (slots : List (Fin cpMaxSurfaces))
    (own : ∀ k, (c.buffers k).InPool obj → (c.buffers k).clientId = (c.clients i).clientId) :
    Filed (releaseBuffers c i obj slots).tables := by
  induction slots generalizing c with
  | nil => exact filed
  | cons k rest ih =>
    unfold Copland.releaseBuffers
    split
    case isFalse => exact ih filed active own
    case isTrue inPool =>
      have sameId : ∀ id, ((c.unmap i id).clients i).clientId = (c.clients i).clientId :=
        fun id => setMap_clientId _ _
      apply ih (filed.releaseBuffer active inPool.1 (own k inPool))
      · have same := congrFun (congrArg Tables.active (@unmap_tables c i (c.buffers k).objId)) i
        exact same.trans active
      · intro slot stillInPool
        refine Eq.trans ?_ (sameId (c.buffers k).objId).symm
        have after : ((c.unmap i (c.buffers k).objId).setBuffer k
            { c.buffers k with objId := 0 }).buffers =
            update c.buffers k { c.buffers k with objId := 0 } := rfl
        rw [after] at stillInPool ⊢
        have apart : slot ≠ k := by
          rintro rfl
          rw [update_self] at stillInPool
          exact stillInPool.1 rfl
        rw [update_of_ne apart] at stillInPool ⊢
        exact own slot stillInPool

theorem Filed.own_of_inScope (active : (c.clients i).active = true)
    {owner : Nat} (scope : InScope (c.clients i).clientId owner) :
    owner = (c.clients i).clientId := by
  rcases scope with zero | owned
  · have positive : (c.clients i).clientId = i + 1 := filed.ids i active
    omega
  · exact owned

end

theorem createBuffer_opcode {opcode : Nat}
    (named : PoolReq.ofOpcode opcode = some .createBuffer) : opcode = 0 := by
  unfold PoolReq.ofOpcode at named
  split at named <;> first | rfl | cases named

theorem Filed.pool (filed : Filed c.tables) (active : (c.clients i).active = true)
    (target : cpObjmapIface (c.clients i).map req.obj = some .shmPool)
    (nonzero : ChoosesNonzero c i req) (tidy : TidyRequest c i req) :
    Filed (cpHandlePool c i req.obj req.opcode req.args).1.tables := by
  have nonzero := nonzero.2.2 target
  have tidy := tidy.2.1 target
  unfold cpHandlePool
  split
  case h_1 => exact filed
  case h_2 p found =>
    obtain ⟨named, live, scope⟩ := firstSlot_wanted found
    have owner := filed.own_of_inScope active scope
    split
    case h_1 opcode =>
      dsimp only
      split
      case isTrue => exact filed
      case isFalse =>
        split
        case h_1 => exact filed
        case h_2 k slotFound =>
          split
          case h_1 => exact filed
          case h_2 map inserted =>
            have free : (c.buffers k).objId = 0 := firstSlot_wanted slotFound
            have unused : c.tables.keys .buffer k = none := recordKey_eq_none.mpr free
            have keys := keys_setBuffer c.tables k
              (req.args.getBufferArgs.record (c.clients i).clientId req.obj)
            have key : (req.args.getBufferArgs.record (c.clients i).clientId req.obj).key =
                some (c.tables.ids i, req.args.getBufferArgs.id) :=
              recordKey_live (nonzero (createBuffer_opcode opcode)) _
            rw [key] at keys
            rw [setBuffer_tables, setMap_tables]
            exact filed.create active unused inserted keys rfl rfl rfl
    case h_2 =>
      rw [setPool_tables]
      refine filed.same ?_ rfl rfl rfl
      rw [show c.pools = c.tables.pools from rfl, keys_setPool]
      exact update_keys_self rfl
    case h_3 opcode =>
      have released := filed.releaseBuffers active (List.finRange cpMaxSurfaces) (tidy opcode)
      have after := @releaseBuffers_tables c i req.obj _ (nodup_finRange cpMaxSurfaces)
      dsimp only
      generalize Copland.releaseBuffers c i req.obj (List.finRange cpMaxSurfaces) = d
        at released after ⊢
      have pools : d.pools = c.pools := congrArg Tables.pools after
      have ids : (d.clients i).clientId = (c.clients i).clientId :=
        congrFun (congrArg Tables.ids after) i
      have stillActive : (d.clients i).active = true :=
        (congrFun (congrArg Tables.active after) i).trans active
      have held : d.tables.keys .pool p = some (d.tables.ids i, req.obj) := by
        apply recordKey_eq_some.mpr
        rw [show d.tables.pools = c.pools from pools]
        exact ⟨live, named, owner.trans ids.symm⟩
      rw [setPool_tables, unmap_tables]
      exact released.destroy stillActive held (keys_setPool d.tables p _) rfl rfl rfl
    case h_4 => exact filed

theorem Filed.buffer (filed : Filed c.tables) (active : (c.clients i).active = true) :
    Filed (cpHandleBuffer c i req.obj req.opcode).1.tables := by
  unfold cpHandleBuffer
  split
  case h_1 => exact filed
  case h_2 k found =>
    obtain ⟨named, live, scope⟩ := firstSlot_wanted found
    have owner := filed.own_of_inScope active scope
    split
    case isFalse => exact filed
    case isTrue =>
      have detached : Filed (detachBuffer c req.obj).tables := by
        refine filed.same ?_ rfl rfl rfl
        funext sort
        cases sort with
        | surface =>
          funext slot
          obtain ⟨objId, clientId⟩ := detachBuffer_same c req.obj slot
          exact congrArg₂ recordKey objId clientId
        | pool => rfl
        | buffer => rfl
        | region => rfl
      have after := detached.releaseBuffer (c := detachBuffer c req.obj) active live owner
      have id : ((detachBuffer c req.obj).buffers k).objId = req.obj := named
      rw [id] at after
      exact after

theorem served_key (s : SurfaceState) (kept : SurfaceReq.ofOpcode req.opcode ≠ some .destroy) :
    (s.served c i req).key = s.key := by
  unfold SurfaceState.served
  dsimp only
  split
  case h_1 destroyed => exact absurd destroyed kept
  case h_2 => rfl
  case h_3 =>
    have keeps := damaged_kept s req.args.getBox
    exact congrArg₂ recordKey keeps.objId keeps.clientId
  case h_4 =>
    have keeps := @withInputRegion_kept c s req.args.getU32.1
    exact congrArg₂ recordKey keeps.objId keeps.clientId
  case h_5 =>
    obtain ⟨objId, clientId⟩ := committed_same c (c.clients i).clientId req.obj s
    exact congrArg₂ recordKey objId clientId
  case h_6 => split <;> rfl
  case h_7 => rfl

theorem cpHandleSurface_tables {k : Fin cpMaxSurfaces}
    (found : cpFindSurface c (c.clients i).clientId req.obj = some k)
    (kept : SurfaceReq.ofOpcode req.opcode ≠ some .destroy) :
    (cpHandleSurface c i req.obj req.opcode req.args).1.tables =
      { c.tables with
        surfaces := update c.surfaces k ((c.surfaces k).served c i req) } := by
  have same : { c.tables with surfaces := update c.surfaces k (c.surfaces k) } =
      c.tables := by
    rw [update_eq_self]
    rfl
  simp only [cpHandleSurface, found, SurfaceState.served]
  cases named : SurfaceReq.ofOpcode req.opcode with
  | none => exact same.symm
  | some sort =>
    cases sort with
    | destroy => exact absurd named kept
    | attach => rfl
    | damage => rfl
    | frame => exact (addCallback_tables _ _).trans same.symm
    | setOpaqueRegion => exact same.symm
    | setInputRegion => rfl
    | commit => exact foldl_cpFrameAccum_tables _
    | setPosition =>
      dsimp only
      split
      · exact same.symm
      · rfl

theorem Filed.surface (filed : Filed c.tables) (wired : Wired c.tables)
    (active : (c.clients i).active = true)
    (target : req.opcode = cpSurfaceSetPosition ∨
      cpObjmapIface (c.clients i).map req.obj = some .surface) :
    Filed (cpHandleSurface c i req.obj req.opcode req.args).1.tables := by
  cases found : cpFindSurface c (c.clients i).clientId req.obj with
  | none =>
    simp only [cpHandleSurface, found]
    exact filed
  | some k =>
    by_cases destroyed : SurfaceReq.ofOpcode req.opcode = some .destroy
    · have mapped : cpObjmapIface (c.clients i).map req.obj = some .surface := by
        rcases target with opcode | mapped
        · rw [opcode] at destroyed
          cases destroyed
        · exact mapped
      obtain ⟨named, nonzero, owner⟩ := wired.found_own active mapped found
      have held : c.tables.keys .surface k = some (c.tables.ids i, req.obj) :=
        recordKey_eq_some.mpr ⟨named ▸ nonzero, named, owner⟩
      have surfaces : ((cpFrameAccum (cpZlistRemove c k) (c.surfaces k).box).unmap i
          req.obj).surfaces = c.surfaces :=
        congrArg Tables.surfaces (cpFrameAccum_tables (c.surfaces k).box)
      simp only [cpHandleSurface, found, destroyed]
      rw [setSurface_tables, unmap_tables, cpFrameAccum_tables, cpZlistRemove_tables, surfaces]
      exact filed.destroy active held (keys_setSurface c.tables k _) rfl rfl rfl
    · rw [cpHandleSurface_tables found destroyed]
      refine filed.same ?_ rfl rfl rfl
      rw [show c.surfaces = c.tables.surfaces from rfl, keys_setSurface]
      exact update_keys_self (served_key _ destroyed)

theorem Filed.region (filed : Filed c.tables) (active : (c.clients i).active = true)
    (target : cpObjmapIface (c.clients i).map req.obj = some .region)
    (tidy : TidyRequest c i req) :
    Filed (cpHandleRegion c i req.obj req.opcode req.args).1.tables := by
  have tidy := tidy.2.2 target
  have kept : ∀ {k : Fin cpMaxSurfaces} {next : RegionState}, next.key = (c.regions k).key →
      Filed (c.setRegion k next).tables := by
    intro k next same
    rw [setRegion_tables]
    refine filed.same ?_ rfl rfl rfl
    rw [show c.regions = c.tables.regions from rfl, keys_setRegion]
    exact update_keys_self same
  unfold cpHandleRegion
  split
  case h_1 => exact filed
  case h_2 k found =>
    dsimp only
    split
    case h_1 =>
      apply kept
      unfold RegionState.add
      split <;> rfl
    case h_2 =>
      apply kept
      unfold RegionState.subtract
      split <;> rfl
    case h_3 opcode =>
      obtain ⟨named, live⟩ := firstSlot_wanted found
      have held : c.tables.keys .region k = some (c.tables.ids i, req.obj) :=
        recordKey_eq_some.mpr ⟨live, named, tidy opcode k found⟩
      rw [setRegion_tables, unmap_tables]
      exact filed.destroy active held (keys_setRegion c.tables k _) rfl rfl rfl
    case h_4 => exact filed

theorem Filed.request (filed : Filed c.tables) (wired : Wired c.tables)
    (active : (c.clients i).active = true) (nonzero : ChoosesNonzero c i req)
    (tidy : TidyRequest c i req) : Filed (dispatchRequest c i req).1.tables := by
  unfold dispatchRequest
  dsimp only
  split
  case isTrue opcode => exact filed.surface wired active (Or.inl opcode)
  case isFalse =>
    split
    case h_1 => exact filed.display
    case h_2 => exact filed.registry
    case h_3 target => exact filed.compositor active target nonzero tidy
    case h_4 target => exact filed.shm active target nonzero
    case h_5 target => exact filed.pool active target nonzero tidy
    case h_6 => exact filed.buffer active
    case h_7 target => exact filed.surface wired active (Or.inr target)
    case h_8 target => exact filed.region active target tidy
    case h_9 => exact filed.seat
    case h_10 =>
      have same : (c.setClient i { c.clients i with
          protocolErrors := add32 (c.clients i).protocolErrors 1 }).tables = c.tables :=
        setClient_tables rfl rfl rfl
      rw [same]
      exact filed

variable {d : Compositor}

theorem Stacked.same (stacked : Stacked c) (zlist : d.zlist = c.zlist)
    (live : ∀ k, (d.surfaces k).objId = 0 ↔ (c.surfaces k).objId = 0) : Stacked d := by
  constructor
  · rw [zlist]
    exact stacked.once
  · intro k
    rw [zlist, stacked.live k]
    exact not_congr (live k).symm

theorem cpFrameAccum_zlist (box : Box) : (cpFrameAccum c box).zlist = c.zlist := by
  unfold cpFrameAccum
  split
  · rfl
  · split <;> rfl

theorem foldl_cpFrameAccum_zlist (boxes : List Box) :
    (boxes.foldl cpFrameAccum c).zlist = c.zlist := by
  induction boxes generalizing c with
  | nil => rfl
  | cons box rest ih => rw [foldl_cons, ih, cpFrameAccum_zlist]

theorem addCallback_zlist (cb surfaceObj : Nat) :
    (addCallback c i cb surfaceObj).zlist = c.zlist := by
  unfold addCallback
  split <;> rfl

theorem claimLayout_zlist : (claimLayout c i).zlist = c.zlist := by
  unfold claimLayout
  split
  · rfl
  · split <;> rfl

theorem releaseBuffers_zlist (obj : Nat) (slots : List (Fin cpMaxSurfaces)) :
    (releaseBuffers c i obj slots).zlist = c.zlist := by
  induction slots generalizing c with
  | nil => rfl
  | cons k rest ih =>
    unfold releaseBuffers
    split
    · exact ih
    · exact ih

section

variable (stacked : Stacked c)

include stacked

theorem Stacked.insertTop {k : Fin cpMaxSurfaces} {s : SurfaceState}
    (free : (c.surfaces k).objId = 0) (live : s.objId ≠ 0) (zlist : d.zlist = c.zlist)
    (surfaces : d.surfaces = update c.surfaces k s) : Stacked (cpZlistInsertTop d k) := by
  have absent : k ∉ c.zlist := fun member => (stacked.live k).mp member free
  -- a list without repetition that misses a slot has room for it
  have room : c.zlist.length < cpMaxSurfaces := by
    have bound := List.Nodup.length_le_card (nodup_cons.mpr ⟨absent, stacked.once⟩)
    rw [Fintype.card_fin, length_cons] at bound
    omega
  have after : cpZlistInsertTop d k = { d with zlist := c.zlist ++ [k] } := by
    unfold cpZlistInsertTop
    rw [zlist, if_neg absent, if_pos room]
  rw [after]
  constructor
  · exact nodup_append.mpr ⟨stacked.once, nodup_singleton k, by
      intro held member other single
      rw [mem_singleton] at single
      subst single
      rintro rfl
      exact absent member⟩
  · intro slot
    dsimp only
    rw [surfaces, mem_append, mem_singleton, stacked.live slot]
    by_cases here : slot = k
    · subst here
      simp [live]
    · simp [here]

theorem Stacked.remove {k : Fin cpMaxSurfaces} (zlist : d.zlist = c.zlist.erase k)
    (surfaces : d.surfaces = update c.surfaces k { c.surfaces k with objId := 0 }) :
    Stacked d := by
  constructor
  · rw [zlist]
    exact stacked.once.erase k
  · intro slot
    rw [zlist, surfaces, stacked.once.mem_erase_iff, stacked.live slot]
    by_cases here : slot = k
    · subst here
      simp
    · simp [here]

theorem Stacked.surface : Stacked (cpHandleSurface c i req.obj req.opcode req.args).1 := by
  cases found : cpFindSurface c (c.clients i).clientId req.obj with
  | none =>
    simp only [cpHandleSurface, found]
    exact stacked
  | some k =>
    have surfaces := cpHandleSurface_surfaces found
    by_cases destroyed : SurfaceReq.ofOpcode req.opcode = some .destroy
    · have zlist : (cpHandleSurface c i req.obj req.opcode req.args).1.zlist = c.zlist.erase k := by
        simp only [cpHandleSurface, found, destroyed]
        exact cpFrameAccum_zlist _
      have served : (c.surfaces k).served c i req = { c.surfaces k with objId := 0 } := by
        simp only [SurfaceState.served, destroyed]
      rw [served] at surfaces
      exact stacked.remove zlist surfaces
    · apply stacked.same
      · simp only [cpHandleSurface, found]
        cases named : SurfaceReq.ofOpcode req.opcode with
        | none => rfl
        | some sort =>
          cases sort with
          | destroy => exact absurd named destroyed
          | attach => rfl
          | damage => rfl
          | frame => exact addCallback_zlist _ _
          | setOpaqueRegion => rfl
          | setInputRegion => rfl
          | commit => exact foldl_cpFrameAccum_zlist _
          | setPosition =>
            dsimp only
            split <;> rfl
      · intro slot
        rw [surfaces]
        by_cases here : slot = k
        · subst here
          rw [update_self]
          have kept := @served_key i c req (c.surfaces slot) destroyed
          rw [← @recordKey_eq_none _ ((c.surfaces slot).served c i req).clientId,
            ← @recordKey_eq_none _ (c.surfaces slot).clientId]
          exact iff_of_eq (congrArg (· = none) kept)
        · rw [update_of_ne here]

theorem Stacked.compositor (target : cpObjmapIface (c.clients i).map req.obj = some .compositor)
    (nonzero : ChoosesNonzero c i req) :
    Stacked (cpHandleCompositor c i req.opcode req.args).1 := by
  have nonzero := nonzero.1 target
  unfold cpHandleCompositor
  split
  case h_1 named =>
    dsimp only
    split
    case h_1 => exact stacked
    case h_2 k found =>
      split
      case h_1 => exact stacked
      case h_2 map inserted =>
        exact stacked.insertTop (firstSlot_wanted found)
          (nonzero (Or.inl (createSurface_opcode named))) rfl rfl
  case h_2 =>
    dsimp only
    split
    · exact stacked
    · exact stacked.same rfl fun _ => Iff.rfl
  case h_3 => exact stacked
  case h_4 => exact stacked

theorem Stacked.kept (zlist : d.zlist = c.zlist)
    (surfaces : d.tables.surfaces = c.tables.surfaces) : Stacked d := by
  apply stacked.same zlist
  intro k
  rw [show d.surfaces = c.surfaces from surfaces]

theorem Stacked.display : Stacked (cpHandleDisplay c i req.opcode req.args).1 := by
  unfold cpHandleDisplay
  split
  case h_1 => exact stacked.kept (addCallback_zlist _ _) (congrArg _ (addCallback_tables _ _))
  case h_2 =>
    dsimp only
    split
    · exact stacked
    · exact stacked.kept rfl rfl
  case h_3 => exact stacked

theorem Stacked.registry : Stacked (cpHandleRegistry c i req.opcode req.args).1 := by
  unfold cpHandleRegistry
  split
  case isFalse => exact stacked
  case isTrue =>
    dsimp only
    split
    case h_1 => exact stacked
    case h_2 =>
      split
      case h_1 => exact stacked
      case h_2 map inserted =>
        have mapped : Stacked (c.setMap i map) := stacked.kept rfl rfl
        split
        · exact mapped.kept claimLayout_zlist (congrArg _ claimLayout_tables)
        · exact mapped

theorem Stacked.shm : Stacked (cpHandleShm c i req.opcode req.args).1 := by
  unfold cpHandleShm
  split
  case isFalse => exact stacked
  case isTrue =>
    dsimp only
    split
    · exact stacked
    · split
      · exact stacked
      · exact stacked.kept rfl rfl

theorem Stacked.pool : Stacked (cpHandlePool c i req.obj req.opcode req.args).1 := by
  unfold cpHandlePool
  split
  case h_1 => exact stacked
  case h_2 p found =>
    split
    case h_1 =>
      dsimp only
      split
      · exact stacked
      · split
        · exact stacked
        · split
          · exact stacked
          · exact stacked.kept rfl rfl
    case h_2 => exact stacked.kept rfl rfl
    case h_3 =>
      have after := @releaseBuffers_tables c i req.obj _ (nodup_finRange cpMaxSurfaces)
      have surfaces : (releaseBuffers c i req.obj (List.finRange cpMaxSurfaces)).surfaces =
          c.surfaces := congrArg Tables.surfaces after
      exact stacked.kept (releaseBuffers_zlist _ _) surfaces
    case h_4 => exact stacked

theorem Stacked.buffer : Stacked (cpHandleBuffer c i req.obj req.opcode).1 := by
  unfold cpHandleBuffer
  split
  case h_1 => exact stacked
  case h_2 k found =>
    split
    case isFalse => exact stacked
    case isTrue =>
      have detached : Stacked (detachBuffer c req.obj) := stacked.same rfl fun slot =>
        iff_of_eq (congrArg (· = 0) (detachBuffer_same c req.obj slot).1)
      exact detached.kept rfl rfl

theorem Stacked.region : Stacked (cpHandleRegion c i req.obj req.opcode req.args).1 := by
  unfold cpHandleRegion
  split
  case h_1 => exact stacked
  case h_2 k found =>
    dsimp only
    split
    case h_4 => exact stacked
    all_goals exact stacked.kept rfl rfl

theorem Stacked.seat : Stacked (cpHandleSeat c i req.opcode req.args).1 := by
  unfold cpHandleSeat
  split
  · exact stacked.kept rfl rfl
  · exact stacked.kept rfl rfl
  · exact stacked
  · exact stacked

theorem Stacked.request (nonzero : ChoosesNonzero c i req) :
    Stacked (dispatchRequest c i req).1 := by
  unfold dispatchRequest
  dsimp only
  split
  case isTrue opcode => exact stacked.surface
  case isFalse =>
    split
    case h_1 => exact stacked.display
    case h_2 => exact stacked.registry
    case h_3 target => exact stacked.compositor target nonzero
    case h_4 => exact stacked.shm
    case h_5 => exact stacked.pool
    case h_6 => exact stacked.buffer
    case h_7 => exact stacked.surface
    case h_8 => exact stacked.region
    case h_9 => exact stacked.seat
    case h_10 => exact stacked.kept rfl rfl

end

theorem Filed.attach (filed : Filed c.tables) {clientId : Nat} (clientPid : Nat)
    (none : NoneLeft c clientId) :
    Filed (cpCompositorAttachClient c clientId clientPid).1.tables := by
  rcases attach_tables c clientId clientPid with same | ⟨i, counted, attached⟩
  · rw [same]
    exact filed
  rw [attached]
  have absent : ∀ sort k id, c.tables.keys sort k ≠ some (clientId, id) := by
    intro sort k id holds
    cases sort with
    | surface =>
      obtain ⟨live, -, owner⟩ := recordKey_eq_some.mp holds
      exact none.surfaces k live owner
    | pool =>
      obtain ⟨live, -, owner⟩ := recordKey_eq_some.mp holds
      exact none.pools k live owner
    | buffer =>
      obtain ⟨live, -, owner⟩ := recordKey_eq_some.mp holds
      exact none.buffers k live owner
    | region =>
      obtain ⟨live, -, owner⟩ := recordKey_eq_some.mp holds
      exact none.regions k live owner
  constructor
  · intro j active
    by_cases here : j = i
    · subst here
      simp [counted]
    · simp only [update_of_ne here] at active ⊢
      exact filed.ids j active
  · exact filed.distinct
  · intro sort j active
    by_cases here : j = i
    · subst here
      simp only [update_self]
      intro id
      constructor
      · intro mapped
        have display := freshMap_mapped mapped
        cases sort <;> cases display
      · rintro ⟨k, holds⟩
        exact absurd holds (absent sort k id)
    · simp only [update_of_ne here] at active ⊢
      exact filed.lists sort j active

theorem clearedKey_eq_some {objId clientId owner : Nat} {key : Nat × Nat} :
    (if clientId = owner then recordKey 0 clientId else recordKey objId clientId) = some key ↔
      recordKey objId clientId = some key ∧ key.1 ≠ owner := by
  simp only [recordKey_eq_some]
  split
  case isTrue mine =>
    simp only [recordKey, if_true, reduceCtorEq, false_iff]
    rintro ⟨⟨-, -, owned⟩, other⟩
    exact other (owned.symm.trans mine)
  case isFalse other =>
    rw [recordKey_eq_some]
    constructor
    · rintro ⟨live, named, owned⟩
      exact ⟨⟨live, named, owned⟩, owned ▸ other⟩
    · exact And.left

theorem reapClient_keys (c : Compositor) (i : Fin cpMaxClients) (sort : ObjectSort)
    (k : Fin sort.size) (key : Nat × Nat) :
    (reapClient c i).tables.keys sort k = some key ↔
      c.tables.keys sort k = some key ∧ key.1 ≠ c.tables.ids i := by
  rw [reapClient_tables]
  cases sort with
  | surface =>
    exact (iff_of_eq (congrArg (· = some key) (apply_ite SurfaceState.key _ _ _))).trans
      clearedKey_eq_some
  | pool =>
    exact (iff_of_eq (congrArg (· = some key) (apply_ite PoolState.key _ _ _))).trans
      clearedKey_eq_some
  | buffer =>
    exact (iff_of_eq (congrArg (· = some key) (apply_ite BufferState.key _ _ _))).trans
      clearedKey_eq_some
  | region =>
    exact (iff_of_eq (congrArg (· = some key) (apply_ite RegionState.key _ _ _))).trans
      clearedKey_eq_some

theorem Filed.reapClient (filed : Filed c.tables) (active : (c.clients i).active = true) :
    Filed (reapClient c i).tables := by
  have keys := reapClient_keys c i
  have after := reapClient_tables c i
  have others : ∀ j, (Copland.reapClient c i).tables.active j = true → j ≠ i ∧
      c.tables.active j = true := by
    intro j still
    rw [after] at still
    have other : j ≠ i := by
      rintro rfl
      simp at still
    simp only [update_of_ne other] at still
    exact ⟨other, still⟩
  have sameId : ∀ j, j ≠ i → (Copland.reapClient c i).tables.ids j = c.tables.ids j := by
    intro j other
    rw [after]
    exact update_of_ne other _ _
  have maps : (Copland.reapClient c i).tables.maps = c.tables.maps := by rw [after]
  constructor
  · intro j still
    obtain ⟨other, before⟩ := others j still
    rw [sameId j other]
    exact filed.ids j before
  · intro sort
    exact (filed.distinct sort).clear fun slot key holds => ((keys sort slot key).mp holds).1
  · intro sort j still
    obtain ⟨other, before⟩ := others j still
    rw [sameId j other, maps]
    refine (filed.lists sort j before).clear
      (fun slot => (c.tables.keys sort slot).map Prod.fst = some (c.tables.ids i))
      (fun _ => False) ?_ ?_ ?_
    · intro slot key
      rw [keys sort slot key]
      apply and_congr_right
      intro holds
      simp [holds]
    · intro slot id holds
      simp only [holds, Option.map_some, Option.some.injEq, iff_false]
      exact filed.ids_ne before active other
    · simp

theorem Stacked.reapSurfaces (stacked : Stacked c) (clientId : Nat) (damaged : Bool)
    (slots : List (Fin cpMaxSurfaces)) : Stacked (reapSurfaces c clientId damaged slots) := by
  induction slots generalizing c damaged with
  | nil => exact stacked
  | cons k rest ih =>
    unfold Copland.reapSurfaces
    dsimp only
    split
    case isTrue => exact ih stacked damaged
    case isFalse =>
      apply ih
      split
      · exact stacked.remove rfl rfl
      · exact stacked.remove rfl rfl

theorem Stacked.reapClient (stacked : Stacked c) : Stacked (reapClient c i) :=
  (stacked.reapSurfaces (c.clients i).clientId false (List.finRange cpMaxSurfaces)).kept rfl rfl

theorem fireCallbacks_zlist (c : Compositor) (slots : List (Fin cpMaxSurfaces)) :
    (fireCallbacks c slots).1.zlist = c.zlist := by
  induction slots generalizing c with
  | nil => rfl
  | cons k rest ih =>
    unfold fireCallbacks
    dsimp only
    split
    · exact ih c
    · split
      · exact ih c
      · exact ih _

/-- What a tidy run keeps. -/
structure Orderly (c : Compositor) : Prop where
  wired : Wired c.tables
  filed : Filed c.tables
  stacked : Stacked c

theorem Orderly.step {action : CompositorAction} (orderly : Orderly c)
    (transition : CompositorStep c action d) (nonzero : NonzeroIds c action)
    (tidy : Tidy c action) : Orderly d := by
  refine ⟨orderly.wired.step transition, ?_, ?_⟩
  · cases transition with
    | @attach clientId clientPid => exact orderly.filed.attach clientPid tidy
    | setWmPid =>
      rw [setWmPid_tables]
      exact orderly.filed
    | request active => exact orderly.filed.request orderly.wired active nonzero tidy
    | frame =>
      rw [frame_tables]
      refine orderly.filed.same ?_ rfl rfl rfl
      funext sort
      cases sort <;> rfl
    | reap =>
      exact coplandReapDeadClients_induction (fun d => Filed d.tables) c _ orderly.filed
        fun d i holds active => holds.reapClient active
  · cases transition with
    | attach =>
      unfold cpCompositorAttachClient
      split
      · exact orderly.stacked
      · exact orderly.stacked.kept rfl rfl
    | setWmPid =>
      unfold cpCompositorSetWmPid
      dsimp only
      split
      · exact orderly.stacked.kept rfl rfl
      · split <;> exact orderly.stacked.kept rfl rfl
    | request active => exact orderly.stacked.request nonzero
    | frame =>
      have zlist : (cpCompositorFrame c).1.zlist = c.zlist :=
        fireCallbacks_zlist { c with frameDirty := false } (List.finRange cpMaxSurfaces)
      have surfaces : (cpCompositorFrame c).1.surfaces = fun k => (c.surfaces k).framed :=
        congrArg Tables.surfaces (frame_tables c)
      apply orderly.stacked.same zlist
      intro k
      rw [surfaces]
      rfl
    | reap =>
      exact coplandReapDeadClients_induction Stacked c _ orderly.stacked
        fun d i holds _ => holds.reapClient

theorem orderly_init (memory : Compositor) : Orderly (cpCompositorInit memory) := by
  refine ⟨wired_init memory, ⟨?_, ?_, ?_⟩, ⟨nodup_nil, ?_⟩⟩
  · intro i active
    cases active
  · intro sort left right key atLeft
    cases sort <;> cases atLeft
  · intro sort i active
    cases active
  · intro k
    simp [cpCompositorInit]

/-- A tidy call in which no client chooses a zero id. -/
def TidyStep : Compositor → CompositorAction → Compositor → Prop :=
  Guarded CompositorStep fun c action => NonzeroIds c action ∧ Tidy c action

/-- After tidy calls the maps agree with the tables and each live surface is stacked once. -/
theorem tables_consistent {memory c : Compositor} {actions : List CompositorAction}
    (run : Steps TidyStep (cpCompositorInit memory) actions c) : Consistent c := by
  have orderly : Orderly c := run.invariant Orderly
    (fun _ _ _ orderly guarded => orderly.step guarded.2 guarded.1.1 guarded.1.2)
    (orderly_init memory)
  exact orderly.filed.consistent orderly.stacked

/-- The compositor with its first client attached and `copland_compositor` bound as 3. -/
def oneClient : Compositor :=
  serve (cpCompositorAttachClient (cpCompositorInit zeroCompositor) 1 100).1
    [(0, ⟨1, 1, [2]⟩), (0, ⟨2, 0, [4, 3]⟩)]

theorem steps_oneClient : ∃ actions,
    Steps TidyStep (cpCompositorInit zeroCompositor) actions oneClient := by
  have none : NoneLeft (cpCompositorInit zeroCompositor) 1 :=
    ⟨by decide +kernel, by decide +kernel, by decide +kernel, by decide +kernel⟩
  have attach : TidyStep (cpCompositorInit zeroCompositor) (.attach 1 100)
      (cpCompositorAttachClient (cpCompositorInit zeroCompositor) 1 100).1 :=
    ⟨⟨trivial, none⟩, .attach⟩
  have registry : TidyStep (cpCompositorAttachClient (cpCompositorInit zeroCompositor) 1 100).1
      (.request 0 ⟨1, 1, [2]⟩) _ :=
    ⟨⟨by decide +kernel, by decide +kernel⟩, .request (by decide +kernel)⟩
  have bind : TidyStep (dispatchRequest
      (cpCompositorAttachClient (cpCompositorInit zeroCompositor) 1 100).1 0 ⟨1, 1, [2]⟩).1
      (.request 0 ⟨2, 0, [4, 3]⟩) oneClient :=
    ⟨⟨by decide +kernel, by decide +kernel⟩, .request (by decide +kernel)⟩
  exact ⟨_, ((Steps.refl.step attach).step registry).step bind⟩

/-- Two regions and a surface are created, and the first region is destroyed. -/
theorem tables_consistent_regions :
    Consistent (serve oneClient [(0, ⟨3, 1, [7]⟩), (0, ⟨3, 1, [8]⟩), (0, ⟨3, 0, [9]⟩),
      (0, ⟨7, 0, []⟩)]) := by
  obtain ⟨actions, run⟩ := steps_oneClient
  have first : TidyStep oneClient (.request 0 ⟨3, 1, [7]⟩) (serve oneClient [(0, ⟨3, 1, [7]⟩)]) :=
    ⟨⟨by decide +kernel, by decide +kernel⟩, .request (by decide +kernel)⟩
  have second : TidyStep (serve oneClient [(0, ⟨3, 1, [7]⟩)]) (.request 0 ⟨3, 1, [8]⟩)
      (serve oneClient [(0, ⟨3, 1, [7]⟩), (0, ⟨3, 1, [8]⟩)]) :=
    ⟨⟨by decide +kernel, by decide +kernel⟩, .request (by decide +kernel)⟩
  have surface : TidyStep (serve oneClient [(0, ⟨3, 1, [7]⟩), (0, ⟨3, 1, [8]⟩)])
    (.request 0 ⟨3, 0, [9]⟩)
      (serve oneClient [(0, ⟨3, 1, [7]⟩), (0, ⟨3, 1, [8]⟩), (0, ⟨3, 0, [9]⟩)]) :=
    ⟨⟨by decide +kernel, by decide +kernel⟩, .request (by decide +kernel)⟩
  have destroy : TidyStep (serve oneClient [(0, ⟨3, 1, [7]⟩), (0, ⟨3, 1, [8]⟩), (0, ⟨3, 0, [9]⟩)])
      (.request 0 ⟨7, 0, []⟩) _ :=
    ⟨⟨by decide +kernel, by decide +kernel⟩, .request (by decide +kernel)⟩
  exact tables_consistent ((((run.step first).step second).step surface).step destroy)

/-- `CP_COMPOSITOR_CREATE_REGION` under the compositor's id: refused, but the region keeps its
slot. -/
theorem region_without_entry : ∃ actions,
    Steps (Guarded CompositorStep NonzeroIds) (cpCompositorInit zeroCompositor) actions
      (dispatchRequest oneClient 0 ⟨3, 1, [3]⟩).1 ∧
    ¬ Consistent (dispatchRequest oneClient 0 ⟨3, 1, [3]⟩).1 := by
  obtain ⟨actions, run⟩ := steps_oneClient
  have nonzero : Steps (Guarded CompositorStep NonzeroIds) (cpCompositorInit zeroCompositor)
      actions oneClient := run.mono fun _ _ _ guarded => ⟨guarded.1.1, guarded.2⟩
  have region : Guarded CompositorStep NonzeroIds oneClient (.request 0 ⟨3, 1, [3]⟩)
      (dispatchRequest oneClient 0 ⟨3, 1, [3]⟩).1 :=
    ⟨by decide +kernel, .request (by decide +kernel)⟩
  refine ⟨_, nonzero.step region, ?_⟩
  intro consistent
  have unmapped : cpObjmapIface
      ((dispatchRequest oneClient 0 ⟨3, 1, [3]⟩).1.clients 0).map 3 ≠ some .region := by
    decide +kernel
  apply unmapped
  apply (consistent.regions 0 3 (by decide +kernel)).mpr
  refine ⟨0, by decide +kernel, ?_⟩
  decide +kernel

end M4KK1.Copland
