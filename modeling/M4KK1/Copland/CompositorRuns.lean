import M4KK1.Copland.Effects
import M4KK1.Lib.Run

/-!
# Runs of the compositor

After any run an id that a client has mapped to a surface names one of its own.
-/

namespace M4KK1.Copland

open M4KK1.Lib Function

/-- What the daemon can call. -/
inductive CompositorAction where
  | attach (clientId clientPid : Nat)
  | setWmPid (pid : Nat)
  | request (i : Fin cpMaxClients) (req : Request)
  | frame
  | reap (alive : List Nat)

/-- One call. A client without a connection has no requests. -/
inductive CompositorStep : Compositor → CompositorAction → Compositor → Prop where
  | attach {c : Compositor} {clientId clientPid : Nat} :
      CompositorStep c (.attach clientId clientPid)
        (cpCompositorAttachClient c clientId clientPid).1
  | setWmPid {c : Compositor} {pid : Nat} :
      CompositorStep c (.setWmPid pid) (cpCompositorSetWmPid c pid)
  | request {c : Compositor} {i : Fin cpMaxClients} {req : Request}
      (active : (c.clients i).active = true) :
      CompositorStep c (.request i req) (dispatchRequest c i req).1
  | frame {c : Compositor} : CompositorStep c .frame (cpCompositorFrame c).1
  | reap {c : Compositor} {alive : List Nat} :
      CompositorStep c (.reap alive) (coplandReapDeadClients c alive)

/-- A state some run leads to, whatever the memory held before `cp_compositor_init`. -/
def Reachable (c : Compositor) : Prop :=
  ∃ memory actions, Steps CompositorStep (cpCompositorInit memory) actions c

/-- What holds of the object tables in every reachable state. -/
structure Wired (t : Tables) : Prop where
  /-- A client's id is its place in the table, counted from one. -/
  ids : ∀ i, t.active i = true → t.ids i = i + 1
  /-- A client's surface ids name surfaces of its own. -/
  own : ∀ i obj, t.active i = true → obj ≠ 0 → cpObjmapIface (t.maps i) obj = some .surface →
    ∃ k, (t.surfaces k).objId = obj ∧ (t.surfaces k).clientId = t.ids i

variable {c : Compositor} {i : Fin cpMaxClients} {req : Request}

variable {t : Tables} {obj : Nat} {k : Fin cpMaxSurfaces} {map : Objmap} {id : Nat}
  {iface : Interface}

theorem Wired.mono {next : Tables} (wired : Wired t)
    (kept : ∀ i, next.active i = true → t.active i = true ∧ next.ids i = t.ids i)
    (mapped : ∀ i obj, next.active i = true → cpObjmapIface (next.maps i) obj = some .surface →
      cpObjmapIface (t.maps i) obj = some .surface)
    (surfaces : ∀ i obj k, next.active i = true →
      cpObjmapIface (next.maps i) obj = some .surface → (t.surfaces k).objId = obj →
      (t.surfaces k).clientId = t.ids i →
      ∃ k, (next.surfaces k).objId = obj ∧ (next.surfaces k).clientId = t.ids i) :
    Wired next := by
  constructor
  · intro i active
    obtain ⟨before, same⟩ := kept i active
    rw [same, wired.ids i before]
  · intro i obj active nonzero stillMapped
    obtain ⟨before, same⟩ := kept i active
    obtain ⟨k, named, owner⟩ := wired.own i obj before nonzero (mapped i obj active stillMapped)
    rw [same]
    exact surfaces i obj k active stillMapped named owner

theorem Wired.ids_ne (wired : Wired t) {left right : Fin cpMaxClients}
    (activeLeft : t.active left = true) (activeRight : t.active right = true)
    (distinct : left ≠ right) : t.ids left ≠ t.ids right := by
  intro same
  rw [wired.ids left activeLeft, wired.ids right activeRight] at same
  exact distinct (Fin.ext (by omega))

theorem Wired.found_own (wired : Wired c.tables) (active : (c.clients i).active = true)
    (target : cpObjmapIface (c.tables.maps i) obj = some .surface)
    (found : cpFindSurface c (c.tables.ids i) obj = some k) :
    (c.surfaces k).objId = obj ∧ obj ≠ 0 ∧ (c.surfaces k).clientId = c.tables.ids i := by
  have live : (c.surfaces k).objId ≠ 0 ∧ (c.surfaces k).objId = obj := by
    unfold cpFindSurface at found
    rw [Option.orElse_eq_orElse, Option.orElse_eq_or, Option.or_eq_some_iff] at found
    rcases found with first | ⟨-, second⟩
    · obtain ⟨live, named, -⟩ := firstSlot_wanted first
      exact ⟨live, named⟩
    · exact firstSlot_wanted second
  have nonzero : obj ≠ 0 := live.2 ▸ live.1
  obtain ⟨own, named, owner⟩ := wired.own i obj active nonzero target
  have inScope : ∃ first, (firstSlot c.surfaces fun s =>
      s.objId ≠ 0 ∧ s.objId = obj ∧ InScope (c.tables.ids i) s.clientId) = some first :=
    firstSlot_of_wanted ⟨fun zero => nonzero (named.symm.trans zero), named, Or.inr owner⟩
  obtain ⟨first, foundOwn⟩ := inScope
  have same : first = k := by
    unfold cpFindSurface at found
    rw [foundOwn] at found
    exact Option.some.inj found
  obtain ⟨-, -, scope⟩ := firstSlot_wanted foundOwn
  rw [same] at scope
  refine ⟨live.2, nonzero, ?_⟩
  rcases scope with zero | owned
  · have positive := wired.ids i active
    omega
  · exact owned

theorem shown_same (c : Compositor) (scope : Nat) (s : SurfaceState) :
    (shown c scope s).objId = s.objId ∧ (shown c scope s).clientId = s.clientId := by
  have size : (sized c scope s).objId = s.objId ∧ (sized c scope s).clientId = s.clientId := by
    unfold sized
    split <;> exact ⟨rfl, rfl⟩
  unfold shown
  split
  · dsimp only
    split <;> exact size
  · exact ⟨rfl, rfl⟩

variable (s : SurfaceState)

theorem placed_kept : SurfaceKept s s.placed := by
  unfold SurfaceState.placed
  split <;> exact ⟨rfl, rfl, rfl, rfl, rfl⟩

theorem takeDamage_kept : SurfaceKept s s.takeDamage := by
  unfold SurfaceState.takeDamage
  split <;> exact ⟨rfl, rfl, rfl, rfl, rfl⟩

theorem committed_same (c : Compositor) (scope obj : Nat) (s : SurfaceState) :
    (committed c scope obj s).1.objId = s.objId ∧
    (committed c scope obj s).1.clientId = s.clientId := by
  have taken : s.takeBuffer.objId = s.objId ∧ s.takeBuffer.clientId = s.clientId := by
    unfold SurfaceState.takeBuffer
    split <;> exact ⟨rfl, rfl⟩
  have kept := shown_same c scope s.takeBuffer
  have placed := placed_kept (shown c scope s.takeBuffer)
  have damage := takeDamage_kept (shown c scope s.takeBuffer).placed
  constructor
  · exact damage.objId.trans (placed.objId.trans (kept.1.trans taken.1))
  · exact damage.clientId.trans (placed.clientId.trans (kept.2.trans taken.2))

theorem Wired.relabelled (wired : Wired t) (surfaces : Fin cpMaxSurfaces → SurfaceState)
    (same : ∀ k, (surfaces k).objId = (t.surfaces k).objId ∧
      (surfaces k).clientId = (t.surfaces k).clientId) :
    Wired { t with surfaces := surfaces } := by
  apply wired.mono
  · exact fun i active => ⟨active, rfl⟩
  · exact fun i obj _ mapped => mapped
  · intro i obj k _ _ named owner
    exact ⟨k, (same k).1.trans named, (same k).2.trans owner⟩

theorem Wired.setSurface (wired : Wired t) {next : SurfaceState}
    (objId : next.objId = (t.surfaces k).objId)
    (clientId : next.clientId = (t.surfaces k).clientId) :
    Wired { t with surfaces := update t.surfaces k next } := by
  apply wired.relabelled _
  intro other
  by_cases here : other = k
  · subst here
    simp [objId, clientId]
  · simp [here]

theorem Wired.setMap (wired : Wired t) {pools : Fin cpMaxPools → PoolState}
    {buffers : Fin cpMaxSurfaces → BufferState}
    {regions : Fin cpMaxSurfaces → RegionState}
    (mapped : ∀ obj, cpObjmapIface map obj = some .surface →
      cpObjmapIface (t.maps i) obj = some .surface) :
    Wired { t with
      maps := update t.maps i map, pools := pools, buffers := buffers
      regions := regions } := by
  apply wired.mono
  · exact fun i active => ⟨active, rfl⟩
  · intro j obj _ stillMapped
    by_cases here : j = i
    · subst here
      simp only [update_self] at stillMapped
      exact mapped obj stillMapped
    · simpa only [update_of_ne here] using stillMapped
  · exact fun i obj k _ _ named owner => ⟨k, named, owner⟩

theorem removed_mapped (mapped : cpObjmapIface (cpObjmapRemove map id) obj = some iface) :
    obj ≠ id ∧ cpObjmapIface map obj = some iface := by
  rw [cpObjmapIface_remove] at mapped
  split at mapped
  · cases mapped
  · exact ⟨‹_›, mapped⟩

theorem inserted_mapped {next : Objmap} {sort : Interface}
    (inserted : cpObjmapInsert map id iface = some next)
    (mapped : cpObjmapIface next obj = some sort) :
    (obj = id ∧ sort = iface) ∨ cpObjmapIface map obj = some sort := by
  rw [cpObjmapIface_insert inserted] at mapped
  split at mapped
  · exact Or.inl ⟨‹_›, (Option.some.inj mapped).symm⟩
  · exact Or.inr mapped

theorem inserted_surface {next : Objmap} (inserted : cpObjmapInsert map id iface = some next)
    (plain : iface ≠ .surface)
    (mapped : cpObjmapIface next obj = some .surface) :
    cpObjmapIface map obj = some .surface := by
  rcases inserted_mapped inserted mapped with ⟨-, same⟩ | before
  · exact absurd same.symm plain
  · exact before

theorem region_mapped
    (mapped : cpObjmapIface ((cpObjmapInsert map id .region).getD map) obj = some .surface) :
    cpObjmapIface map obj = some .surface := by
  cases inserted : cpObjmapInsert map id .region with
  | none => rwa [inserted] at mapped
  | some next =>
    rw [inserted] at mapped
    exact inserted_surface inserted (by decide) mapped

theorem Wired.surfaceMade (wired : Wired t) (free : (t.surfaces k).objId = 0)
    (inserted : cpObjmapInsert (t.maps i) id .surface = some map) :
    Wired { t with
      maps := update t.maps i map
      surfaces := update t.surfaces k (newSurface (t.surfaces k) id (t.ids i)) } := by
  constructor
  · exact wired.ids
  · intro j obj active nonzero mapped
    have elsewhere : ∀ {j}, t.active j = true →
        cpObjmapIface (t.maps j) obj = some .surface →
        ∃ other, (update t.surfaces k (newSurface (t.surfaces k) id (t.ids i)) other).objId
          = obj ∧ (update t.surfaces k (newSurface (t.surfaces k) id (t.ids i))
            other).clientId = t.ids j := by
      intro j active before
      obtain ⟨other, named, owner⟩ := wired.own j obj active nonzero before
      have apart : other ≠ k := by
        rintro rfl
        exact nonzero (named.symm.trans free)
      exact ⟨other, by simp [apart, named], by simp [apart, owner]⟩
    by_cases here : j = i
    · subst here
      simp only [update_self] at mapped
      rcases inserted_mapped inserted mapped with ⟨rfl, -⟩ | before
      · exact ⟨k, by simp [newSurface], by simp [newSurface]⟩
      · exact elsewhere active before
    · simp only [update_of_ne here] at mapped
      exact elsewhere active mapped

theorem Wired.surfaceDestroyed (wired : Wired t) (active : t.active i = true)
    (named : (t.surfaces k).objId = obj)
    (owner : (t.surfaces k).clientId = t.ids i) :
    Wired { t with
      maps := update t.maps i (cpObjmapRemove (t.maps i) obj)
      surfaces := update t.surfaces k { t.surfaces k with objId := 0 } } := by
  apply wired.mono
  · exact fun j active => ⟨active, rfl⟩
  · intro j other _ mapped
    by_cases here : j = i
    · subst here
      simp only [update_self] at mapped
      exact (removed_mapped mapped).2
    · simpa [here] using mapped
  · intro j other slot activeOther mapped slotNamed slotOwner
    have apart : slot ≠ k := by
      rintro rfl
      by_cases here : j = i
      · subst here
        simp only [update_self] at mapped
        exact (removed_mapped mapped).1 (slotNamed.symm.trans named)
      · exact wired.ids_ne activeOther active here (slotOwner.symm.trans owner)
    exact ⟨slot, by simp [apart, slotNamed], by simp [apart, slotOwner]⟩

theorem detachBuffer_same (c : Compositor) (obj : Nat) (k : Fin cpMaxSurfaces) :
    ((detachBuffer c obj).surfaces k).objId = (c.surfaces k).objId ∧
      ((detachBuffer c obj).surfaces k).clientId = (c.surfaces k).clientId := by
  unfold detachBuffer
  dsimp only
  split <;> exact ⟨rfl, rfl⟩

/-- So does a request of an active client. -/
theorem Wired.request (wired : Wired c.tables) (active : (c.clients i).active = true) :
    Wired (dispatchRequest c i req).1.tables := by
  have effect := dispatch_effect c i req
  generalize (dispatchRequest c i req).1.tables = next at effect ⊢
  cases effect with
  | kept => exact wired
  | mapped inserted plain => exact wired.setMap fun obj => inserted_surface inserted plain
  | surfaceMade free inserted => exact wired.surfaceMade free inserted
  | regionMade free => exact wired.setMap fun obj => region_mapped
  | poolMade target opcode free inserted =>
    exact wired.setMap fun obj => inserted_surface inserted (by decide)
  | bufferMade target opcode found accepted free inserted =>
    exact wired.setMap fun obj => inserted_surface inserted (by decide)
  | poolResized target opcode found => exact ⟨wired.ids, wired.own⟩
  | poolDestroyed target opcode found =>
    exact wired.setMap fun obj mapped => unmapBuffers_mapped (removed_mapped mapped).2
  | bufferDestroyed target opcode found =>
    have detached := wired.relabelled _ (detachBuffer_same c req.obj)
    exact detached.setMap fun obj mapped => (removed_mapped mapped).2
  | surfaceDestroyed target found =>
    obtain ⟨named, -, owner⟩ := wired.found_own active target found
    exact wired.surfaceDestroyed active named owner
  | surfaceSet target found keeps => exact wired.setSurface keeps.objId keeps.clientId
  | positioned opcode layout keeps => exact wired.setSurface keeps.objId keeps.clientId
  | @surfaceCommitted k target found =>
    obtain ⟨objId, clientId⟩ := committed_same c (c.tables.ids i) req.obj (c.surfaces k)
    exact wired.setSurface objId clientId
  | regionSet target found changed => exact ⟨wired.ids, wired.own⟩
  | regionDestroyed target opcode found =>
    exact wired.setMap fun obj mapped => (removed_mapped mapped).2

theorem freshMap_mapped
    (mapped : cpObjmapIface ((cpObjmapInsert cpObjmapInit 1 .display).getD cpObjmapInit) obj =
      some iface) : iface = .display := by
  cases inserted : cpObjmapInsert cpObjmapInit 1 .display with
  | none =>
    rw [inserted] at mapped
    simp at mapped
  | some map =>
    rw [inserted] at mapped
    rcases inserted_mapped inserted mapped with ⟨-, same⟩ | before
    · exact same
    · simp at before

theorem attach_tables (c : Compositor) (clientId clientPid : Nat) :
    (cpCompositorAttachClient c clientId clientPid).1.tables = c.tables ∨
    ∃ i : Fin cpMaxClients, clientId = i + 1 ∧
      (cpCompositorAttachClient c clientId clientPid).1.tables =
        { c.tables with
          maps := update c.tables.maps i
            ((cpObjmapInsert cpObjmapInit 1 .display).getD cpObjmapInit)
          ids := update c.tables.ids i clientId
          active := update c.tables.active i true } := by
  unfold cpCompositorAttachClient
  split
  case h_1 => exact Or.inl rfl
  case h_2 i slot =>
    have counted : clientId = i + 1 := by
      unfold clientSlot at slot
      split at slot
      · split at slot
        · cases slot
        · cases slot
          dsimp only
          omega
      · cases slot
    refine Or.inr ⟨i, counted, ?_⟩
    unfold Compositor.tables Compositor.setClient
    congr 1 <;>
    · funext j
      by_cases here : j = i
      · subst here
        simp
      · simp [here]

theorem setWmPid_tables (c : Compositor) (pid : Nat) :
    (cpCompositorSetWmPid c pid).tables = c.tables := by
  unfold cpCompositorSetWmPid
  dsimp only
  split
  · rfl
  · split <;> rfl

theorem fireCallbacks_tables (c : Compositor) (slots : List (Fin cpMaxSurfaces)) :
    (fireCallbacks c slots).1.tables = c.tables := by
  induction slots generalizing c with
  | nil => rfl
  | cons k rest ih =>
    unfold fireCallbacks
    dsimp only
    split
    · exact ih c
    · split
      · exact ih c
      · exact ih _

def SurfaceState.framed : SurfaceState :=
  { s with dmg := { s.dmg with w := 0 } }

theorem framed_kept : SurfaceKept s s.framed := ⟨rfl, rfl, rfl, rfl, rfl⟩

theorem frame_tables (c : Compositor) : (cpCompositorFrame c).1.tables =
      { c.tables with surfaces := fun k => (c.surfaces k).framed } := by
  have fired := fireCallbacks_tables { c with frameDirty := false } (List.finRange cpMaxSurfaces)
  have surfaces := congrArg Tables.surfaces fired
  have rest : ∀ final : Compositor, final.tables = c.tables →
      { final with surfaces := fun k => (final.surfaces k).framed }.tables =
        { c.tables with surfaces := fun k => (c.surfaces k).framed } := by
    intro final same
    have surfaces : final.surfaces = c.surfaces := congrArg Tables.surfaces same
    rw [← same, ← surfaces]
    rfl
  exact rest _ fired

def SurfaceState.reaped (clientId : Nat) : SurfaceState :=
  if s.clientId = clientId then { s with objId := 0 } else s

def PoolState.reaped (p : PoolState) (clientId : Nat) : PoolState :=
  if p.clientId = clientId then { p with objId := 0 } else p

def BufferState.reaped (b : BufferState) (clientId : Nat) : BufferState :=
  if b.clientId = clientId then { b with objId := 0 } else b

def RegionState.reaped (rg : RegionState) (clientId : Nat) : RegionState :=
  if rg.clientId = clientId then { rg with objId := 0 } else rg

theorem SurfaceState.reaped_free {s : SurfaceState} {clientId : Nat} (free : s.objId = 0) :
    s.reaped clientId = s := by
  unfold SurfaceState.reaped
  split
  · rw [← free]
  · rfl

theorem reapSurfaces_tables {clientId : Nat} {damaged : Bool} {slots : List (Fin cpMaxSurfaces)}
    (distinct : slots.Nodup) :
    (reapSurfaces c clientId damaged slots).tables =
      { c.tables with
        surfaces := fun k =>
          if k ∈ slots then (c.surfaces k).reaped clientId else c.surfaces k } := by
  induction slots generalizing c damaged with
  | nil => rfl
  | cons k rest ih =>
    obtain ⟨fresh, distinct⟩ := List.nodup_cons.mp distinct
    unfold reapSurfaces
    dsimp only
    split
    case isTrue skipped =>
      have kept : (c.surfaces k).reaped clientId = c.surfaces k := by
        rcases skipped with free | other
        · exact SurfaceState.reaped_free free
        · exact if_neg other
      rw [ih distinct]
      dsimp only
      congr 1
      funext other
      by_cases here : other = k
      · subst here
        simp [fresh, kept]
      · simp [here]
    case isFalse owned =>
      have mine : (c.surfaces k).clientId = clientId := by
        by_contra other
        exact owned (Or.inr other)
      have same : ∀ d : Compositor, d.tables = c.tables →
          (reapSurfaces ((cpZlistRemove d k).setSurface k { c.surfaces k with objId := 0 })
            clientId true rest).tables =
          { c.tables with
            surfaces := fun slot =>
              if slot ∈ k :: rest then (c.surfaces slot).reaped clientId
                else c.surfaces slot } := by
        intro d same
        have surfaces : d.surfaces = c.surfaces := congrArg Tables.surfaces same
        rw [ih distinct, setSurface_tables, cpZlistRemove_tables, same]
        dsimp only
        congr 1
        funext other
        by_cases here : other = k
        · subst here
          simp [fresh, Compositor.setSurface, SurfaceState.reaped, mine]
        · simp [here, Compositor.setSurface, cpZlistRemove, surfaces]
      split
      · exact same _ rfl
      · exact same _ rfl

theorem reapClient_tables (c : Compositor) (i : Fin cpMaxClients) :
    (reapClient c i).tables =
      { c.tables with
        ids := update c.tables.ids i 0
        active := update c.tables.active i false
        surfaces := fun k => (c.surfaces k).reaped (c.tables.ids i)
        pools := fun k => (c.pools k).reaped (c.tables.ids i)
        buffers := fun k => (c.buffers k).reaped (c.tables.ids i)
        regions := fun k => (c.regions k).reaped (c.tables.ids i) } := by
  have reaped := @reapSurfaces_tables c (c.clients i).clientId false _
    (List.nodup_finRange cpMaxSurfaces)
  simp only [List.mem_finRange, if_true] at reaped
  unfold reapClient
  dsimp only
  generalize reapSurfaces c (c.clients i).clientId false (List.finRange cpMaxSurfaces) = d at reaped
  have maps : ∀ j, (d.clients j).map = (c.clients j).map :=
    fun j => congrFun (congrArg Tables.maps reaped) j
  have ids : ∀ j, (d.clients j).clientId = (c.clients j).clientId :=
    fun j => congrFun (congrArg Tables.ids reaped) j
  have active : ∀ j, (d.clients j).active = (c.clients j).active :=
    fun j => congrFun (congrArg Tables.active reaped) j
  have surfaces : d.surfaces = fun k => (c.surfaces k).reaped (c.clients i).clientId :=
    congrArg Tables.surfaces reaped
  have pools : d.pools = c.pools := congrArg Tables.pools reaped
  have buffers : d.buffers = c.buffers := congrArg Tables.buffers reaped
  have regions : d.regions = c.regions := congrArg Tables.regions reaped
  unfold Compositor.tables Compositor.setClient
  dsimp only
  congr 1
  · funext j
    by_cases here : j = i
    · subst here
      simp [maps]
    · simp [here, maps]
  · funext j
    by_cases here : j = i
    · subst here
      simp
    · simp [here, ids]
  · funext j
    by_cases here : j = i
    · subst here
      simp
    · simp [here, active]
  · rw [pools]
    rfl
  · rw [buffers]
    rfl
  · rw [regions]
    rfl

theorem coplandReapDeadClients_induction (Holds : Compositor → Prop) (c : Compositor)
    (alive : List Nat) (initially : Holds c)
    (torn : ∀ d i, Holds d → (d.clients i).active = true → Holds (reapClient d i)) :
    Holds (coplandReapDeadClients c alive) := by
  unfold coplandReapDeadClients
  split
  · exact initially
  generalize List.finRange cpMaxClients = slots
  induction slots generalizing c with
  | nil => exact initially
  | cons i rest ih =>
    rw [List.foldl_cons]
    apply ih
    split
    case isTrue => exact initially
    case isFalse dead =>
      apply torn c i initially
      by_contra inactive
      exact dead (Or.inl (by simpa using inactive))

theorem Wired.attach (wired : Wired c.tables) (clientId clientPid : Nat) :
    Wired (cpCompositorAttachClient c clientId clientPid).1.tables := by
  rcases attach_tables c clientId clientPid with same | ⟨i, counted, attached⟩
  · rw [same]
    exact wired
  rw [attached]
  constructor
  · intro j active
    by_cases here : j = i
    · subst here
      simp [counted]
    · simp only [update_of_ne here] at active ⊢
      exact wired.ids j active
  · intro j obj active nonzero mapped
    by_cases here : j = i
    · subst here
      simp only [update_self] at mapped
      cases freshMap_mapped mapped
    · simp only [update_of_ne here] at active mapped ⊢
      exact wired.own j obj active nonzero mapped

theorem Wired.reapClient (wired : Wired c.tables) (active : (c.clients i).active = true) :
    Wired (reapClient c i).tables := by
  rw [reapClient_tables]
  apply wired.mono
  · intro j stillActive
    have other : j ≠ i := by
      rintro rfl
      simp at stillActive
    constructor
    · simpa only [update_of_ne other] using stillActive
    · exact update_of_ne other 0 c.tables.ids
  · exact fun j obj _ mapped => mapped
  · intro j obj k stillActive _ named owner
    have other : j ≠ i := by
      rintro rfl
      simp at stillActive
    simp only [update_of_ne other] at stillActive
    have apart : (c.surfaces k).clientId ≠ c.tables.ids i := by
      intro same
      exact wired.ids_ne stillActive active other (owner.symm.trans same)
    refine ⟨k, ?_⟩
    dsimp only
    unfold SurfaceState.reaped
    rw [if_neg apart]
    exact ⟨named, owner⟩

/-- One step keeps every id mapped to a surface of the client itself. -/
theorem Wired.step {next : Compositor} {action : CompositorAction} (wired : Wired c.tables)
    (transition : CompositorStep c action next) : Wired next.tables := by
  cases transition with
  | attach => exact wired.attach _ _
  | setWmPid =>
    rw [setWmPid_tables]
    exact wired
  | request active => exact wired.request active
  | frame =>
    rw [frame_tables]
    exact wired.relabelled _ fun k => ⟨rfl, rfl⟩
  | reap =>
    exact coplandReapDeadClients_induction (fun d => Wired d.tables) c _ wired
      fun d i holds active => holds.reapClient active

theorem wired_init (memory : Compositor) : Wired (cpCompositorInit memory).tables := by
  constructor
  · intro i active
    cases active
  · intro i obj active
    cases active

theorem wired_of_reachable (reachable : Reachable c) : Wired c.tables := by
  obtain ⟨memory, actions, run⟩ := reachable
  exact run.invariant (fun c => Wired c.tables) (fun _ _ _ wired => wired.step) (wired_init memory)

theorem Reachable.step {next : Compositor} {action : CompositorAction} (reachable : Reachable c)
    (transition : CompositorStep c action next) : Reachable next := by
  obtain ⟨memory, actions, run⟩ := reachable
  exact ⟨memory, _, run.step transition⟩

theorem dispatch_active (c : Compositor) (i : Fin cpMaxClients) (req : Request)
    (j : Fin cpMaxClients) :
    ((dispatchRequest c i req).1.clients j).active = (c.clients j).active := by
  have same : (dispatchRequest c i req).1.tables.active = c.tables.active := by
    have effect := dispatch_effect c i req
    generalize (dispatchRequest c i req).1.tables = next at effect ⊢
    cases effect <;> rfl
  exact congrFun same j

def serve (c : Compositor) (requests : List (Fin cpMaxClients × Request)) : Compositor :=
  requests.foldl (fun c entry => (dispatchRequest c entry.1 entry.2).1) c

theorem reachable_serve {requests : List (Fin cpMaxClients × Request)} (reachable : Reachable c)
    (active : ∀ i ∈ requests.map Prod.fst, (c.clients i).active = true) :
    Reachable (serve c requests) := by
  induction requests generalizing c with
  | nil => exact reachable
  | cons entry rest ih =>
    apply ih (reachable.step (.request (active entry.1 (by simp))))
    intro i member
    rw [dispatch_active]
    exact active i (by simp [member])

def zeroCompositor : Compositor :=
  { clients := fun _ => ⟨false, cpObjmapInit, 0, 0, false, 0⟩
    surfaces := fun _ =>
      { objId := 0, clientId := 0, x := 0, y := 0, w := 0, h := 0, bufferObj := 0
        pendingBuffer := 0, dmg := Box.empty, pdmg := Box.empty, pendX := 0, pendY := 0
        pendPos := false, mapped := false, visible := false, input := Box.empty
        hasInputRegion := false }
    pools := fun _ => ⟨0, 0, 0, 0⟩
    buffers := fun _ => ⟨0, 0, 0, 0, 0, 0, 0⟩
    callbacks := fun _ => ⟨0, 0, 0, false⟩
    regions := fun _ => ⟨0, 0, Box.empty, false⟩
    frameDmg := Box.empty
    frameDirty := false
    zlist := []
    serial := 0
    wmClientId := 0
    wmPid := 0 }

def twoClients : Compositor :=
  (cpCompositorAttachClient
    (cpCompositorAttachClient (cpCompositorInit zeroCompositor) 1 100).1 2 200).1

theorem reachable_twoClients : Reachable twoClients := by
  have start : Reachable (cpCompositorInit zeroCompositor) := ⟨zeroCompositor, [], .refl⟩
  exact (start.step .attach).step .attach

end M4KK1.Copland
