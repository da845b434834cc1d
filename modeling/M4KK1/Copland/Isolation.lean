import M4KK1.Copland.CompositorRuns

/-!
# Isolation of clients

Three scans do not look at the owner; `request_isolated_iff` says that only they do harm.
-/

namespace M4KK1.Copland

open M4KK1.Lib Function

/-- A table in which no record in use by another client has changed. -/
def OnlyOwn {α : Type} {size : Nat} (objId clientId : α → Nat) (own : Nat)
    (table next : Fin size → α) : Prop :=
  ∀ k, objId (table k) ≠ 0 → clientId (table k) ≠ own → next k = table k

/-- No record and no map of a client other than `i` is changed. -/
structure Isolated (t next : Tables) (i : Fin cpMaxClients) : Prop where
  surfaces : OnlyOwn SurfaceState.objId SurfaceState.clientId (t.ids i) t.surfaces next.surfaces
  pools : OnlyOwn PoolState.objId PoolState.clientId (t.ids i) t.pools next.pools
  buffers : OnlyOwn BufferState.objId BufferState.clientId (t.ids i) t.buffers next.buffers
  regions : OnlyOwn RegionState.objId RegionState.clientId (t.ids i) t.regions next.regions
  maps : ∀ j, j ≠ i → next.maps j = t.maps j

/-- The box reaches as far as the added one on every side. -/
def Box.Covers (box added : Box) : Prop :=
  box.x ≤ added.x ∧ box.y ≤ added.y ∧
    int32 (added.x + added.w) ≤ int32 (box.x + box.w) ∧
    int32 (added.y + added.h) ≤ int32 (box.y + box.h)

/-- The hole takes nothing off: it spans neither side, or the edge lies where it ends. -/
def Box.Spared (box hole : Box) : Prop :=
  let cx2 := int32 (box.x + box.w)
  let cy2 := int32 (box.y + box.h)
  let hx2 := int32 (hole.x + hole.w)
  let hy2 := int32 (hole.y + hole.h)
  if hole.y ≤ box.y ∧ hy2 ≥ cy2 then
    (hole.x ≤ box.x → hx2 = box.x) ∧
      (box.x < hole.x → cx2 ≤ hx2 → int32 (hole.x - box.x) = box.w)
  else hole.x ≤ box.x → cx2 ≤ hx2 →
    (hole.y ≤ box.y → hy2 = box.y) ∧
      (box.y < hole.y → cy2 ≤ hy2 → int32 (hole.y - box.y) = box.h)

/-- The request makes something else of the region. -/
def RegionState.Changes (rg : RegionState) (opcode : Nat) (box : Box) : Prop :=
  match RegionReq.ofOpcode opcode with
  | some .destroy => True
  | some .add => rg.infinite = true ∨ ¬ rg.box.Covers box
  | some .subtract => rg.infinite = false ∧ ¬ rg.box.Spared box
  | none => False

/-- The requests of client `i` whose scans reach an object of another client. -/
def Trespasses (c : Compositor) (i : Fin cpMaxClients) (req : Request) : Prop :=
  let own := (c.clients i).clientId
  match cpObjmapIface (c.clients i).map req.obj with
  | some .shmPool =>
    PoolReq.ofOpcode req.opcode = some .destroy ∧ cpFindPool c own req.obj ≠ none ∧
      ∃ k, (c.buffers k).InPool req.obj ∧ (c.buffers k).clientId ≠ own
  | some .buffer =>
    req.opcode = 0 ∧ cpFindBuffer c own req.obj ≠ none ∧
      ∃ k, (c.surfaces k).Uses req.obj ∧ (c.surfaces k).clientId ≠ own
  | some .region =>
    ∃ k, cpFindRegion c req.obj = some k ∧ (c.regions k).clientId ≠ own ∧
      (c.regions k).Changes req.opcode req.args.getBox
  | _ => False

variable {c : Compositor} {i : Fin cpMaxClients} {req : Request}

theorem int32_add_int32 (left right : Int) : int32 (left + int32 right) = int32 (left + right) := by
  unfold int32
  exact Int.add_bmod_bmod

theorem far_edge {start far side : Int} (range : int32 far = far)
    (same : int32 (far - start) = side) : int32 (start + side) = far := by
  rw [← same, int32_add_int32]
  have cancel : start + (far - start) = far := by omega
  rw [cancel, range]

theorem int32_int32 (value : Int) : int32 (int32 value) = int32 value := by
  unfold int32
  exact Int.bmod_bmod

theorem cover_eq_iff (box added : Box) : box.cover added = box ↔ box.Covers added := by
  constructor
  · intro same
    have x := congrArg Box.x same
    have y := congrArg Box.y same
    have w := congrArg Box.w same
    have h := congrArg Box.h same
    simp only [Box.cover] at x y w h
    have left : ¬ added.x < box.x := by
      intro below
      rw [if_pos below] at x
      omega
    have top : ¬ added.y < box.y := by
      intro below
      rw [if_pos below] at y
      omega
    rw [if_neg left] at w
    rw [if_neg top] at h
    refine ⟨by omega, by omega, ?_, ?_⟩
    · by_contra beyond
      rw [if_pos (by omega)] at w
      have edge := far_edge (int32_int32 _) w
      omega
    · by_contra beyond
      rw [if_pos (by omega)] at h
      have edge := far_edge (int32_int32 _) h
      omega
  · rintro ⟨left, top, right, bottom⟩
    unfold Box.cover
    dsimp only
    rw [if_neg (by omega), if_neg (by omega), if_neg (by omega), if_neg (by omega)]

theorem cut_eq_iff (box hole : Box) : box.cut hole = box ↔ box.Spared hole := by
  unfold Box.cut Box.Spared
  dsimp only
  split
  case isTrue spans =>
    split
    case isTrue atLeft =>
      constructor
      · intro same
        exact ⟨fun _ => congrArg Box.x same, fun beyond => absurd atLeft (by omega)⟩
      · intro spared
        rw [spared.1 atLeft]
    case isFalse inside =>
      split
      case isTrue atRight =>
        constructor
        · intro same
          exact ⟨fun beyond => absurd beyond inside, fun _ _ => congrArg Box.w same⟩
        · intro spared
          rw [spared.2 (by omega) atRight]
      case isFalse within =>
        exact ⟨fun _ => ⟨fun beyond => absurd beyond inside, fun _ beyond => absurd beyond within⟩,
          fun _ => rfl⟩
  case isFalse =>
    split
    case isTrue spans =>
      split
      case isTrue atTop =>
        constructor
        · intro same _ _
          exact ⟨fun _ => congrArg Box.y same, fun beyond => absurd atTop (by omega)⟩
        · intro spared
          rw [(spared spans.1 spans.2).1 atTop]
      case isFalse inside =>
        split
        case isTrue atBottom =>
          constructor
          · intro same _ _
            exact ⟨fun beyond => absurd beyond inside, fun _ _ => congrArg Box.h same⟩
          · intro spared
            rw [(spared spans.1 spans.2).2 (by omega) atBottom]
        case isFalse within =>
          exact ⟨fun _ _ _ =>
            ⟨fun beyond => absurd beyond inside, fun _ beyond => absurd beyond within⟩, fun _ =>
              rfl⟩
    case isFalse apart =>
      exact ⟨fun _ atLeft atRight => absurd ⟨atLeft, atRight⟩ apart, fun _ => rfl⟩

theorem add_eq_iff (rg : RegionState) (box : Box) :
    rg.add box = rg ↔ rg.infinite = false ∧ rg.box.Covers box := by
  unfold RegionState.add
  split
  case isTrue unbounded =>
    constructor
    · intro same
      have changed := congrArg RegionState.infinite same
      rw [unbounded] at changed
      cases changed
    · rintro ⟨bounded, -⟩
      rw [unbounded] at bounded
      cases bounded
  case isFalse bounded =>
    rw [← cover_eq_iff]
    constructor
    · intro same
      exact ⟨by simpa using bounded, congrArg RegionState.box same⟩
    · rintro ⟨-, same⟩
      rw [same]

theorem subtract_eq_iff (rg : RegionState) (hole : Box) :
    rg.subtract hole = rg ↔ rg.infinite = true ∨ rg.box.Spared hole := by
  unfold RegionState.subtract
  split
  case isTrue unbounded => simp [unbounded]
  case isFalse bounded =>
    rw [← cut_eq_iff]
    constructor
    · intro same
      exact Or.inr (congrArg RegionState.box same)
    · rintro (unbounded | same)
      · exact absurd unbounded bounded
      · rw [same]

section OnlyOwn

variable {α : Type} {size : Nat} {objId clientId : α → Nat} {own : Nat} {table : Fin size → α}
  {k : Fin size} {value : α}

theorem OnlyOwn.refl : OnlyOwn objId clientId own table table := fun _ _ _ => rfl

theorem OnlyOwn.update (here : objId (table k) = 0 ∨ clientId (table k) = own ∨ value = table k) :
    OnlyOwn objId clientId own table (update table k value) := by
  intro other live foreign
  by_cases same : other = k
  · subst same
    rw [update_self]
    exact (here.resolve_left live).resolve_left foreign
  · exact update_of_ne same _ _

theorem OnlyOwn.not_changed {next : Fin size → α} (only : OnlyOwn objId clientId own table next)
    (live : objId (table k) ≠ 0) (foreign : clientId (table k) ≠ own)
    (changed : next k ≠ table k) : False :=
  changed (only k live foreign)

end OnlyOwn

theorem Wired.pool_own (wired : Wired c.tables) (active : (c.clients i).active = true) {obj : Nat}
    {p : Fin cpMaxPools} (found : cpFindPool c (c.tables.ids i) obj = some p) :
    (c.pools p).objId = obj ∧ (c.pools p).clientId = c.tables.ids i := by
  obtain ⟨named, -, zero | owned⟩ := firstSlot_wanted found
  · have positive := wired.ids i active
    omega
  · exact ⟨named, owned⟩

theorem Wired.buffer_own (wired : Wired c.tables) (active : (c.clients i).active = true) {obj : Nat}
    {k : Fin cpMaxSurfaces} (found : cpFindBuffer c (c.tables.ids i) obj = some k) :
    (c.buffers k).objId = obj ∧ obj ≠ 0 ∧ (c.buffers k).clientId = c.tables.ids i := by
  obtain ⟨named, live, zero | owned⟩ := firstSlot_wanted found
  · have positive := wired.ids i active
    omega
  · exact ⟨named, named ▸ live, owned⟩

theorem region_trespasses {k : Fin cpMaxSurfaces}
    (target : cpObjmapIface (c.tables.maps i) req.obj = some .region)
    (found : cpFindRegion c req.obj = some k)
    (foreign : (c.regions k).clientId ≠ (c.clients i).clientId)
    (changes : (c.regions k).Changes req.opcode req.args.getBox) : Trespasses c i req := by
  have mapped : cpObjmapIface (c.clients i).map req.obj = some .region := target
  simp only [Trespasses, mapped]
  exact ⟨k, found, foreign, changes⟩

theorem isolated_of_not_trespasses (wired : Wired c.tables) (active : (c.clients i).active = true)
    (unprivileged : ¬ (req.opcode = cpSurfaceSetPosition ∧ c.wmClientId = (c.clients i).clientId))
    (harmless : ¬ Trespasses c i req) :
    Isolated c.tables (dispatchRequest c i req).1.tables i := by
  have effect := dispatch_effect c i req
  generalize (dispatchRequest c i req).1.tables = next at effect ⊢
  have otherMaps : ∀ {map : Objmap} (j : Fin cpMaxClients), j ≠ i →
      update c.tables.maps i map j = c.tables.maps j :=
    fun j other => update_of_ne other _ _
  cases effect with
  | kept => exact ⟨.refl, .refl, .refl, .refl, fun _ _ => rfl⟩
  | mapped inserted plain => exact ⟨.refl, .refl, .refl, .refl, otherMaps⟩
  | surfaceMade free inserted => exact ⟨.update (Or.inl free), .refl, .refl, .refl, otherMaps⟩
  | regionMade free => exact ⟨.refl, .refl, .refl, .update (Or.inl free), otherMaps⟩
  | poolMade target opcode free inserted =>
    exact ⟨.refl, .update (Or.inl free), .refl, .refl, otherMaps⟩
  | bufferMade target opcode found accepted free inserted =>
    exact ⟨.refl, .refl, .update (Or.inl free), .refl, otherMaps⟩
  | poolResized target opcode found =>
    have own := (wired.pool_own active found).2
    exact ⟨.refl, .update (Or.inr (Or.inl own)), .refl, .refl, fun _ _ => rfl⟩
  | poolDestroyed target opcode found =>
    have own := (wired.pool_own active found).2
    refine ⟨.refl, .update (Or.inr (Or.inl own)), ?_, .refl, otherMaps⟩
    intro k live foreign
    apply if_neg
    intro taken
    apply harmless
    have mapped : cpObjmapIface (c.clients i).map req.obj = some .shmPool := target
    simp only [Trespasses, mapped]
    exact ⟨opcode, Option.ne_none_iff_exists'.mpr ⟨_, found⟩, k, taken, foreign⟩
  | bufferDestroyed target opcode found =>
    have own := (wired.buffer_own active found).2.2
    refine ⟨?_, .refl, .update (Or.inr (Or.inl own)), .refl, otherMaps⟩
    intro k live foreign
    apply if_neg
    intro used
    apply harmless
    have mapped : cpObjmapIface (c.clients i).map req.obj = some .buffer := target
    simp only [Trespasses, mapped]
    exact ⟨opcode, Option.ne_none_iff_exists'.mpr ⟨_, found⟩, k, used, foreign⟩
  | surfaceDestroyed target found =>
    have own := (wired.found_own active target found).2.2
    exact ⟨.update (Or.inr (Or.inl own)), .refl, .refl, .refl, otherMaps⟩
  | surfaceSet target found keeps =>
    have own := (wired.found_own active target found).2.2
    exact ⟨.update (Or.inr (Or.inl own)), .refl, .refl, .refl, fun _ _ => rfl⟩
  | positioned opcode layout keeps => exact absurd ⟨opcode, layout⟩ unprivileged
  | surfaceCommitted target found =>
    have own := (wired.found_own active target found).2.2
    exact ⟨.update (Or.inr (Or.inl own)), .refl, .refl, .refl, fun _ _ => rfl⟩
  | @regionSet k next target found changed =>
    refine ⟨.refl, .refl, .refl, .update (Or.inr ?_), fun _ _ => rfl⟩
    by_cases foreign : (c.regions k).clientId = (c.clients i).clientId
    · exact Or.inl foreign
    right
    have spared : ¬ (c.regions k).Changes req.opcode req.args.getBox :=
      fun changes => harmless (region_trespasses target found foreign changes)
    unfold RegionState.Changes at spared
    rcases changed with ⟨opcode, rfl⟩ | ⟨opcode, rfl⟩
    · rw [opcode] at spared
      obtain ⟨bounded, covered⟩ := not_or.mp spared
      exact (add_eq_iff _ _).mpr ⟨by simpa using bounded, not_not.mp covered⟩
    · rw [opcode] at spared
      apply (subtract_eq_iff _ _).mpr
      by_cases unbounded : (c.regions k).infinite = true
      · exact Or.inl unbounded
      · exact Or.inr (not_not.mp fun cut => spared ⟨by simpa using unbounded, cut⟩)
  | @regionDestroyed k target opcode found =>
    refine ⟨.refl, .refl, .refl, .update (Or.inr (Or.inl ?_)), otherMaps⟩
    by_contra foreign
    apply harmless
    apply region_trespasses target found foreign
    unfold RegionState.Changes
    rw [opcode]
    trivial

theorem regionReq_other {opcode : Nat} {sort : RegionReq}
    (named : RegionReq.ofOpcode opcode = some sort) : opcode ≠ cpSurfaceSetPosition := by
  rintro rfl
  cases named

theorem not_isolated_of_trespasses (trespasses : Trespasses c i req) :
    ¬ Isolated c.tables (dispatchRequest c i req).1.tables i := by
  intro isolated
  unfold Trespasses at trespasses
  dsimp only at trespasses
  split at trespasses
  case h_1 mapped =>
    obtain ⟨opcode, found, k, taken, foreign⟩ := trespasses
    obtain ⟨p, found⟩ := Option.ne_none_iff_exists'.mp found
    have other : req.opcode ≠ cpSurfaceSetPosition := by
      intro same
      rw [same] at opcode
      cases opcode
    have after := congrArg Tables.buffers (@releaseBuffers_tables c i req.obj _
      (List.nodup_finRange cpMaxSurfaces))
    have freed : ((dispatchRequest c i req).1.tables.buffers k).objId = 0 := by
      simp only [dispatchRequest, if_neg other, mapped, cpHandlePool, found, opcode]
      have slot := congrFun after k
      simp only [List.mem_finRange, if_true, BufferState.released, if_pos taken] at slot
      exact congrArg BufferState.objId slot
    apply isolated.buffers.not_changed taken.1 foreign
    intro same
    rw [same] at freed
    exact taken.1 freed
  case h_2 mapped =>
    obtain ⟨opcode, found, k, used, foreign⟩ := trespasses
    obtain ⟨b, found⟩ := Option.ne_none_iff_exists'.mp found
    have other : req.opcode ≠ cpSurfaceSetPosition := by
      rw [opcode]
      decide
    have nonzero : req.obj ≠ 0 := by
      obtain ⟨named, live, -⟩ := firstSlot_wanted found
      exact named ▸ live
    have detached : (dispatchRequest c i req).1.tables.surfaces k =
        { c.surfaces k with bufferObj := 0, pendingBuffer := 0 } := by
      simp only [dispatchRequest, if_neg other, mapped, cpHandleBuffer, found, if_pos opcode]
      exact if_pos used
    apply isolated.surfaces.not_changed used.1 foreign
    intro same
    rw [detached] at same
    rcases used.2 with current | pending
    · exact nonzero (current.symm.trans (congrArg SurfaceState.bufferObj same).symm)
    · exact nonzero (pending.symm.trans (congrArg SurfaceState.pendingBuffer same).symm)
  case h_3 mapped =>
    obtain ⟨k, found, foreign, changes⟩ := trespasses
    have live : (c.regions k).objId ≠ 0 := (firstSlot_wanted found).2
    apply isolated.regions.not_changed live foreign
    unfold RegionState.Changes at changes
    split at changes
    case h_1 opcode =>
      have other := regionReq_other opcode
      intro same
      simp only [dispatchRequest, if_neg other, mapped, cpHandleRegion, found, opcode,
        setRegion_tables, update_self] at same
      exact live (congrArg RegionState.objId same).symm
    case h_2 opcode =>
      have other := regionReq_other opcode
      intro same
      simp only [dispatchRequest, if_neg other, mapped, cpHandleRegion, found, opcode,
        setRegion_tables, update_self] at same
      obtain ⟨bounded, covered⟩ := (add_eq_iff _ _).mp same
      rcases changes with unbounded | uncovered
      · rw [bounded] at unbounded
        cases unbounded
      · exact uncovered covered
    case h_3 opcode =>
      have other := regionReq_other opcode
      intro same
      simp only [dispatchRequest, if_neg other, mapped, cpHandleRegion, found, opcode,
        setRegion_tables, update_self] at same
      rcases (subtract_eq_iff _ _).mp same with unbounded | spared
      · rw [changes.1] at unbounded
        cases unbounded
      · exact changes.2 spared
    case h_4 => exact changes.elim
  case h_4 => exact trespasses

/-- A request leaves other clients' records and maps alone exactly when it does not trespass. -/
theorem request_isolated_iff (reachable : Reachable c) (active : (c.clients i).active = true)
    (unprivileged : ¬ (req.opcode = cpSurfaceSetPosition ∧
      c.wmClientId = (c.clients i).clientId)) :
    Isolated c.tables (dispatchRequest c i req).1.tables i ↔ ¬ Trespasses c i req := by
  constructor
  · intro isolated trespasses
    exact not_isolated_of_trespasses trespasses isolated
  · exact isolated_of_not_trespasses (wired_of_reachable reachable) active unprivileged

def sharedRegionId : Compositor :=
  serve twoClients
    [(0, ⟨1, 1, [2]⟩), (0, ⟨2, 0, [4, 3]⟩), (0, ⟨3, 1, [7]⟩),
     (1, ⟨1, 1, [2]⟩), (1, ⟨2, 0, [4, 3]⟩), (1, ⟨3, 1, [7]⟩)]

theorem reachable_sharedRegionId : Reachable sharedRegionId :=
  reachable_serve reachable_twoClients (by decide +kernel)

/-- The second client's `CP_REGION_DESTROY` of its region destroys the first client's. -/
theorem region_destroyed_across_clients :
    Reachable sharedRegionId ∧ (sharedRegionId.clients 1).active = true ∧
      ¬ Isolated sharedRegionId.tables (dispatchRequest sharedRegionId 1 ⟨7, 0, []⟩).1.tables
        1 := by
  refine ⟨reachable_sharedRegionId, by decide +kernel, ?_⟩
  intro isolated
  have kept := congrArg RegionState.objId
    (isolated.regions 0 (by decide +kernel) (by decide +kernel))
  exact absurd kept (by decide +kernel)

/-- A client may destroy its own region 7 though another has one of that id. -/
theorem request_isolated_own_region :
    Isolated sharedRegionId.tables (dispatchRequest sharedRegionId 0 ⟨7, 0, []⟩).1.tables 0 := by
  apply (request_isolated_iff reachable_sharedRegionId (by decide +kernel) (by decide +kernel)).mpr
  rintro ⟨k, found, foreign, -⟩
  have first : cpFindRegion sharedRegionId 7 = some 0 := by decide +kernel
  rw [first] at found
  cases found
  exact foreign (by decide +kernel)

end M4KK1.Copland
