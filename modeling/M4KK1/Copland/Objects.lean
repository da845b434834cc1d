import Mathlib.Algebra.Ring.Nat
import M4KK1.Lib.SlotTable
import M4KK1.Copland.Proto

/-!
# Copland's object tables

The records of `compositor.h` and the scans of `compositor.c`; `int32` wraps a sum or a product.
-/

namespace M4KK1.Copland

open M4KK1.Lib Function

/-- The value of an expression of type `int32_t`. -/
def int32 (value : Int) : Int := value.bmod 4294967296

theorem int32_fits {value : Int} (low : -2147483648 ≤ value) (fits : value < 2147483648) :
    int32 value = value := by
  rw [int32, Int.bmod_def]
  omega

theorem int32_lt (value : Int) : int32 value < 2147483648 := by
  rw [int32, Int.bmod_def]
  omega

/-- `CP_MAX_SURFACES`, `CP_MAX_BUFFERS`, `CP_MAX_REGIONS` and `CP_MAX_CALLBACKS`. -/
def cpMaxSurfaces : Nat := 16

def cpMaxPools : Nat := 8

def cpMaxClients : Nat := 8

instance : NeZero cpMaxSurfaces := ⟨by decide⟩

instance : NeZero cpMaxPools := ⟨by decide⟩

instance : NeZero cpMaxClients := ⟨by decide⟩

def cpObjmapMax : Nat := 64

/-- `enum cp_interface`, without `CP_IF_NONE`. -/
inductive Interface where
  | display
  | registry
  | callback
  | compositor
  | shm
  | shmPool
  | buffer
  | surface
  | region
  | seat
  | pointer
  | keyboard
  | output
deriving DecidableEq, Repr

def Interface.code : Interface → Nat
  | .display => 1
  | .registry => 2
  | .callback => 3
  | .compositor => 4
  | .shm => 5
  | .shmPool => 6
  | .buffer => 7
  | .surface => 8
  | .region => 9
  | .seat => 10
  | .pointer => 11
  | .keyboard => 12
  | .output => 13

/-- A rectangle, as the records keep it in four fields. -/
structure Box where
  x : Int
  y : Int
  w : Int
  h : Int
deriving DecidableEq, Repr

def Box.empty : Box := ⟨0, 0, 0, 0⟩

/-- The code by which a box grows until it covers another one. -/
def Box.cover (box added : Box) : Box :=
  let x2 := int32 (added.x + added.w)
  let y2 := int32 (added.y + added.h)
  let x := if added.x < box.x then added.x else box.x
  let y := if added.y < box.y then added.y else box.y
  { x := x
    y := y
    w := if x2 > int32 (x + box.w) then int32 (x2 - x) else box.w
    h := if y2 > int32 (y + box.h) then int32 (y2 - y) else box.h }

structure SurfaceState where
  objId : Nat
  clientId : Nat
  x : Int
  y : Int
  w : Int
  h : Int
  bufferObj : Nat
  pendingBuffer : Nat
  dmg : Box
  pdmg : Box
  pendX : Int
  pendY : Int
  pendPos : Bool
  mapped : Bool
  visible : Bool
  input : Box
  hasInputRegion : Bool
deriving DecidableEq, Repr

structure PoolState where
  objId : Nat
  clientId : Nat
  addr : Nat
  size : Nat
deriving DecidableEq, Repr

structure BufferState where
  objId : Nat
  clientId : Nat
  poolObj : Nat
  offset : Nat
  w : Int
  h : Int
  stride : Nat
deriving DecidableEq, Repr

structure CallbackState where
  objId : Nat
  clientId : Nat
  surfaceObj : Nat
  fired : Bool
deriving DecidableEq, Repr

structure RegionState where
  objId : Nat
  clientId : Nat
  box : Box
  infinite : Bool
deriving DecidableEq, Repr

/-- `struct cp_objmap`: `cp_objmap_insert` refuses an id that is in use, so no id is
mapped twice. -/
structure Objmap where
  slot : Fin cpObjmapMax → Option (Nat × Interface)
  unique : ∀ {left right : Fin cpObjmapMax} {first second : Nat × Interface},
    slot left = some first → slot right = some second → first.1 = second.1 → left = right

variable (m : Objmap) (id : Nat)

def Objmap.slotOf : Option (Fin cpObjmapMax) :=
  firstSlot m.slot fun entry => entry.map Prod.fst = some id

def cpObjmapInit : Objmap :=
  { slot := fun _ => none
    unique := fun used => by simp at used }

/-- `cp_objmap_iface`, with `none` for `CP_IF_NONE`. -/
def cpObjmapIface : Option Interface :=
  (m.slotOf id).bind fun slot => (m.slot slot).map Prod.snd

def Objmap.put (iface : Interface) (free : Fin cpObjmapMax)
    (unmapped : m.slotOf id = none) : Objmap :=
  { slot := update m.slot free (some (id, iface))
    unique := by
      have absent : ∀ {slot entry}, m.slot slot = some entry → entry.1 ≠ id := by
        intro slot entry used same
        exact firstSlot_eq_none.mp unmapped slot (by simp [used, same])
      intro left right first second usedLeft usedRight same
      by_cases atLeft : left = free
      · by_cases atRight : right = free
        · rw [atLeft, atRight]
        · subst atLeft
          rw [update_self] at usedLeft
          rw [update_of_ne atRight] at usedRight
          cases usedLeft
          exact absurd same.symm (absent usedRight)
      · rw [update_of_ne atLeft] at usedLeft
        by_cases atRight : right = free
        · subst atRight
          rw [update_self] at usedRight
          cases usedRight
          exact absurd same (absent usedLeft)
        · rw [update_of_ne atRight] at usedRight
          exact m.unique usedLeft usedRight same }

/-- `cp_objmap_insert`; `none` is `-1`. -/
def cpObjmapInsert (iface : Interface) : Option Objmap :=
  if unmapped : m.slotOf id = none then
    (firstSlot m.slot fun entry => entry = none).map fun free => m.put id iface free unmapped
  else none

def cpObjmapRemove : Objmap :=
  match m.slotOf id with
  | none => m
  | some used =>
    { slot := update m.slot used none
      unique := by
        intro left right first second usedLeft usedRight same
        by_cases atLeft : left = used
        · simp [atLeft] at usedLeft
        · by_cases atRight : right = used
          · simp [atRight] at usedRight
          · rw [update_of_ne atLeft] at usedLeft
            rw [update_of_ne atRight] at usedRight
            exact m.unique usedLeft usedRight same }

theorem cpObjmapIface_eq_some {m : Objmap} {id : Nat} {iface : Interface} :
    cpObjmapIface m id = some iface ↔ ∃ slot, m.slot slot = some (id, iface) := by
  constructor
  · intro mapped
    obtain ⟨slot, found, named⟩ := Option.bind_eq_some_iff.mp mapped
    have wanted := firstSlot_wanted found
    obtain ⟨entry, used, rfl⟩ := Option.map_eq_some_iff.mp named
    rw [used] at wanted
    simp only [Option.map_some, Option.some.injEq] at wanted
    exact ⟨slot, by rw [used, ← wanted]⟩
  · rintro ⟨slot, used⟩
    have found : m.slotOf id = some slot := by
      apply firstSlot_eq_some
      · simp [used]
      · intro other wanted
        obtain ⟨entry, otherUsed, same⟩ := Option.map_eq_some_iff.mp wanted
        exact m.unique otherUsed used same
    simp [cpObjmapIface, found, used]

/-- An insert answers for its own id and no other. -/
theorem cpObjmapIface_insert {m next : Objmap} {id : Nat} {iface : Interface}
    (inserted : cpObjmapInsert m id iface = some next) (other : Nat) :
    cpObjmapIface next other = if other = id then some iface else cpObjmapIface m other := by
  unfold cpObjmapInsert at inserted
  split at inserted
  case isFalse => simp at inserted
  case isTrue unmapped =>
    obtain ⟨free, found, rfl⟩ := Option.map_eq_some_iff.mp inserted
    have empty : m.slot free = none := firstSlot_wanted found
    apply Option.ext
    intro value
    rw [cpObjmapIface_eq_some]
    constructor
    · rintro ⟨slot, used⟩
      by_cases here : slot = free
      · subst here
        simp only [Objmap.put, update_self, Option.some.injEq, Prod.mk.injEq] at used
        simp [used.1, used.2]
      · simp only [Objmap.put, update_of_ne here] at used
        have distinct : other ≠ id := by
          intro same
          exact firstSlot_eq_none.mp unmapped slot (by simp [used, same])
        rw [if_neg distinct]
        exact cpObjmapIface_eq_some.mpr ⟨slot, used⟩
    · intro mapped
      by_cases same : other = id
      · rw [if_pos same] at mapped
        exact ⟨free, by simp [Objmap.put, same, Option.some.inj mapped]⟩
      · rw [if_neg same] at mapped
        obtain ⟨slot, used⟩ := cpObjmapIface_eq_some.mp mapped
        have elsewhere : slot ≠ free := by
          rintro rfl
          simp [empty] at used
        exact ⟨slot, by simp [Objmap.put, update_of_ne elsewhere, used]⟩

/-- A removed id has no interface. -/
theorem cpObjmapIface_remove (id other : Nat) :
    cpObjmapIface (cpObjmapRemove m id) other =
      if other = id then none else cpObjmapIface m other := by
  unfold cpObjmapRemove
  split
  case h_1 unmapped =>
    split
    case isTrue same => simp [cpObjmapIface, same, unmapped]
    case isFalse => rfl
  case h_2 used found =>
    have wanted := firstSlot_wanted found
    obtain ⟨entry, named, rfl⟩ := Option.map_eq_some_iff.mp wanted
    apply Option.ext
    intro value
    rw [cpObjmapIface_eq_some]
    constructor
    · rintro ⟨slot, still⟩
      by_cases here : slot = used
      · simp [here] at still
      · simp only [update_of_ne here] at still
        have distinct : other ≠ entry.1 := by
          intro same
          exact here (m.unique still named same)
        rw [if_neg distinct]
        exact cpObjmapIface_eq_some.mpr ⟨slot, still⟩
    · intro mapped
      by_cases same : other = entry.1
      · simp [same] at mapped
      · rw [if_neg same] at mapped
        obtain ⟨slot, still⟩ := cpObjmapIface_eq_some.mp mapped
        have elsewhere : slot ≠ used := by
          rintro rfl
          rw [named] at still
          exact same (congrArg Prod.fst (Option.some.inj still)).symm
        exact ⟨slot, by simp [update_of_ne elsewhere, still]⟩

@[simp] theorem cpObjmapIface_init : cpObjmapIface cpObjmapInit id = none := by
  apply Option.ext
  intro iface
  rw [cpObjmapIface_eq_some]
  simp [cpObjmapInit]

end M4KK1.Copland
