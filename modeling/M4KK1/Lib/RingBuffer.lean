import Mathlib.Algebra.Ring.Nat
import M4KK1.Lib.CheckedArray
import M4KK1.Lib.Word32

/-!
# Ring buffers addressed by a mask

Cells are `(offset + i) & (size - 1)` of free-running counters; `Window` is what they hold.
-/

namespace M4KK1.Lib

open Function List

variable {α : Type}

variable (array : CArray α size)

namespace CArray

variable {size : Nat}

/-- The first `count` cells, in order. -/
def take (count : Nat) : List α := (List.range count).map array.cell

def ofList [Inhabited α] (values : List α) : CArray α values.length :=
  ⟨fun index => values.getD index default⟩

@[simp] theorem length_take (count : Nat) : (array.take count).length = count := by simp [take]

@[simp] theorem getElem_take (count index : Nat)
    (inside : index < (array.take count).length) :
    (array.take count)[index] = array.cell index := by
  simp [take]

theorem take_ofList [Inhabited α] (values : List α) :
    (ofList values).take values.length = values := by
  apply ext_getElem
  · simp
  · intro index inside inValues
    simp [ofList, inValues]

end CArray

/-- A ring of a power-of-two size that 32-bit counters can address. -/
structure RingSize (size : Nat) : Prop where
  shape : ∃ width, width ≤ 31 ∧ size = 2 ^ width

namespace RingSize

variable {size : Nat}

section

variable (ring : RingSize size)

include ring

theorem positive : 0 < size := by
  obtain ⟨width, -, rfl⟩ := ring.shape
  exact Nat.two_pow_pos width

theorem le : size ≤ 2147483648 := by
  obtain ⟨width, bounded, rfl⟩ := ring.shape
  exact Nat.pow_le_pow_right (by decide) bounded

theorem dvd : size ∣ 4294967296 := by
  obtain ⟨width, bounded, rfl⟩ := ring.shape
  exact Nat.pow_dvd_pow 2 (show width ≤ 32 by omega)

theorem mask (index : Nat) : index &&& sub32 size 1 = index % size := by
  have bounded := ring.le
  have positive := ring.positive
  rw [sub32_eq positive (by omega)]
  obtain ⟨width, -, rfl⟩ := ring.shape
  exact Nat.and_two_pow_sub_one_eq_mod index width

theorem add32_mod (left right : Nat) : add32 left right % size = (left + right) % size :=
  Nat.mod_mod_of_dvd _ ring.dvd

theorem slot (counter index : Nat) :
    add32 (counter &&& sub32 size 1) index &&& sub32 size 1 = (counter + index) % size := by
  rw [ring.mask, ring.mask, ring.add32_mod, Nat.mod_add_mod]

end

end RingSize

/-- From position `start` on, the ring holds `values`. -/
def Window {size : Nat} (data : CArray α size) (start : Nat) (values : List α) : Prop :=
  ∀ index (inside : index < values.length),
    data.cell ((start + index) % size) = values[index]

namespace Window

variable {size : Nat} {data : CArray α size} {start : Nat} {front back : List α}

theorem nil : Window data start [] := by
  intro index inside
  simp at inside

theorem append_iff : Window data start (front ++ back) ↔
      Window data start front ∧ Window data (start + front.length) back := by
  constructor
  · intro window
    constructor
    · intro index inside
      rw [window index (by simp; omega), getElem_append_left inside]
    · intro index inside
      have whole := window (front.length + index) (by simp; omega)
      rw [getElem_append_right (Nat.le_add_right _ _)] at whole
      simpa [Nat.add_assoc] using whole
  · rintro ⟨first, second⟩ index inside
    by_cases inFront : index < front.length
    · rw [getElem_append_left inFront]
      exact first index inFront
    · have inBack : index - front.length < back.length := by
        simp at inside
        omega
      rw [getElem_append_right (by omega), ← second _ inBack]
      congr 2
      omega

theorem congr_start {other : Nat} (same : start % size = other % size)
    (window : Window data start front) : Window data other front := by
  intro index inside
  rw [← window index inside, Nat.add_mod, ← same, ← Nat.add_mod]

end Window

/-- `for (i = 0; i < count; i++) data[(offset + i) & mask] = source[i];` -/
def ringStore {size sourceSize : Nat} (data : CArray α size) (mask offset : Nat)
    (source : CArray α sourceSize) (index : Nat) : Nat → Except Fault (CArray α size)
  | 0 => .ok data
  | count + 1 => do
    let value ← source.read index
    let data ← data.write (add32 offset index &&& mask) value
    ringStore data mask offset source (index + 1) count

/-- `for (i = 0; i < count; i++) target[i] = data[(offset + i) & mask];` -/
def ringLoad {size targetSize : Nat} (data : CArray α size) (mask offset : Nat)
    (target : CArray α targetSize) (index : Nat) : Nat → Except Fault (CArray α targetSize)
  | 0 => .ok target
  | count + 1 => do
    let value ← data.read (add32 offset index &&& mask)
    let target ← target.write index value
    ringLoad data mask offset target (index + 1) count

variable {size sourceSize : Nat}

theorem ring_slot_ne {start near far : Nat} (ordered : near < far)
    (close : far < near + size) : (start + near) % size ≠ (start + far) % size := by
  intro same
  have divides : size ∣ (start + far) - (start + near) :=
    Nat.dvd_of_mod_eq_zero (Nat.sub_mod_eq_zero_of_mod_eq same.symm)
  have := Nat.le_of_dvd (by omega) divides
  omega

/-- What a producer's copying loop leaves: the copied cells, and all others as
they were. -/
structure Stored {size sourceSize : Nat} (before after : CArray α size) (counter : Nat)
    (source : CArray α sourceSize) (first count : Nat) : Prop where
  copied : ∀ index, first ≤ index → index < first + count →
    after.cell ((counter + index) % size) = source.cell index
  kept : ∀ cell, (∀ index, first ≤ index → index < first + count →
    cell ≠ (counter + index) % size) → after.cell cell = before.cell cell

theorem ringStore_spec (ring : RingSize size) (counter : Nat) (source : CArray α sourceSize)
    (count : Nat) :
    ∀ (data : CArray α size) (first : Nat), first + count ≤ sourceSize → count ≤ size →
      ∃ after, ringStore data (sub32 size 1) (counter &&& sub32 size 1) source first count
          = .ok after ∧ Stored data after counter source first count := by
  induction count with
  | zero =>
    intro data first _ _
    refine ⟨data, rfl, ?_, fun _ _ => rfl⟩
    intro index low high
    omega
  | succ count ih =>
    intro data first inSource inRing
    have slot := ring.slot counter first
    have inside : (counter + first) % size < size := Nat.mod_lt _ ring.positive
    obtain ⟨after, run, stored⟩ :=
      ih ⟨update data.cell ((counter + first) % size) (source.cell first)⟩ (first + 1)
        (by omega) (by omega)
    refine ⟨after, ?_, ?_, ?_⟩
    · rw [ringStore, CArray.read_eq (by omega), ok_bind, slot, CArray.write_eq inside, ok_bind, run]
    · intro index low high
      by_cases atFirst : index = first
      · subst atFirst
        rw [stored.kept]
        · exact update_self _ _ _
        · intro later above below
          exact ring_slot_ne (by omega) (by omega)
      · exact stored.copied index (by omega) (by omega)
    · intro cell other
      rw [stored.kept cell fun index low high => other index (by omega) (by omega)]
      exact update_of_ne (other first (Nat.le_refl _) (by omega)) _ _

theorem Stored.window {before after : CArray α size} {counter : Nat}
    {source : CArray α sourceSize} {count : Nat}
    (stored : Stored before after counter source 0 count) :
    Window after counter (source.take count) := by
  intro index inside
  rw [CArray.getElem_take]
  exact stored.copied index (Nat.zero_le _) (by simpa using inside)

/-- What is stored behind a window leaves the window alone. -/
theorem Stored.keeps {before after : CArray α size} {start : Nat}
    {source : CArray α sourceSize} {count : Nat} {values : List α}
    (stored : Stored before after (start + values.length) source 0 count)
    (room : values.length + count ≤ size) (window : Window before start values) :
    Window after start values := by
  intro index inside
  rw [← window index inside]
  apply stored.kept
  intro later _ below
  rw [Nat.add_assoc]
  exact ring_slot_ne (by omega) (by omega)

theorem ringLoad_spec {targetSize : Nat} (ring : RingSize size) (counter : Nat)
    (data : CArray α size) (count : Nat) :
    ∀ (target : CArray α targetSize) (first : Nat), first + count ≤ targetSize →
      ∃ after, ringLoad data (sub32 size 1) (counter &&& sub32 size 1) target first count =
        .ok after ∧
        (∀ index, index < first → after.cell index = target.cell index) ∧
        ∀ index, first ≤ index → index < first + count →
          after.cell index = data.cell ((counter + index) % size) := by
  induction count with
  | zero =>
    intro target first _
    refine ⟨target, rfl, fun _ _ => rfl, ?_⟩
    intro index low high
    omega
  | succ count ih =>
    intro target first inTarget
    have slot := ring.slot counter first
    have inside : (counter + first) % size < size := Nat.mod_lt _ ring.positive
    obtain ⟨after, run, below, copied⟩ :=
      ih ⟨update target.cell first (data.cell ((counter + first) % size))⟩ (first + 1)
        (by omega)
    refine ⟨after, ?_, ?_, ?_⟩
    · rw [ringLoad, slot, CArray.read_eq inside, ok_bind, CArray.write_eq (by omega), ok_bind, run]
    · intro index low
      rw [below index (by omega)]
      exact update_of_ne (by omega) _ _
    · intro index low high
      by_cases atFirst : index = first
      · subst atFirst
        rw [below index (by omega)]
        exact update_self _ _ _
      · exact copied index (by omega) (by omega)

/-- A load hands out the window. -/
theorem ringLoad_window {targetSize : Nat} (ring : RingSize size) {counter : Nat}
    {data : CArray α size} {values : List α} (target : CArray α targetSize)
    (window : Window data counter values) (fits : values.length ≤ targetSize) :
    ∃ after, ringLoad data (sub32 size 1) (counter &&& sub32 size 1) target 0 values.length
        = .ok after ∧ after.take values.length = values := by
  obtain ⟨after, run, -, copied⟩ :=
    ringLoad_spec ring counter data values.length target 0 (by omega)
  refine ⟨after, run, ?_⟩
  apply ext_getElem
  · simp
  · intro index _ inside
    rw [CArray.getElem_take, copied index (Nat.zero_le _) (by omega), window index inside]

end M4KK1.Lib
