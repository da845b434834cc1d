import Mathlib.Tactic.Common

/-!
# Fixed-size arrays with checked access

A program of `CArray.read` and `CArray.write` returns a value only when every access was inside.
-/

namespace M4KK1.Lib

open Function

/-- Why a modelled C computation has no defined result. -/
inductive Fault where
  /-- An index outside the array it is applied to. -/
  | outOfBounds
  /-- A block read back under a type it was not written with. -/
  | badImage
  /-- A recursion deeper than the bound its model was given. -/
  | outOfFuel
deriving DecidableEq, Repr

@[simp] theorem ok_bind {α β : Type} (value : α) (next : α → Except Fault β) :
    (Except.ok value >>= next) = next value := rfl

@[simp] theorem error_bind {α β : Type} (fault : Fault) (next : α → Except Fault β) :
    ((Except.error fault : Except Fault α) >>= next) = Except.error fault := rfl

@[simp] theorem pure_eq_ok {α : Type} (value : α) :
    (pure value : Except Fault α) = Except.ok value := rfl

/-- A program that returns has returned a value at every step. -/
theorem bind_ok {α β : Type} {first : Except Fault α} {next : α → Except Fault β} {result : β}
    (ran : first >>= next = .ok result) : ∃ value, first = .ok value ∧ next value = .ok result := by
  cases first with
  | error fault => cases ran
  | ok value => exact ⟨value, rfl, ran⟩

/-- A C array: only the cells below `size` can be read or written. -/
structure CArray (α : Type) (size : Nat) where
  cell : Nat → α

namespace CArray

variable {α : Type} {size : Nat}

/-- The array `memset` leaves, every cell equal to `value`. -/
def fill (value : α) : CArray α size := ⟨fun _ => value⟩

/-- `array[index]` as an rvalue. -/
def read (array : CArray α size) (index : Nat) : Except Fault α :=
  if index < size then .ok (array.cell index) else .error .outOfBounds

/-- `array[index] = value`. -/
def write (array : CArray α size) (index : Nat) (value : α) :
    Except Fault (CArray α size) :=
  if index < size then .ok ⟨update array.cell index value⟩ else .error .outOfBounds

variable {array : CArray α size}

theorem read_eq {index : Nat} (inside : index < size) :
    array.read index = .ok (array.cell index) := if_pos inside

theorem write_eq {index : Nat} {value : α} (inside : index < size) :
    array.write index value = .ok ⟨update array.cell index value⟩ := if_pos inside

/-- `for (i = last; i > first; i--) array[i] = array[i - 1];` -/
def shiftUp (array : CArray α size) (first : Nat) : Nat → Except Fault (CArray α size)
  | 0 => .ok array
  | last + 1 =>
    if first < last + 1 then do
      let value ← array.read last
      let array ← array.write (last + 1) value
      shiftUp array first last
    else .ok array

/-- `for (i = first; i < last; i++) array[i] = array[i + 1];`, run `count` times. -/
def shiftDown (array : CArray α size) (first : Nat) : Nat → Except Fault (CArray α size)
  | 0 => .ok array
  | count + 1 => do
    let value ← array.read (first + 1)
    let array ← array.write first value
    shiftDown array (first + 1) count

/-- `for (; i < i + count; i++) target[i] = source[offset + i];` -/
def copyFrom {sourceSize : Nat} (target : CArray α size) (source : CArray α sourceSize)
    (offset index : Nat) : Nat → Except Fault (CArray α size)
  | 0 => .ok target
  | count + 1 => do
    let value ← source.read (offset + index)
    let target ← target.write index value
    copyFrom target source offset (index + 1) count

theorem shiftUp_eq (array : CArray α size) (first last : Nat) (inside : last < size) :
    array.shiftUp first last =
      .ok ⟨fun index => if first < index ∧ index ≤ last then array.cell (index - 1)
        else array.cell index⟩ := by
  induction last generalizing array with
  | zero =>
    have untouched : ∀ index, ¬ (first < index ∧ index ≤ 0) := by omega
    simp only [shiftUp, untouched, if_false]
  | succ last ih =>
    by_cases more : first < last + 1
    · rw [shiftUp, if_pos more, read_eq (by omega), ok_bind, write_eq inside, ok_bind,
        ih _ (by omega)]
      congr 2
      funext index
      simp only [update_apply]
      by_cases atTop : index = last + 1
      · subst atTop
        simp [more]
      · by_cases moved : first < index ∧ index ≤ last
        · have below : index - 1 ≠ last + 1 := by omega
          have still : first < index ∧ index ≤ last + 1 := by omega
          rw [if_pos moved, if_pos still, if_neg below]
        · have still : ¬ (first < index ∧ index ≤ last + 1) := by omega
          rw [if_neg moved, if_neg still, if_neg atTop]
    · have untouched : ∀ index, ¬ (first < index ∧ index ≤ last + 1) := by omega
      simp [shiftUp, more, untouched]

theorem shiftDown_eq (array : CArray α size) (first count : Nat)
    (inside : first + count < size) :
    array.shiftDown first count =
      .ok ⟨fun index => if first ≤ index ∧ index < first + count then array.cell (index + 1)
        else array.cell index⟩ := by
  induction count generalizing array first with
  | zero =>
    have untouched : ∀ index, ¬ (first ≤ index ∧ index < first + 0) := by omega
    simp only [shiftDown, untouched, if_false]
  | succ count ih =>
    rw [shiftDown, read_eq (by omega), ok_bind, write_eq (by omega), ok_bind, ih _ _ (by omega)]
    congr 2
    funext index
    simp only [update_apply]
    by_cases atBottom : index = first
    · subst atBottom
      simp
    · by_cases moved : first + 1 ≤ index ∧ index < first + 1 + count
      · have above : index + 1 ≠ first := by omega
        have still : first ≤ index ∧ index < first + (count + 1) := by omega
        rw [if_pos moved, if_pos still, if_neg above]
      · have still : ¬ (first ≤ index ∧ index < first + (count + 1)) := by omega
        rw [if_neg moved, if_neg still, if_neg atBottom]

theorem copyFrom_eq {sourceSize : Nat} (target : CArray α size)
    (source : CArray α sourceSize) (offset index count : Nat)
    (targetInside : index + count ≤ size) (sourceInside : offset + index + count ≤ sourceSize) :
    target.copyFrom source offset index count =
      .ok ⟨fun cell => if index ≤ cell ∧ cell < index + count then source.cell (offset + cell)
        else target.cell cell⟩ := by
  induction count generalizing target index with
  | zero =>
    have untouched : ∀ cell, ¬ (index ≤ cell ∧ cell < index + 0) := by omega
    simp only [copyFrom, untouched, if_false]
  | succ count ih =>
    rw [copyFrom, read_eq (by omega), ok_bind, write_eq (by omega), ok_bind,
      ih _ _ (by omega) (by omega)]
    congr 2
    funext cell
    simp only [update_apply]
    by_cases first : cell = index
    · subst first
      simp
    · by_cases copied : index + 1 ≤ cell ∧ cell < index + 1 + count
      · have still : index ≤ cell ∧ cell < index + (count + 1) := by omega
        rw [if_pos copied, if_pos still]
      · have still : ¬ (index ≤ cell ∧ cell < index + (count + 1)) := by omega
        rw [if_neg copied, if_neg still, if_neg first]

/-- From `start` on, the array holds `values`. -/
def Segment (array : CArray α size) (start : Nat) (values : List α) : Prop :=
  ∀ index (inside : index < values.length), array.cell (start + index) = values[index]

theorem Segment.append_iff {start : Nat} {front back : List α} :
    array.Segment start (front ++ back) ↔
      array.Segment start front ∧ array.Segment (start + front.length) back := by
  constructor
  · intro segment
    constructor
    · intro index inside
      rw [segment index (by simp; omega), List.getElem_append_left inside]
    · intro index inside
      have whole := segment (front.length + index) (by simp; omega)
      rw [List.getElem_append_right (Nat.le_add_right _ _)] at whole
      simpa [Nat.add_assoc] using whole
  · rintro ⟨first, second⟩ index inside
    by_cases inFront : index < front.length
    · rw [List.getElem_append_left inFront]
      exact first index inFront
    · have inBack : index - front.length < back.length := by
        simp at inside
        omega
      rw [List.getElem_append_right (by omega), ← second _ inBack]
      congr 1
      omega

theorem Segment.congr {other : CArray α size} {start : Nat} {values : List α}
    (segment : array.Segment start values)
    (same : ∀ cell, start ≤ cell → cell < start + values.length →
      other.cell cell = array.cell cell) : other.Segment start values := by
  intro index inside
  rw [same _ (by omega) (by omega), segment index inside]

end CArray

end M4KK1.Lib
