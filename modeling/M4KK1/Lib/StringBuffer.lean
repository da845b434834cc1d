import Mathlib.Data.List.Basic
import M4KK1.Lib.CheckedArray

/-!
# C strings in buffers

`strncpy`, `strlen` and `strcat` over buffers, with every access checked.
-/

namespace M4KK1.Lib

open Function List

namespace CArray

variable {size : Nat}

structure Holds (buffer : CArray UInt8 size) (text : List UInt8) : Prop where
  noNul : 0 ∉ text
  fits : text.length < size
  bytes : buffer.Segment 0 (text ++ [0])

/-- The loops of `strncpy`: `count` bytes, which are those of the string and then NULs. -/
def strncpyFrom (buffer : CArray UInt8 size) (index : Nat) (text : List UInt8) :
    Nat → Except Fault (CArray UInt8 size)
  | 0 => .ok buffer
  | count + 1 => do
    let buffer ← buffer.write index (text.headD 0)
    strncpyFrom buffer (index + 1) text.tail count

def strncpy (buffer : CArray UInt8 size) (text : List UInt8) (count : Nat) :
    Except Fault (CArray UInt8 size) := strncpyFrom buffer 0 text count

/-- The loop of `strlen`. -/
def strlenFrom (buffer : CArray UInt8 size) (index : Nat) : Nat → Except Fault Nat
  | 0 => .error .outOfFuel
  | fuel + 1 => do
    let byte ← buffer.read index
    if byte = 0 then .ok index else strlenFrom buffer (index + 1) fuel

/-- `strlen`; a read behind the buffer ends the loop before its rounds run out. -/
def strlen (buffer : CArray UInt8 size) : Except Fault Nat := strlenFrom buffer 0 (size + 1)

/-- The copying loop of `strcat`, with the NUL it ends in. -/
def strcatFrom {sourceSize : Nat} (buffer : CArray UInt8 size) (source : CArray UInt8 sourceSize)
    (start index : Nat) : Nat → Except Fault (CArray UInt8 size)
  | 0 => .error .outOfFuel
  | fuel + 1 => do
    let byte ← source.read index
    let buffer ← buffer.write (start + index) byte
    if byte = 0 then .ok buffer else strcatFrom buffer source start (index + 1) fuel

def strcat {sourceSize : Nat} (buffer : CArray UInt8 size) (source : CArray UInt8 sourceSize) :
    Except Fault (CArray UInt8 size) := do
  let start ← strlen buffer
  strcatFrom buffer source start 0 (sourceSize + 1)

variable {buffer : CArray UInt8 size} {index : Nat} {text : List UInt8}

theorem strncpyFrom_eq {count : Nat} (inside : index + count ≤ size) :
    buffer.strncpyFrom index text count =
      .ok ⟨fun cell => if index ≤ cell ∧ cell < index + count then text.getD (cell - index) 0
        else buffer.cell cell⟩ := by
  induction count generalizing buffer index text with
  | zero =>
    have untouched : ∀ cell, ¬ (index ≤ cell ∧ cell < index + 0) := by omega
    simp only [strncpyFrom, untouched, if_false]
  | succ count ih =>
    rw [strncpyFrom, write_eq (by omega), ok_bind, ih (by omega)]
    congr 2
    funext cell
    simp only [update_apply]
    by_cases first : cell = index
    · subst first
      rw [if_neg (by omega), if_pos rfl, if_pos (by omega), Nat.sub_self]
      cases text <;> rfl
    · by_cases copied : index + 1 ≤ cell ∧ cell < index + 1 + count
      · rw [if_pos copied, if_pos (by omega), show cell - index = cell - (index + 1) + 1 by omega]
        cases text <;> simp
      · rw [if_neg copied, if_neg first, if_neg (by omega)]

theorem strncpy_eq {count : Nat}
    (inside : count ≤ size) :
    buffer.strncpy text count =
      .ok ⟨fun cell => if cell < count then text.getD cell 0 else buffer.cell cell⟩ := by
  rw [strncpy, strncpyFrom_eq (by omega)]
  simp only [Nat.zero_le, true_and, Nat.zero_add, Nat.sub_zero]

theorem Holds.cell_of_lt (holds : buffer.Holds text)
    (inside : index < text.length) : buffer.cell index = text[index] := by
  have here := holds.bytes index (by simp; omega)
  rwa [Nat.zero_add, getElem_append_left inside] at here

theorem Holds.cell_length (holds : buffer.Holds text) : buffer.cell text.length = 0 := by
  have here := holds.bytes text.length (by simp)
  rwa [Nat.zero_add, getElem_append_right (Nat.le_refl _), getElem_singleton] at here

theorem Holds.of_cells (noNul : 0 ∉ text) (fits : text.length < size)
    (bytes : ∀ index (inside : index < text.length), buffer.cell index = text[index])
    (terminated : buffer.cell text.length = 0) : buffer.Holds text := by
  refine ⟨noNul, fits, fun index inside => ?_⟩
  rw [Nat.zero_add]
  by_cases last : index < text.length
  · rw [getElem_append_left last, bytes index last]
  · obtain rfl : index = text.length := by
      simp only [length_append, length_singleton] at inside
      omega
    rw [getElem_append_right (Nat.le_refl _), getElem_singleton, terminated]

theorem Holds.unique {buffer : CArray UInt8 size} {text other : List UInt8}
    (holds : buffer.Holds text) (holdsToo : buffer.Holds other) : text = other := by
  have shorter : ∀ {short long : List UInt8}, buffer.Holds short → buffer.Holds long →
      ¬ short.length < long.length := by
    intro short long holdsShort holdsLong less
    have nul := holdsLong.cell_of_lt less
    rw [holdsShort.cell_length] at nul
    exact holdsLong.noNul (nul ▸ getElem_mem less)
  have sameLength : text.length = other.length :=
    Nat.le_antisymm (Nat.not_lt.mp (shorter holdsToo holds))
      (Nat.not_lt.mp (shorter holds holdsToo))
  refine ext_getElem sameLength fun index inside insideToo => ?_
  rw [← holds.cell_of_lt inside, holdsToo.cell_of_lt insideToo]

theorem strlenFrom_eq (holds : buffer.Holds text)
    {fuel : Nat} (start : index ≤ text.length) (rounds : text.length < index + fuel) :
    buffer.strlenFrom index fuel = .ok text.length := by
  have fits := holds.fits
  induction fuel generalizing index with
  | zero => omega
  | succ fuel ih =>
    rw [strlenFrom, read_eq (by omega), ok_bind]
    by_cases last : index = text.length
    · subst last
      rw [if_pos holds.cell_length]
    · have inside : index < text.length := by omega
      have notNul : buffer.cell index ≠ 0 := by
        rw [holds.cell_of_lt inside]
        exact fun nul => holds.noNul (nul ▸ getElem_mem inside)
      rw [if_neg notNul, ih inside (by omega)]

theorem strlen_eq (holds : buffer.Holds text) : buffer.strlen = .ok text.length := by
  have fits := holds.fits
  exact strlenFrom_eq holds (Nat.zero_le _) (by omega)

theorem strlen_unterminated (unterminated : ∀ index, index < size → buffer.cell index ≠ 0) :
    buffer.strlen = .error .outOfBounds := by
  have runs : ∀ fuel index, index + fuel = size + 1 →
      buffer.strlenFrom index fuel = .error .outOfBounds ∨ size < index := by
    intro fuel
    induction fuel with
    | zero => exact fun index whole => .inr (by omega)
    | succ fuel ih =>
      intro index whole
      by_cases inside : index < size
      · rw [strlenFrom, read_eq inside, ok_bind, if_neg (unterminated index inside)]
        refine .inl ((ih (index + 1) (by omega)).resolve_right (by omega))
      · refine .inl ?_
        rw [strlenFrom, read, if_neg inside]
        rfl
  exact (runs (size + 1) 0 (by omega)).resolve_right (by omega)

theorem strcatFrom_eq {sourceSize : Nat} {source : CArray UInt8 sourceSize}
    (holds : source.Holds text)
    {start fuel : Nat} (from_ : index ≤ text.length) (rounds : text.length < index + fuel)
    (room : start + text.length < size) :
    buffer.strcatFrom source start index fuel =
      .ok ⟨fun cell => if start + index ≤ cell ∧ cell ≤ start + text.length
        then source.cell (cell - start) else buffer.cell cell⟩ := by
  have fits := holds.fits
  induction fuel generalizing buffer index with
  | zero => omega
  | succ fuel ih =>
    rw [strcatFrom, read_eq (by omega), ok_bind, write_eq (by omega), ok_bind]
    by_cases last : index = text.length
    · subst last
      rw [if_pos holds.cell_length]
      congr 2
      funext cell
      rw [update_apply]
      by_cases here : cell = start + text.length
      · rw [if_pos here, if_pos (by omega), show cell - start = text.length by omega]
      · rw [if_neg here, if_neg (by omega)]
    · have inside : index < text.length := by omega
      have notNul : source.cell index ≠ 0 := by
        rw [holds.cell_of_lt inside]
        exact fun nul => holds.noNul (nul ▸ getElem_mem inside)
      rw [if_neg notNul, ih inside (by omega)]
      congr 2
      funext cell
      simp only [update_apply]
      by_cases here : cell = start + index
      · rw [if_neg (by omega), if_pos here, if_pos (by omega), show cell - start = index by omega]
      · by_cases later : start + (index + 1) ≤ cell ∧ cell ≤ start + text.length
        · rw [if_pos later, if_pos (by omega)]
        · rw [if_neg later, if_neg here, if_neg (by omega)]

/-- With room for both, the text is joined to the front. -/
theorem strcat_eq {sourceSize : Nat} {source : CArray UInt8 sourceSize}
    {front : List UInt8} (holdsFront : buffer.Holds front) (holds : source.Holds text)
    (room : front.length + text.length < size) :
    ∃ joined, buffer.strcat source = .ok joined ∧ joined.Holds (front ++ text) := by
  have fits := holds.fits
  have appended : buffer.strcat source = .ok ⟨fun cell =>
      if front.length ≤ cell ∧ cell ≤ front.length + text.length
        then source.cell (cell - front.length) else buffer.cell cell⟩ := by
    rw [strcat, strlen_eq holdsFront, ok_bind, strcatFrom_eq holds (Nat.zero_le _) (by omega) room]
    simp only [Nat.add_zero]
  refine ⟨_, appended, Holds.of_cells ?_ (by simpa using room) ?_ ?_⟩
  · rw [mem_append]
    exact fun nul => nul.elim holdsFront.noNul holds.noNul
  · intro index inside
    rw [length_append] at inside
    by_cases inFront : index < front.length
    · simp only
      rw [if_neg (by omega), getElem_append_left inFront, holdsFront.cell_of_lt inFront]
    · simp only
      rw [if_pos (by omega), getElem_append_right (by omega), holds.cell_of_lt]
  · simp only [length_append]
    rw [if_pos (by omega), Nat.add_sub_cancel_left, holds.cell_length]

end CArray

end M4KK1.Lib
