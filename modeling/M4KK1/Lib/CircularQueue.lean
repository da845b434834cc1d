import M4KK1.Lib.RingBuffer

/-!
# Queues on a ring of cells

A head and a count on a ring of `size` cells hold the list `ringValues`.
-/

namespace M4KK1.Lib

open Function List

variable {α : Type} {cells : Nat → α} {size head count : Nat}

/-- The values of `count` cells from `head` on, around a ring of `size` cells. -/
def ringValues (cells : Nat → α) (size head count : Nat) : List α :=
  (List.range count).map fun index => cells ((head + index) % size)

@[simp] theorem length_ringValues : (ringValues cells size head count).length = count := by
  simp [ringValues]

@[simp] theorem getElem_ringValues {index : Nat}
    (inside : index < (ringValues cells size head count).length) :
    (ringValues cells size head count)[index] = cells ((head + index) % size) := by
  simp [ringValues]

@[simp] theorem ringValues_zero : ringValues cells size head 0 = [] := rfl

theorem ringValues_succ : ringValues cells size head (count + 1) =
      cells (head % size) :: ringValues cells size ((head + 1) % size) count := by
  rw [ringValues, range_succ_eq_map, map_cons, map_map]
  congr 1
  apply map_congr_left
  intro index _
  rw [comp_apply, Nat.mod_add_mod, Nat.add_assoc, Nat.add_comm 1]

theorem ringValues_append {value : α} (room : count < size) :
    ringValues (update cells ((head + count) % size) value) size head (count + 1) =
      ringValues cells size head count ++ [value] := by
  rw [ringValues, range_succ, map_append, map_singleton, update_self]
  congr 1
  apply map_congr_left
  intro index inside
  have before : index < count := mem_range.mp inside
  exact update_of_ne (ring_slot_ne before (by omega)) _ _

/-- `for (j = index; j < index + steps; j++) cells[(head + j) % size] = cells[(head + j + 1) %
size];` -/
def closeHole (cells : Nat → α) (size head index : Nat) : Nat → Nat → α
  | 0 => cells
  | steps + 1 =>
    closeHole
      (update cells ((head + index) % size) (cells ((head + (index + 1)) % size)))
      size head (index + 1) steps

theorem closeHole_cell (steps : Nat) : ∀ (cells : Nat → α) (index position : Nat),
    index + steps < size → position < size →
    closeHole cells size head index steps ((head + position) % size) =
      cells ((head + if index ≤ position ∧ position < index + steps then position + 1
        else position) % size) := by
  induction steps with
  | zero =>
    intro cells index position _ _
    rw [closeHole, if_neg (by omega)]
  | succ steps ih =>
    intro cells index position inRing inside
    rw [closeHole, ih _ _ _ (by omega) inside]
    by_cases moved : index + 1 ≤ position ∧ position < index + 1 + steps
    · rw [if_pos moved, if_pos (by omega)]
      exact update_of_ne (ring_slot_ne (by omega) (by omega)).symm _ _
    · rw [if_neg moved]
      by_cases first : position = index
      · subst first
        rw [update_self, if_pos (by omega)]
      · rw [if_neg (by omega)]
        apply update_of_ne
        rcases Nat.lt_or_gt_of_ne first with before | behind
        · exact ring_slot_ne before (by omega)
        · exact (ring_slot_ne behind (by omega)).symm

theorem ringValues_closeHole {index steps : Nat} (inRing : index + steps < size) :
    ringValues (closeHole cells size head index steps) size head (index + steps) =
      (ringValues cells size head (index + steps + 1)).eraseIdx index := by
  apply ext_getElem
  · rw [length_ringValues, length_eraseIdx_of_lt (by rw [length_ringValues]; omega),
      length_ringValues, Nat.add_sub_cancel]
  · intro position inside _
    have bounded : position < index + steps := by simpa using inside
    rw [getElem_ringValues, closeHole_cell steps _ _ _ inRing (by omega), getElem_eraseIdx]
    by_cases before : position < index
    · rw [dif_pos before, getElem_ringValues, if_neg (by omega)]
    · rw [dif_neg before, getElem_ringValues, if_pos (by omega)]

variable [DecidableEq α]

/-- The search of `value` from position `index` on that closes the hole it leaves. -/
def removeFirst (cells : Nat → α) (size head count : Nat) (value : α) (index : Nat) :
    Nat → Option (Nat → α)
  | 0 => none
  | remaining + 1 =>
    if cells ((head + index) % size) = value then
      some (closeHole cells size head index (count - (index + 1)))
    else removeFirst cells size head count value (index + 1) remaining

/-- Nothing was found, or one cell fewer holds the list without the first occurrence. -/
def Removed (cells : Nat → α) (size head count : Nat) (value : α) : Option (Nat → α) → Prop
  | none => value ∉ ringValues cells size head count
  | some after => 0 < count ∧ ringValues after size head (count - 1) =
      (ringValues cells size head count).erase value

theorem removeFirst_from {value : α} (inRing : count ≤ size) (remaining : Nat) :
    ∀ index, index + remaining = count → value ∉ (ringValues cells size head count).take index →
      Removed cells size head count value
        (removeFirst cells size head count value index remaining) := by
  induction remaining with
  | zero =>
    intro index complete notBefore
    rwa [take_of_length_le (by simp; omega)] at notBefore
  | succ remaining ih =>
    intro index complete notBefore
    have inside : index < (ringValues cells size head count).length := by
      rw [length_ringValues]
      omega
    rw [removeFirst]
    by_cases found : cells ((head + index) % size) = value
    · rw [if_pos found]
      refine ⟨by omega, ?_⟩
      have closed : ringValues (closeHole cells size head index (count - (index + 1))) size head
          (index + (count - (index + 1))) = _ := ringValues_closeHole (by omega)
      rw [show index + (count - (index + 1)) = count - 1 by omega,
        show count - 1 + 1 = count by omega] at closed
      rw [closed, eraseIdx_eq_take_drop_succ]
      conv_rhs => rw [← take_append_drop index (ringValues cells size head count)]
      rw [erase_append_right _ notBefore, drop_eq_getElem_cons inside,
        getElem_ringValues, found, erase_cons_head]
    · rw [if_neg found]
      apply ih (index + 1) (by omega)
      rw [← take_append_getElem inside, mem_append, mem_singleton, getElem_ringValues]
      rintro (before | here)
      · exact notBefore before
      · exact found here.symm

/-- The scan takes out the first cell with the value and closes the gap. -/
theorem removeFirst_spec (cells : Nat → α) (head : Nat) (value : α) (inRing : count ≤ size) :
    Removed cells size head count value (removeFirst cells size head count value 0 count) :=
  removeFirst_from inRing count 0 (Nat.zero_add _) (by simp)

end M4KK1.Lib
