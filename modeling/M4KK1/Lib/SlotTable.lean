import Mathlib.Data.List.FinRange

/-!
# Tables of slots

`firstSlot` is the scan of a fixed table for the first slot that matches.
-/

namespace M4KK1.Lib

variable {α β : Type} {size : Nat}

/-- The first slot whose record satisfies `Wanted`. -/
def firstSlot (table : Fin size → α) (Wanted : α → Prop) [DecidablePred Wanted] :
    Option (Fin size) :=
  (List.finRange size).find? fun slot => decide (Wanted (table slot))

variable {table : Fin size → α} {Wanted : α → Prop} [DecidablePred Wanted]

variable {slot : Fin size}

theorem firstSlot_wanted (found : firstSlot table Wanted = some slot) : Wanted (table slot) := by
  have holds := List.find?_some found
  simpa using holds

theorem firstSlot_eq_none : firstSlot table Wanted = none ↔ ∀ slot, ¬ Wanted (table slot) := by
  simp [firstSlot]

theorem firstSlot_of_wanted (wanted : Wanted (table slot)) :
    ∃ first, firstSlot table Wanted = some first := by
  cases found : firstSlot table Wanted with
  | none => exact absurd wanted (firstSlot_eq_none.mp found slot)
  | some first => exact ⟨first, rfl⟩

theorem firstSlot_eq_some_iff : firstSlot table Wanted = some slot ↔
      Wanted (table slot) ∧ ∀ other < slot, ¬ Wanted (table other) := by
  rw [firstSlot, List.find?_eq_some_iff_getElem]
  constructor
  · rintro ⟨wanted, index, inside, here, before⟩
    refine ⟨by simpa using wanted, fun other below => ?_⟩
    have place : index = slot.val := by simpa using congrArg Fin.val here
    simpa using before other.val (by omega)
  · rintro ⟨wanted, before⟩
    refine ⟨by simpa using wanted, slot.val, by simp, by simp, fun index below => ?_⟩
    simpa using before ⟨index, by omega⟩ below

theorem firstSlot_congr {other : Fin size → β} {Sought : β → Prop} [DecidablePred Sought]
    (alike : ∀ slot, Sought (other slot) ↔ Wanted (table slot)) :
    firstSlot other Sought = firstSlot table Wanted := by
  unfold firstSlot
  congr 1
  funext slot
  exact decide_eq_decide.mpr (alike slot)

/-- A slot that alone is wanted is the first. -/
theorem firstSlot_eq_some (wanted : Wanted (table slot))
    (only : ∀ other, Wanted (table other) → other = slot) :
    firstSlot table Wanted = some slot := by
  obtain ⟨first, found⟩ := firstSlot_of_wanted wanted
  rw [found, only first (firstSlot_wanted found)]

end M4KK1.Lib
