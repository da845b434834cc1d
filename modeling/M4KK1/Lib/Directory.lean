import Mathlib.Logic.Function.Basic

/-!
# Directories of owned records

Records of several owners share a table; every owner keeps a directory of its ids.
-/

namespace M4KK1.Lib

open Function

variable {Slot Owner Id : Type} {keys : Slot → Option (Owner × Id)} {owner : Owner}
  {Named : Id → Prop}

/-- No two slots in use hold the same id of the same owner. -/
def Distinct (keys : Slot → Option (Owner × Id)) : Prop :=
  ∀ left right key, keys left = some key → keys right = some key → left = right

/-- The directory `Named` of an owner has exactly the ids its records are under. -/
def Lists (keys : Slot → Option (Owner × Id)) (owner : Owner) (Named : Id → Prop) : Prop :=
  ∀ id, Named id ↔ ∃ slot, keys slot = some (owner, id)

theorem Lists.existsUnique (lists : Lists keys owner Named) (distinct : Distinct keys) (id : Id) :
    Named id ↔ ∃! slot, keys slot = some (owner, id) := by
  rw [lists id]
  constructor
  · rintro ⟨slot, holds⟩
    exact ⟨slot, holds, fun other also => distinct other slot _ also holds⟩
  · exact ExistsUnique.exists

theorem Lists.congr {Others : Id → Prop} (lists : Lists keys owner Named)
    (same : ∀ id, Others id ↔ Named id) : Lists keys owner Others :=
  fun id => (same id).trans (lists id)

section Create

variable [DecidableEq Slot] {slot : Slot}

theorem Distinct.create (distinct : Distinct keys) {key : Owner × Id}
    (absent : ∀ other, keys other ≠ some key) :
    Distinct (update keys slot (some key)) := by
  intro left right held atLeft atRight
  by_cases hereLeft : left = slot
  · by_cases hereRight : right = slot
    · rw [hereLeft, hereRight]
    · rw [hereLeft, update_self] at atLeft
      rw [update_of_ne hereRight, ← atLeft] at atRight
      exact absurd atRight (absent right)
  · rw [update_of_ne hereLeft] at atLeft
    by_cases hereRight : right = slot
    · rw [hereRight, update_self] at atRight
      rw [← atRight] at atLeft
      exact absurd atLeft (absent left)
    · rw [update_of_ne hereRight] at atRight
      exact distinct left right held atLeft atRight

theorem Lists.create {id : Id} {After : Id → Prop} (lists : Lists keys owner Named)
    (free : keys slot = none) (named : ∀ other, After other ↔ other = id ∨ Named other) :
    Lists (update keys slot (some (owner, id))) owner After := by
  intro other
  rw [named other]
  constructor
  · rintro (rfl | before)
    · exact ⟨slot, update_self _ _ _⟩
    · obtain ⟨held, holds⟩ := (lists other).mp before
      have apart : held ≠ slot := by
        rintro rfl
        rw [free] at holds
        cases holds
      exact ⟨held, by rw [update_of_ne apart, holds]⟩
  · rintro ⟨held, holds⟩
    by_cases here : held = slot
    · rw [here, update_self] at holds
      cases holds
      exact Or.inl rfl
    · rw [update_of_ne here] at holds
      exact Or.inr ((lists other).mpr ⟨held, holds⟩)

theorem Lists.create_other {key : Owner × Id} (lists : Lists keys owner Named)
    (free : keys slot = none) (other : key.1 ≠ owner) :
    Lists (update keys slot (some key)) owner Named := by
  intro id
  rw [lists id]
  constructor
  · rintro ⟨held, holds⟩
    have apart : held ≠ slot := by
      rintro rfl
      rw [free] at holds
      cases holds
    exact ⟨held, by rw [update_of_ne apart, holds]⟩
  · rintro ⟨held, holds⟩
    by_cases here : held = slot
    · rw [here, update_self] at holds
      exact absurd (congrArg Prod.fst (Option.some.inj holds)) other
    · rw [update_of_ne here] at holds
      exact ⟨held, holds⟩

end Create

section Clear

variable {after : Slot → Option (Owner × Id)}

theorem Distinct.clear (distinct : Distinct keys)
    (kept : ∀ slot key, after slot = some key → keys slot = some key) : Distinct after :=
  fun left right key atLeft atRight =>
    distinct left right key (kept left key atLeft) (kept right key atRight)

/-- Clearing the records that an owner gives up keeps the directory exact. -/
theorem Lists.clear {After : Id → Prop} (lists : Lists keys owner Named)
    (Cleared : Slot → Prop) (Gone : Id → Prop)
    (cleared : ∀ slot key, after slot = some key ↔ keys slot = some key ∧ ¬ Cleared slot)
    (together : ∀ slot id, keys slot = some (owner, id) → (Cleared slot ↔ Gone id))
    (named : ∀ id, After id ↔ Named id ∧ ¬ Gone id) : Lists after owner After := by
  intro id
  rw [named id, lists id]
  constructor
  · rintro ⟨⟨slot, holds⟩, present⟩
    refine ⟨slot, (cleared slot _).mpr ⟨holds, ?_⟩⟩
    rw [together slot id holds]
    exact present
  · rintro ⟨slot, holds⟩
    obtain ⟨before, kept⟩ := (cleared slot _).mp holds
    rw [together slot id before] at kept
    exact ⟨⟨slot, before⟩, kept⟩

end Clear

end M4KK1.Lib
