import M4KK1.Lib.RingBuffer

/-!
# Copies through a mask

A copy over `(offset + index) & mask` into `2 ^ width` cells, for any word as the mask.
-/

namespace M4KK1.Lib

open Function

variable {α : Type}

section Masks

variable {width mask offset count : Nat}

theorem and_lt_two_pow_iff {value : Nat} :
    value &&& mask < 2 ^ width ↔ (value / 2 ^ width) &&& (mask / 2 ^ width) = 0 := by
  rw [← Nat.shiftRight_eq_div_pow, ← Nat.shiftRight_eq_div_pow, ← Nat.shiftRight_and_distrib,
    Nat.shiftRight_eq_div_pow, Nat.div_eq_zero_iff_lt (Nat.two_pow_pos width)]

theorem second_half_iff {value : Nat} (low : 2 ^ width ≤ value) (high : value < 2 ^ (width + 1)) :
    value &&& mask < 2 ^ width ↔ mask.testBit width = false := by
  have one : value / 2 ^ width = 1 := by
    rw [Nat.div_eq_iff (Nat.two_pow_pos width)]
    rw [Nat.pow_succ] at high
    omega
  rw [and_lt_two_pow_iff, one, Nat.testBit_eq_decide_div_mod_eq, Nat.one_and_eq_mod_two]
  simp

/-- The offset is one the mask was applied to. -/
def CopyInside (width mask offset count : Nat) : Prop :=
  offset < 2 ^ width ∧ (offset + count ≤ 2 ^ width ∨ mask.testBit width = false)

theorem copyInside_iff (masked : offset &&& mask = offset) (some : 0 < count)
    (short : count ≤ 2 ^ width) :
    (∀ index < count, (offset + index) &&& mask < 2 ^ width) ↔
    CopyInside width mask offset count := by
  constructor
  · intro inside
    have starts : offset < 2 ^ width := by
      rw [← masked]
      exact inside 0 some
    refine ⟨starts, or_iff_not_imp_left.mpr fun beyond => ?_⟩
    have last := inside (count - 1) (by omega)
    exact (second_half_iff (by omega) (by rw [Nat.pow_succ]; omega)).mp last
  · rintro ⟨starts, ends⟩ index inside
    by_cases before : offset + index < 2 ^ width
    · exact Nat.lt_of_le_of_lt Nat.and_le_left before
    · exact (second_half_iff (by omega) (by rw [Nat.pow_succ]; omega)).mpr
        (ends.resolve_left (by omega))

end Masks

theorem CArray.read_inside {size index : Nat} {array : CArray α size} {value : α}
    (ran : array.read index = .ok value) : index < size := by
  rw [CArray.read] at ran
  split at ran
  · assumption
  · cases ran

theorem CArray.write_inside {size index : Nat} {array after : CArray α size} {value : α}
    (ran : array.write index value = .ok after) : index < size := by
  rw [CArray.write] at ran
  split at ran
  · assumption
  · cases ran

section Loops

variable {size other mask offset : Nat}

theorem ringLoad_inside {data : CArray α size} (count : Nat) :
    ∀ (target : CArray α other) (first : Nat), first + count ≤ other →
      (∀ index, first ≤ index → index < first + count → add32 offset index &&& mask < size) →
      ∃ after, ringLoad data mask offset target first count = .ok after ∧
        (∀ index < first, after.cell index = target.cell index) ∧
        ∀ index, first ≤ index → index < first + count →
          after.cell index = data.cell (add32 offset index &&& mask) := by
  induction count with
  | zero =>
    intro target first _ _
    exact ⟨target, rfl, fun _ _ => rfl, fun index low high => by omega⟩
  | succ count ih =>
    intro target first room inside
    obtain ⟨after, run, kept, copied⟩ := ih
      ⟨update target.cell first (data.cell (add32 offset first &&& mask))⟩ (first + 1)
      (by omega) fun index low high => inside index (by omega) (by omega)
    refine ⟨after, ?_, fun index before => ?_, fun index low high => ?_⟩
    · rw [ringLoad, CArray.read_eq (inside first (Nat.le_refl _) (by omega)), ok_bind,
        CArray.write_eq (by omega), ok_bind, run]
    · rw [kept index (by omega)]
      exact update_of_ne (by omega) _ _
    · rcases Nat.eq_or_lt_of_le low with rfl | later
      · rw [kept first (by omega)]
        exact update_self _ _ _
      · exact copied index later (by omega)

theorem inside_of_ringLoad {data : CArray α size} (count : Nat) :
    ∀ {target after : CArray α other} {first : Nat},
      ringLoad data mask offset target first count = .ok after →
      ∀ index, first ≤ index → index < first + count → add32 offset index &&& mask < size := by
  induction count with
  | zero => exact fun _ index low high => by omega
  | succ count ih =>
    intro target after first ran index low high
    obtain ⟨value, read, ran⟩ := bind_ok ran
    obtain ⟨middle, -, ran⟩ := bind_ok ran
    rcases Nat.eq_or_lt_of_le low with rfl | later
    · exact CArray.read_inside read
    · exact ih ran index later (by omega)

/-- The copy runs through exactly if every masked index is inside. -/
theorem ringStore_ok_iff {source : CArray α other} (count : Nat) :
    ∀ (data : CArray α size) (first : Nat), first + count ≤ other →
      ((∃ after, ringStore data mask offset source first count = .ok after) ↔
        ∀ index, first ≤ index → index < first + count → add32 offset index &&& mask < size) := by
  induction count with
  | zero => exact fun data first _ => iff_of_true ⟨data, rfl⟩ fun index low high => by omega
  | succ count ih =>
    intro data first room
    constructor
    · rintro ⟨after, ran⟩ index low high
      obtain ⟨value, -, ran⟩ := bind_ok ran
      obtain ⟨middle, wrote, ran⟩ := bind_ok ran
      rcases Nat.eq_or_lt_of_le low with rfl | later
      · exact CArray.write_inside wrote
      · exact (ih middle (first + 1) (by omega)).mp ⟨after, ran⟩ index later (by omega)
    · intro inside
      obtain ⟨after, run⟩ := (ih ⟨update data.cell (add32 offset first &&& mask)
        (source.cell first)⟩ (first + 1) (by omega)).mpr
        fun index low high => inside index (by omega) (by omega)
      refine ⟨after, ?_⟩
      rw [ringStore, CArray.read_eq (by omega), ok_bind,
        CArray.write_eq (inside first (Nat.le_refl _) (by omega)), ok_bind, run]

end Loops

end M4KK1.Lib
