import M4KK1.Mm.BuddyInvariant

/-!
# What the page calls do to the set of free pages

A call takes or gives back exactly its pages and leaves the free blocks coalesced.
-/

namespace M4KK1.Mm

open M4KK1.Lib

variable {base nr : Nat}

/-- The zone frees what `blocks` covers except the pages from `first` to `last`,
and is coalesced. -/
def Taken (blocks : BlockMap 10 base nr) (first last : Nat) (z : Zone) : Prop :=
  ∃ blocks' : BlockMap 10 base nr, Represents z blocks' ∧ blocks'.Coalesced ∧
    ∀ page, blocks'.Covers page ↔ blocks.Covers page ∧ ¬ (first ≤ page ∧ page < last)

theorem findFreeLoop_spec (z : Zone) (fuel : Nat) : ∀ cur, cur ≤ 11 → 11 ≤ cur + fuel →
      cur ≤ findFreeLoop z fuel cur ∧ findFreeLoop z fuel cur ≤ 11 ∧
      (findFreeLoop z fuel cur ≠ 11 → z.freeHead (findFreeLoop z fuel cur) ≠ pfnNone) := by
  induction fuel with
  | zero =>
    intro cur high enough
    refine ⟨Nat.le_refl _, high, fun notEnd => ?_⟩
    exact absurd (Nat.le_antisymm high enough) notEnd
  | succ fuel ih =>
    intro cur high enough
    rw [findFreeLoop]
    split
    · rename_i empty
      have below : cur < 11 := empty.1
      obtain ⟨forward, inside, found⟩ := ih (cur + 1) below (by omega)
      exact ⟨by omega, inside, found⟩
    · rename_i stops
      refine ⟨Nat.le_refl _, high, fun notEnd isNone => ?_⟩
      exact stops ⟨show cur < 11 by omega, isNone⟩

theorem expandLoop_spec (geometry : Geometry base nr) {order pfn : Nat} (count : Nat) :
    ∀ (z : Zone) (blocks : BlockMap 10 base nr), Represents z blocks → blocks.Coalesced →
      blocks.Room pfn (order + count) →
      Freed blocks (pfn + 2 ^ order) (pfn + 2 ^ (order + count))
        (expandLoop order pfn count z) := by
  induction count with
  | zero =>
    intro z blocks represents coalesced _
    refine ⟨blocks, represents, coalesced, fun page => ?_⟩
    simp
  | succ count ih =>
    intro z blocks represents coalesced room
    obtain ⟨aligned, bounded, ⟨low, high⟩, clear⟩ := room
    have limit := geometry.limit
    have double : 2 ^ (order + (count + 1)) = 2 ^ (order + count) + 2 ^ (order + count) := by
      rw [← Nat.add_assoc, Nat.pow_succ]
      omega
    have positive : 0 < 2 ^ (order + count) := Nat.two_pow_pos _
    have grows : 2 ^ order ≤ 2 ^ (order + count) :=
      Nat.pow_le_pow_right (by decide) (Nat.le_add_right _ _)
    have halfAligned : 2 ^ (order + count) ∣ pfn :=
      (two_pow_dvd_two_pow (by omega)).trans aligned
    have isBuddy : buddy pfn (order + count) = pfn + 2 ^ (order + count) := by
      rcases buddy_cases halfAligned with ⟨-, upper⟩ | ⟨space, even, -⟩
      · exact upper
      · have parent : 2 ^ (order + count + 1) ∣ pfn := aligned
        have := add_le_of_dvd even parent (by omega)
        rw [Nat.pow_succ] at this
        omega
    have half : add32 pfn (1 <<< (order + count)) = buddy pfn (order + count) := by
      rw [Nat.one_shiftLeft, add32_eq (by omega), isBuddy]
    have halfRoom : blocks.Room (buddy pfn (order + count)) (order + count) := by
      refine ⟨buddy_aligned halfAligned, by omega, ?_, ?_⟩
      · omega
      · intro page inLow inHigh
        exact clear page (by omega) (by omega)
    -- The lower half stays out, so its first page heads nothing.
    have alone : order + count < 10 →
        blocks.head (buddy (buddy pfn (order + count)) (order + count)) ≠ some (order + count) := by
      intro _ isHead
      rw [buddy_buddy] at isHead
      exact clear pfn (Nat.le_refl _) (by omega) (BlockMap.covers_head isHead)
    obtain ⟨lists, listed⟩ := represents
    have added := listed.add geometry halfRoom
    have restRoom : (blocks.insert _ _ halfRoom).Room pfn (order + count) := by
      refine ⟨halfAligned, by omega, by omega, fun page inLow inHigh covers => ?_⟩
      rcases BlockMap.covers_insert.mp covers with old | new
      · exact clear page inLow (by omega) old
      · omega
    obtain ⟨blocks', represents', coalesced', same⟩ :=
      ih _ _ ⟨_, added⟩ (coalesced.insert alone) restRoom
    simp only [expandLoop, half]
    refine ⟨blocks', represents', coalesced', fun page => ?_⟩
    rw [same page, BlockMap.covers_insert, or_assoc]
    apply or_congr_right
    omega

variable {blocks : BlockMap 10 base nr}

/-- An allocation fails, or takes an aligned block out of the free pages. -/
theorem buddyAlloc_spec (geometry : Geometry base nr) {z : Zone} (order : Nat)
    (represents : Represents z blocks) (coalesced : blocks.Coalesced) :
    buddyAlloc z order = (z, pfnNone) ∨
    ∃ z' pfn, buddyAlloc z order = (z', pfn) ∧ base ≤ pfn ∧ pfn + 2 ^ order ≤ base + nr ∧
      (∀ page, pfn ≤ page → page < pfn + 2 ^ order → blocks.Covers page) ∧
      Taken blocks pfn (pfn + 2 ^ order) z' := by
  by_cases large : order ≥ buddyMaxOrder
  · exact Or.inl (by rw [buddyAlloc, if_pos large])
  · have small : order < 11 := Nat.lt_of_not_le large
    obtain ⟨above, inside, found⟩ := findFreeLoop_spec z 11 order (by omega) (by omega)
    simp only [buddyAlloc, if_neg large]
    rw [show buddyMaxOrder = 11 from rfl]
    generalize findFreeLoop z 11 order = cur at above inside found ⊢
    by_cases nothing : cur = 11
    · exact Or.inl (if_pos nothing)
    · rw [if_neg nothing]
      obtain ⟨lists, listed⟩ := represents
      have bounded : cur ≤ 10 := by omega
      obtain ⟨rest, isCons⟩ := (listed.linked cur bounded).eq_cons (found nothing)
      have isHead : blocks.head (z.freeHead cur) = some cur :=
        (listed.member cur bounded _).mp (isCons ▸ List.mem_cons_self)
      generalize z.freeHead cur = pfn at isHead ⊢
      obtain ⟨low, high⟩ := blocks.inside isHead
      have grows : 2 ^ order ≤ 2 ^ cur := Nat.pow_le_pow_right (by decide) above
      have positive : 0 < 2 ^ order := Nat.two_pow_pos order
      have sum : order + (cur - order) = cur := by omega
      have room : (blocks.erase pfn).Room pfn (order + (cur - order)) := by
        rw [sum]
        refine ⟨blocks.aligned isHead, bounded, ⟨low, high⟩, fun page inLow inHigh covers => ?_⟩
        exact ((BlockMap.covers_erase isHead).mp covers).2 ⟨inLow, inHigh⟩
      obtain ⟨blocks', represents', coalesced', same⟩ :=
        expandLoop_spec geometry (cur - order) _ _ (listed.del geometry isHead) coalesced.erase room
      refine Or.inr ⟨_, pfn, rfl, low, by omega, ?_, blocks', represents', coalesced', ?_⟩
      · intro page inLow inHigh
        exact ⟨pfn, cur, isHead, inLow, by omega⟩
      · intro page
        rw [same page, sum, BlockMap.covers_erase isHead]
        constructor
        · rintro (⟨covers, outside⟩ | ⟨inLow, inHigh⟩)
          · exact ⟨covers, by omega⟩
          · exact ⟨⟨pfn, cur, isHead, by omega, inHigh⟩, by omega⟩
        · rintro ⟨covers, outside⟩
          by_cases inBlock : pfn ≤ page ∧ page < pfn + 2 ^ cur
          · exact Or.inr (by omega)
          · exact Or.inl ⟨covers, inBlock⟩

theorem orderLoop_spec {pages : Nat} (few : pages ≤ 1024) (fuel : Nat) :
    ∀ order, order ≤ 10 → 10 ≤ order + fuel →
      orderLoop pages fuel order ≤ 10 ∧ pages ≤ 2 ^ orderLoop pages fuel order := by
  induction fuel with
  | zero =>
    intro order bounded enough
    obtain rfl : order = 10 := by omega
    exact ⟨Nat.le_refl _, few⟩
  | succ fuel ih =>
    intro order bounded enough
    rw [orderLoop, Nat.one_shiftLeft]
    split
    · rename_i less
      refine ih (order + 1) ?_ (by omega)
      by_contra top
      obtain rfl : order = 10 := by omega
      exact absurd less (Nat.not_lt.mpr few)
    · rename_i enoughPages
      exact ⟨bounded, Nat.not_lt.mp enoughPages⟩

/-- So does one of pages, which gives the tail back. -/
theorem allocatePages_spec (geometry : Geometry base nr) {s : Pages}
    {pages : Nat} (some : 1 ≤ pages) (few : pages ≤ 1024)
    (represents : Represents s.zone blocks) (coalesced : blocks.Coalesced) :
    allocatePages s pages = (s, 0) ∨
    ∃ s' pfn, allocatePages s pages = (s', pfn * 4096) ∧ base ≤ pfn ∧ pfn + pages ≤ base + nr ∧
      (∀ page, pfn ≤ page → page < pfn + pages → blocks.Covers page) ∧
      Taken blocks pfn (pfn + pages) s'.zone := by
  have limit := geometry.limit
  have notZero : ¬ pages = 0 := by omega
  obtain ⟨bounded, enough⟩ := orderLoop_spec few 32 0 (by decide) (by decide)
  simp only [allocatePages, if_neg notZero]
  generalize orderLoop pages 32 0 = order at bounded enough ⊢
  have size : 2 ^ order ≤ 2 ^ 10 := Nat.pow_le_pow_right (by decide) bounded
  rcases buddyAlloc_spec geometry order represents coalesced with
    failed | ⟨z', pfn, done, low, high, covered, blocks', represents', coalesced', same⟩
  · exact Or.inl (by rw [failed]; exact if_pos rfl)
  · have notNone : ¬ pfn = pfnNone := by
      have := Nat.two_pow_pos order
      unfold pfnNone
      omega
    have address : pfn <<< 12 % 4294967296 = pfn * 4096 := by
      have := Nat.two_pow_pos order
      rw [Nat.shiftLeft_eq]
      omega
    rw [done]
    simp only [if_neg notNone, Nat.one_shiftLeft, address]
    refine Or.inr ⟨_, pfn, rfl, low, by omega, ?_, ?_⟩
    · intro page inLow inHigh
      exact covered page inLow (by omega)
    · by_cases trimmed : 2 ^ order > pages
      · simp only [if_pos trimmed]
        have tail : sub32 (2 ^ order) pages = 2 ^ order - pages := sub32_eq enough (by omega)
        have start : add32 pfn pages = pfn + pages := add32_eq (by omega)
        rw [tail, start]
        obtain ⟨blocks'', represents'', coalesced'', same'⟩ :=
          buddyFreeRange_spec geometry represents' coalesced' (by omega)
            (show pfn + pages + (2 ^ order - pages) ≤ base + nr by omega)
            (fun page inLow inHigh covers => ((same page).mp covers).2 ⟨by omega, by omega⟩)
        refine ⟨blocks'', represents'', coalesced'', fun page => ?_⟩
        rw [same' page, same page]
        constructor
        · rintro (⟨covers, outside⟩ | ⟨inLow, inHigh⟩)
          · exact ⟨covers, by omega⟩
          · exact ⟨covered page (by omega) (by omega), by omega⟩
        · rintro ⟨covers, outside⟩
          by_cases inBlock : pfn ≤ page ∧ page < pfn + 2 ^ order
          · exact Or.inr (by omega)
          · exact Or.inl ⟨covers, inBlock⟩
      · simp only [if_neg trimmed]
        obtain rfl : pages = 2 ^ order := by omega
        exact ⟨blocks', represents', coalesced', same⟩

/-- Pages that are freed are free. -/
theorem freePages_spec (geometry : Geometry base nr) {s : Pages} {pfn pages : Nat}
    (some : 1 ≤ pages) (represents : Represents s.zone blocks)
    (coalesced : blocks.Coalesced) (low : base ≤ pfn) (high : pfn + pages ≤ base + nr)
    (busy : ∀ page, pfn ≤ page → page < pfn + pages → ¬ blocks.Covers page) :
    Freed blocks pfn (pfn + pages) (freePages s (pfn * 4096) pages).zone := by
  have notZero : ¬ pages = 0 := by omega
  have frame : (pfn * 4096) >>> 12 = pfn := by
    rw [Nat.shiftRight_eq_div_pow]
    omega
  simp only [freePages, if_neg notZero, frame]
  exact buddyFreeRange_spec geometry represents coalesced low high busy

end M4KK1.Mm
