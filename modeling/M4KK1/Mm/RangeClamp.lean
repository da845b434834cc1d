import M4KK1.Mm.PageCalls

/-!
# Ranges that are clamped to the zone

`buddy_free_range` cuts a range at both ends; a length may wrap for a range outside.
-/

namespace M4KK1.Mm

open M4KK1.Lib

@[simp] theorem nrFree_buddyListAdd (z : Zone) (order pfn : Nat) :
    (buddyListAdd z order pfn).nrFree = z.nrFree := rfl

@[simp] theorem nrFree_buddyListDel (z : Zone) (order pfn : Nat) :
    (buddyListDel z order pfn).nrFree = z.nrFree := rfl

theorem add32_double (count size : Nat) :
    add32 (sub32 count size) (size * 2) = add32 count size := by
  unfold add32 sub32
  omega

theorem nrFree_mergeLoop (fuel : Nat) : ∀ (z : Zone) (order pfn : Nat),
    add32 (mergeLoop fuel z order pfn).1.nrFree (2 ^ (mergeLoop fuel z order pfn).2.1) =
      add32 z.nrFree (2 ^ order) := by
  induction fuel with
  | zero => exact fun _ _ _ => rfl
  | succ fuel ih =>
    intro z order pfn
    rw [mergeLoop]
    split
    · dsimp only
      split
      · rfl
      · split
        · rfl
        · rw [ih, Nat.pow_succ, Nat.one_shiftLeft]
          exact add32_double z.nrFree (2 ^ order)
    · rfl

theorem nrFree_buddyFreeBlock (z : Zone) (order pfn : Nat) :
    (buddyFreeBlock z order pfn).nrFree = add32 z.nrFree (2 ^ order) := by
  rw [buddyFreeBlock, ← nrFree_mergeLoop buddyMaxOrder z order pfn, ← Nat.one_shiftLeft]
  rfl

/-- The condition of the inner loop of `buddy_free_range`. -/
def RunsOn (order endPfn first : Nat) : Prop :=
  sub32 endPfn first ≥ 1 <<< order ∧ first &&& sub32 (1 <<< order) 1 = 0

theorem freeRunLoop_ends {order : Nat} (bounded : order ≤ 10) (endPfn : Nat) (fuel : Nat) :
    ∀ (z : Zone) (first : Nat), first < 4294967296 → sub32 endPfn first ≤ fuel →
      ∃ z' first', freeRunLoop order endPfn fuel z first = (z', first') ∧ first' < 4294967296 ∧
        ¬ RunsOn order endPfn first' ∧
        add32 z'.nrFree (sub32 endPfn first') = add32 z.nrFree (sub32 endPfn first) := by
  have positive : 0 < 2 ^ order := Nat.two_pow_pos order
  have size : 2 ^ order ≤ 2 ^ 10 := Nat.pow_le_pow_right (by decide) bounded
  induction fuel with
  | zero =>
    intro z first small enough
    refine ⟨z, first, rfl, small, ?_, rfl⟩
    rintro ⟨long, -⟩
    rw [Nat.one_shiftLeft] at long
    omega
  | succ fuel ih =>
    intro z first small enough
    rw [freeRunLoop]
    split
    · rename_i runsOn
      have long := runsOn.1
      rw [Nat.one_shiftLeft] at long ⊢
      have shorter : sub32 endPfn (add32 first (2 ^ order)) = sub32 endPfn first - 2 ^ order :=
        sub32_add32_right long
      obtain ⟨z', first', ran, small', ended, count⟩ :=
        ih (buddyFreeBlock z order first) (add32 first (2 ^ order)) (add32_lt _ _) (by omega)
      refine ⟨z', first', ran, small', ended, ?_⟩
      rw [count, shorter, nrFree_buddyFreeBlock]
      unfold add32
      omega
    · rename_i stops
      exact ⟨z, first, rfl, small, stops, rfl⟩

theorem nrFree_freeOrdersLoop (endPfn : Nat) (count : Nat) :
    ∀ (z : Zone) (first : Nat), count ≤ 10 → first < 4294967296 →
      (freeOrdersLoop endPfn (count + 1) z first).1.nrFree % 4294967296 =
        add32 z.nrFree (sub32 endPfn first) := by
  induction count with
  | zero =>
    intro z first _ small
    obtain ⟨z', first', ran, -, ended, count⟩ :=
      freeRunLoop_ends (Nat.zero_le 10) endPfn _ z first small (Nat.le_refl _)
    -- every page is aligned to a page, so the loop of order 0 goes up to the end
    have atEnd : sub32 endPfn first' = 0 := by
      by_contra before
      have aligned := (aligned_iff first' (Nat.zero_le 10)).mpr (one_dvd _)
      exact ended ⟨Nat.pos_of_ne_zero before, aligned⟩
    rw [atEnd] at count
    rw [← count, freeOrdersLoop, ran]
    rfl
  | succ count ih =>
    intro z first few small
    obtain ⟨z', first', ran, small', -, count⟩ :=
      freeRunLoop_ends few endPfn _ z first small (Nat.le_refl _)
    rw [freeOrdersLoop, ran, ← count]
    exact ih z' first' (by omega) small'

theorem freeOrdersLoop_nothing (endPfn : Nat) (count : Nat) (z : Zone) :
    freeOrdersLoop endPfn count z endPfn = (z, endPfn) := by
  have nothing : sub32 endPfn endPfn = 0 := by
    unfold sub32
    omega
  induction count with
  | zero => rfl
  | succ count ih =>
    rw [freeOrdersLoop, nothing]
    exact ih

/-- The page that a range starts with when it is cut to the zone. -/
def clampedFirst (z : Zone) (first : Nat) : Nat := if first < z.basePfn then z.basePfn else first

def clampedEnd (z : Zone) (first count : Nat) : Nat :=
  if add32 first count > add32 z.basePfn z.nrPages then add32 z.basePfn z.nrPages
  else add32 first count

theorem buddyFreeRange_eq (z : Zone) (first count : Nat) : buddyFreeRange z first count =
      (freeOrdersLoop (clampedEnd z first count) buddyMaxOrder z (clampedFirst z first)).1 := rfl

theorem nrFree_buddyFreeRange {z : Zone} {first : Nat} (count : Nat)
    (small : z.basePfn < 4294967296)
    (small' : first < 4294967296) :
    (buddyFreeRange z first count).nrFree % 4294967296 =
      add32 z.nrFree (sub32 (clampedEnd z first count) (clampedFirst z first)) := by
  have below : clampedFirst z first < 4294967296 := by
    unfold clampedFirst
    split
    · exact small
    · exact small'
  have orders : buddyMaxOrder = 10 + 1 := rfl
  rw [buddyFreeRange_eq, orders]
  exact nrFree_freeOrdersLoop _ 10 z _ (Nat.le_refl 10) below

variable {base nr : Nat}

/-- The pages of a range in the zone become free, each counted once, and the loops end. -/
structure FreesClamped (z : Zone) (blocks : BlockMap 10 base nr) (first count : Nat) : Prop where
  freed : ∃ blocks' : BlockMap 10 base nr, Represents (buddyFreeRange z first count) blocks' ∧
    blocks'.Coalesced ∧ ∀ page, blocks'.Covers page ↔ blocks.Covers page ∨
      ((first ≤ page ∧ page < first + count) ∧ base ≤ page ∧ page < base + nr)
  counted : (buddyFreeRange z first count).nrFree =
    z.nrFree + (min (first + count) (base + nr) - max first base)
  outside : (∀ page, first ≤ page → page < first + count → ¬ (base ≤ page ∧ page < base + nr)) →
    buddyFreeRange z first count = z
  ends : ∀ order < buddyMaxOrder, ∀ (z' : Zone) (next : Nat), next < 4294967296 →
    ¬ RunsOn order (clampedEnd z first count)
      (freeRunLoop order (clampedEnd z first count)
        (sub32 (clampedEnd z first count) next) z' next).2

section Clamp

variable {z : Zone} {blocks : BlockMap 10 base nr} {first count : Nat}

theorem freeRunLoop_ended {order : Nat} (bounded : order < buddyMaxOrder) (endPfn : Nat) (z : Zone)
    {next : Nat} (small : next < 4294967296) :
    ¬ RunsOn order endPfn (freeRunLoop order endPfn (sub32 endPfn next) z next).2 := by
  obtain ⟨z', first', ran, -, ended, -⟩ :=
    freeRunLoop_ends (Nat.le_of_lt_succ bounded) endPfn _ z next small (Nat.le_refl _)
  rw [ran]
  exact ended

theorem Represents.nrFree_le (represents : Represents z blocks) : z.nrFree ≤ nr := by
  obtain ⟨lists, listed⟩ := represents
  rw [listed.nrFree]
  exact listed.sum_le

theorem clamped_eq (geometry : Geometry base nr) (represents : Represents z blocks)
    (small : first + count < 4294967296) :
    clampedFirst z first = max first base ∧ clampedEnd z first count =
      min (first + count) (base + nr) := by
  have limit := geometry.limit
  obtain ⟨lists, listed⟩ := represents
  have rangeEnd : add32 first count = first + count := add32_eq small
  have zoneEnd : add32 base nr = base + nr := add32_eq (by omega)
  unfold clampedFirst clampedEnd
  rw [listed.basePfn, listed.nrPages, rangeEnd, zoneEnd]
  constructor
  · split
    · omega
    · omega
  · split
    · omega
    · omega

theorem not_freesClamped (geometry : Geometry base nr) (represents : Represents z blocks)
    (small : first + count < 4294967296) (apart : first + count < base ∨ base + nr < first) :
    ¬ FreesClamped z blocks first count := by
  intro frees
  have limit := geometry.limit
  have unchanged : buddyFreeRange z first count = z := by
    apply frees.outside
    intro page low high
    omega
  obtain ⟨isFirst, isEnd⟩ := clamped_eq geometry represents small
  have few := represents.nrFree_le
  have isBase : z.basePfn = base := by
    obtain ⟨lists, listed⟩ := represents
    exact listed.basePfn
  have counted := nrFree_buddyFreeRange count (z := z) (by omega) (show first < 4294967296 by omega)
  rw [unchanged, isFirst, isEnd] at counted
  unfold add32 sub32 at counted
  omega

theorem freesClamped (geometry : Geometry base nr) (represents : Represents z blocks)
    (coalesced : blocks.Coalesced) (small : first + count < 4294967296)
    (near : base ≤ first + count ∧ first ≤ base + nr)
    (busy : ∀ page, first ≤ page → page < first + count → base ≤ page → page < base + nr →
      ¬ blocks.Covers page) : FreesClamped z blocks first count := by
  have limit := geometry.limit
  obtain ⟨isFirst, isEnd⟩ := clamped_eq geometry represents small
  have freed : Freed blocks (max first base) (min (first + count) (base + nr))
      (buddyFreeRange z first count) := by
    rw [buddyFreeRange_eq, isFirst, isEnd]
    refine freeOrdersLoop_spec geometry (Nat.min_le_right _ _) 10 z blocks _ (Nat.le_refl _)
      represents coalesced (Nat.le_max_right _ _) (by omega) ?_
    intro page low high
    exact busy page (by omega) (by omega) (by omega) (by omega)
  obtain ⟨blocks', represents', coalesced', same⟩ := freed
  refine ⟨⟨blocks', represents', coalesced', ?_⟩, ?_, ?_, ?_⟩
  · intro page
    rw [same page]
    apply or_congr_right
    omega
  · have few := represents.nrFree_le
    have few' := represents'.nrFree_le
    have isBase : z.basePfn = base := by
      obtain ⟨lists, listed⟩ := represents
      exact listed.basePfn
    have counted :=
      nrFree_buddyFreeRange count (z := z) (by omega) (show first < 4294967296 by omega)
    rw [isFirst, isEnd, sub32_eq (by omega) (by omega)] at counted
    unfold add32 at counted
    omega
  · intro none
    have empty : min (first + count) (base + nr) = max first base := by
      by_contra nonempty
      exact none (max first base) (by omega) (by omega) ⟨by omega, by omega⟩
    rw [buddyFreeRange_eq, isFirst, isEnd, empty, freeOrdersLoop_nothing]
  · intro order bounded z' next small
    exact freeRunLoop_ended bounded _ z' small

/-- A range is freed as it should be exactly when it meets the zone or touches it. -/
theorem range_clamp_iff (geometry : Geometry base nr) (represents : Represents z blocks)
    (coalesced : blocks.Coalesced) (small : first + count < 4294967296)
    (busy : ∀ page, first ≤ page → page < first + count → base ≤ page → page < base + nr →
      ¬ blocks.Covers page) :
    FreesClamped z blocks first count ↔ base ≤ first + count ∧ first ≤ base + nr := by
  constructor
  · intro frees
    by_contra away
    exact not_freesClamped geometry represents small (by omega) frees
  · intro near
    exact freesClamped geometry represents coalesced small near busy

end Clamp

/-- Sixteen pages, none of them free. -/
def busyZone : Zone := emptyZone 16384 16 (fun _ => 0) fun _ => 0

theorem busyGeometry : Geometry 16384 16 := ⟨by decide, by decide⟩

/-- A range that begins four pages below the zone. -/
theorem range_clamp_low : FreesClamped busyZone (BlockMap.empty : BlockMap 10 16384 16) 16380 10 :=
  (range_clamp_iff busyGeometry (emptyZone_represents ..) BlockMap.coalesced_empty (by decide)
    fun _ _ _ _ _ => BlockMap.not_covers_empty).mpr ⟨by decide, by decide⟩

/-- Page 0, which is below the zone: the code frees pages from the start of the zone on. -/
theorem not_range_clamp : ¬ ∀ first count, first + count < 4294967296 →
    (∀ page, first ≤ page → page < first + count → 16384 ≤ page → page < 16384 + 16 →
      ¬ (BlockMap.empty : BlockMap 10 16384 16).Covers page) →
    FreesClamped busyZone (BlockMap.empty : BlockMap 10 16384 16) first count := by
  intro frees
  refine not_freesClamped busyGeometry (emptyZone_represents ..) (by decide) (.inl (by decide))
    (frees 0 1 (by decide) ?_)
  exact fun _ _ _ _ _ => BlockMap.not_covers_empty

end M4KK1.Mm
