import M4KK1.Lib.Run
import M4KK1.Mm.PageCalls

/-!
# Runs of the page allocator

`Conserves` is what every call keeps: free and live pages are exactly the seeded ones.
-/

namespace M4KK1.Mm

open M4KK1.Lib Function List

/-- A run of pages: its first page frame and its length. -/
abbrev Extent := Nat × Nat

def Extent.Has (extent : Extent) (page : Nat) : Prop :=
  extent.1 ≤ page ∧ page < extent.1 + extent.2

/-- Two extents without a common page, one below the other. -/
def Extent.Apart (left right : Extent) : Prop :=
  left.1 + left.2 ≤ right.1 ∨ right.1 + right.2 ≤ left.1

theorem Extent.Apart.disjoint {left right : Extent} {page : Nat} (apart : left.Apart right)
    (inLeft : left.Has page) : ¬ right.Has page := by
  rintro ⟨rightLow, rightHigh⟩
  obtain ⟨leftLow, leftHigh⟩ := inLeft
  unfold Extent.Apart at apart
  omega

/-- The allocator and the blocks its callers hold, with address and page count. -/
structure PageSystem where
  pages : Pages
  live : List (Nat × Nat)

/-- The pages behind an address. -/
def held (block : Nat × Nat) : Extent := (block.1 / 4096, block.2)

/-- What the users of the allocator do. -/
inductive PageAction where
  | allocate (pages : Nat)
  | free (address pages : Nat)
  /-- An owner overwrites the words where a free page would hold its links. -/
  | write (page next prev : Nat)

/-- `page` belongs to a live block. -/
def PageSystem.Live (system : PageSystem) (page : Nat) : Prop :=
  ∃ block ∈ system.live, (held block).Has page

inductive PageStep : PageSystem → PageAction → PageSystem → Prop where
  | allocate {system : PageSystem} {count address : Nat} {pages : Pages} (some : 1 ≤ count)
      (few : count ≤ 1024) (done : allocatePages system.pages count = (pages, address))
      (success : address ≠ 0) :
      PageStep system (.allocate count) ⟨pages, (address, count) :: system.live⟩
  | refuse {system : PageSystem} {count : Nat} {pages : Pages} (some : 1 ≤ count)
      (few : count ≤ 1024) (failed : allocatePages system.pages count = (pages, 0)) :
      PageStep system (.allocate count) ⟨pages, system.live⟩
  | free {system : PageSystem} {address count : Nat} (owned : (address, count) ∈ system.live) :
      PageStep system (.free address count)
        ⟨freePages system.pages address count, system.live.erase (address, count)⟩
  | write {system : PageSystem} {page next prev : Nat} (owned : system.Live page) :
      PageStep system (.write page next prev)
        ⟨{ system.pages with zone := { system.pages.zone with
            next := update system.pages.zone.next page next
            prev := update system.pages.zone.prev page prev } }, system.live⟩

/-- Seeding: `buddy_free_range` of each range in turn. -/
def seed (z : Zone) (ranges : List Extent) : Zone :=
  ranges.foldl (fun z range => buddyFreeRange z range.1 range.2) z

theorem seed_cons (z : Zone) (range : Extent) (ranges : List Extent) :
    seed z (range :: ranges) = seed (buddyFreeRange z range.1 range.2) ranges :=
  foldl_cons

/-- Ranges that lie in the zone and do not meet. -/
structure SeedRanges (base nr : Nat) (ranges : List Extent) : Prop where
  inside : ∀ range ∈ ranges, base ≤ range.1 ∧ range.1 + range.2 ≤ base + nr
  apart : ranges.Pairwise Extent.Apart

/-- `page` was given to the allocator. -/
def Seeded (ranges : List Extent) (page : Nat) : Prop := ∃ range ∈ ranges, range.Has page

/-- A freshly seeded allocator, whatever its pages and counters hold. -/
structure FreshPages (base nr : Nat) (ranges : List Extent) (system : PageSystem) : Prop where
  zone : ∃ next prev, system.pages.zone = seed (emptyZone base nr next prev) ranges
  live : system.live = []

variable {base nr : Nat}

/-- What every call keeps of the system, for the set of pages it was seeded with. -/
structure Conserves (seeded : Nat → Prop) (blocks : BlockMap 10 base nr) (system : PageSystem) :
    Prop where
  represents : Represents system.pages.zone blocks
  coalesced : blocks.Coalesced
  inside : ∀ block ∈ system.live, ∃ pfn, block.1 = pfn * 4096 ∧ 1 ≤ block.2 ∧ base ≤ pfn ∧
    pfn + block.2 ≤ base + nr
  apart : system.live.Pairwise fun left right => (held left).Apart (held right)
  busy : ∀ page, system.Live page → ¬ blocks.Covers page
  conserved : ∀ page, seeded page ↔ blocks.Covers page ∨ system.Live page

theorem seed_spec (geometry : Geometry base nr) (ranges : List Extent) :
    ∀ (z : Zone) (blocks : BlockMap 10 base nr), SeedRanges base nr ranges → Represents z blocks →
      blocks.Coalesced → (∀ page, Seeded ranges page → ¬ blocks.Covers page) →
      ∃ blocks' : BlockMap 10 base nr, Represents (seed z ranges) blocks' ∧ blocks'.Coalesced ∧
        ∀ page, blocks'.Covers page ↔ blocks.Covers page ∨ Seeded ranges page := by
  induction ranges with
  | nil =>
    intro z blocks _ represents coalesced _
    refine ⟨blocks, represents, coalesced, fun page => ?_⟩
    simp [Seeded]
  | cons range ranges ih =>
    intro z blocks seeds represents coalesced free
    obtain ⟨inside, apart⟩ := seeds
    obtain ⟨first, rest⟩ := pairwise_cons.mp apart
    obtain ⟨low, high⟩ := inside range mem_cons_self
    obtain ⟨blocks', represents', coalesced', same⟩ :=
      buddyFreeRange_spec geometry represents coalesced low high fun page inLow inHigh =>
        free page ⟨range, mem_cons_self, inLow, inHigh⟩
    obtain ⟨blocks'', represents'', coalesced'', same'⟩ :=
      ih (buddyFreeRange z range.1 range.2) blocks'
        ⟨fun other member => inside other (mem_cons_of_mem _ member), rest⟩ represents'
        coalesced' (by
          rintro page ⟨other, member, inOther⟩ covers
          rcases (same page).mp covers with old | inRange
          · exact free page ⟨other, mem_cons_of_mem _ member, inOther⟩ old
          · exact (first other member).disjoint inRange inOther)
    rw [seed_cons]
    refine ⟨blocks'', represents'', coalesced'', fun page => ?_⟩
    rw [same' page, same page, or_assoc]
    apply or_congr_right
    constructor
    · rintro (inRange | ⟨other, member, inOther⟩)
      · exact ⟨range, mem_cons_self, inRange⟩
      · exact ⟨other, mem_cons_of_mem _ member, inOther⟩
    · rintro ⟨other, member, inOther⟩
      rcases mem_cons.mp member with rfl | inRest
      · exact Or.inl inOther
      · exact Or.inr ⟨other, inRest, inOther⟩

theorem FreshPages.conserves {ranges : List Extent} {system : PageSystem}
    (geometry : Geometry base nr) (seeds : SeedRanges base nr ranges)
    (fresh : FreshPages base nr ranges system) :
    ∃ blocks : BlockMap 10 base nr, Conserves (Seeded ranges) blocks system := by
  obtain ⟨⟨next, prev, isSeeded⟩, nobody⟩ := fresh
  obtain ⟨blocks, represents, coalesced, same⟩ :=
    seed_spec geometry ranges (emptyZone base nr next prev) BlockMap.empty seeds
      (emptyZone_represents base nr next prev) BlockMap.coalesced_empty
      fun _ _ => BlockMap.not_covers_empty
  have noneLive : ∀ page, ¬ system.Live page := by
    rintro page ⟨block, member, -⟩
    rw [nobody] at member
    exact absurd member not_mem_nil
  refine ⟨blocks, isSeeded ▸ represents, coalesced, ?_, ?_, ?_, ?_⟩
  · rw [nobody]
    intro block member
    exact absurd member not_mem_nil
  · rw [nobody]
    exact List.Pairwise.nil
  · intro page live
    exact absurd live (noneLive page)
  · intro page
    rw [same page]
    simp [BlockMap.not_covers_empty, noneLive page]

namespace Conserves

variable {seeded : Nat → Prop} {blocks : BlockMap 10 base nr} {system : PageSystem}

theorem allocate {count address : Nat} {pages : Pages} (geometry : Geometry base nr)
    (conserves : Conserves seeded blocks system) (some : 1 ≤ count) (few : count ≤ 1024)
    (done : allocatePages system.pages count = (pages, address)) (success : address ≠ 0) :
    ∃ blocks' : BlockMap 10 base nr,
      Conserves seeded blocks' ⟨pages, (address, count) :: system.live⟩ := by
  obtain ⟨represents, coalesced, inside, apart, busy, conserved⟩ := conserves
  rcases allocatePages_spec geometry some few represents coalesced with
    failed | ⟨after, pfn, isDone, low, high, covered, blocks', represents', coalesced', same⟩
  · rw [failed] at done
    exact absurd (congrArg Prod.snd done).symm success
  · obtain ⟨rfl, rfl⟩ : after = pages ∧ pfn * 4096 = address := by
      simpa using isDone.symm.trans done
    have frame : held (pfn * 4096, count) = (pfn, count) := by simp [held]
    have liveCons : ∀ page, PageSystem.Live ⟨after, (pfn * 4096, count) :: system.live⟩ page ↔
        (pfn ≤ page ∧ page < pfn + count) ∨ system.Live page := by
      intro page
      simp [PageSystem.Live, frame, Extent.Has]
    refine ⟨blocks', represents', coalesced', ?_, ?_, ?_, ?_⟩
    · intro block member
      rcases mem_cons.mp member with rfl | old
      · exact ⟨pfn, rfl, some, low, high⟩
      · exact inside block old
    · refine pairwise_cons.mpr ⟨fun block member => ?_, apart⟩
      obtain ⟨other, isOther, otherSome, -, -⟩ := inside block member
      have otherHeld : held block = (other, block.2) := by simp [held, isOther]
      rw [frame, otherHeld]
      by_contra meets
      simp only [Extent.Apart, not_or, Nat.not_le] at meets
      -- The larger of the two first pages would be free and live.
      have shared : blocks.Covers (max pfn other) := covered _ (by omega) (by omega)
      refine busy (max pfn other) ⟨block, member, ?_⟩ shared
      rw [otherHeld]
      exact ⟨Nat.le_max_right _ _, show max pfn other < other + block.2 by omega⟩
    · intro page live covers
      obtain ⟨old, outside⟩ := (same page).mp covers
      rcases (liveCons page).mp live with new | oldLive
      · exact outside new
      · exact busy page oldLive old
    · intro page
      rw [conserved page, same page, liveCons page]
      constructor
      · rintro (covers | live)
        · by_cases taken : pfn ≤ page ∧ page < pfn + count
          · exact Or.inr (Or.inl taken)
          · exact Or.inl ⟨covers, taken⟩
        · exact Or.inr (Or.inr live)
      · rintro (⟨covers, -⟩ | ⟨inLow, inHigh⟩ | live)
        · exact Or.inl covers
        · exact Or.inl (covered page inLow inHigh)
        · exact Or.inr live

theorem split_live {block : Nat × Nat} (conserves : Conserves seeded blocks system)
    (owned : block ∈ system.live) :
    (∀ other ∈ system.live.erase block, (held block).Apart (held other)) ∧ ∀ page,
    system.Live page ↔
        (held block).Has page ∨ ∃ other ∈ system.live.erase block, (held other).Has page := by
  have moved := perm_cons_erase owned
  constructor
  · have symmetric : ∀ {left right : Nat × Nat}, (held left).Apart (held right) →
        (held right).Apart (held left) := fun apart => Or.symm apart
    exact (pairwise_cons.mp ((moved.pairwise_iff symmetric).mp conserves.apart)).1
  · intro page
    simp only [PageSystem.Live, moved.mem_iff, mem_cons]
    constructor
    · rintro ⟨other, rfl | rest, inOther⟩
      · exact Or.inl inOther
      · exact Or.inr ⟨other, rest, inOther⟩
    · rintro (inBlock | ⟨other, rest, inOther⟩)
      · exact ⟨block, Or.inl rfl, inBlock⟩
      · exact ⟨other, Or.inr rest, inOther⟩

theorem free {address count : Nat} (geometry : Geometry base nr)
    (conserves : Conserves seeded blocks system) (owned : (address, count) ∈ system.live) :
    ∃ blocks' : BlockMap 10 base nr, Conserves seeded blocks'
        ⟨freePages system.pages address count, system.live.erase (address, count)⟩ := by
  obtain ⟨others, split⟩ := conserves.split_live owned
  obtain ⟨represents, coalesced, inside, apart, busy, conserved⟩ := conserves
  obtain ⟨pfn, isAddress, some, low, high⟩ := inside _ owned
  dsimp only at isAddress some high
  have frame : held (address, count) = (pfn, count) := by simp [held, isAddress]
  rw [frame] at others split
  obtain ⟨blocks', represents', coalesced', same⟩ :=
    freePages_spec geometry some represents coalesced low high fun page inLow inHigh =>
      busy page ((split page).mpr (Or.inl ⟨inLow, inHigh⟩))
  rw [← isAddress] at represents'
  refine ⟨blocks', represents', coalesced', ?_, ?_, ?_, ?_⟩
  · intro block member
    exact inside block (mem_of_mem_erase member)
  · exact apart.sublist erase_sublist
  · rintro page ⟨other, member, inOther⟩ covers
    rcases (same page).mp covers with old | freed
    · exact busy page ((split page).mpr (Or.inr ⟨other, member, inOther⟩)) old
    · exact (others other member).disjoint freed inOther
  · intro page
    rw [conserved page, same page, split page, ← or_assoc]
    rfl

theorem write {page next prev : Nat} (conserves : Conserves seeded blocks system)
    (owned : system.Live page) :
    Conserves seeded blocks
      ⟨{ system.pages with zone := { system.pages.zone with
          next := update system.pages.zone.next page next
          prev := update system.pages.zone.prev page prev } }, system.live⟩ := by
  obtain ⟨⟨lists, listed⟩, coalesced, inside, apart, busy, conserved⟩ := conserves
  refine ⟨⟨lists, { listed with linked := ?_ }⟩, coalesced, inside, apart, busy, conserved⟩
  intro order bounded
  have unlisted : ∀ node ∈ lists order, node ≠ page := by
    rintro node member rfl
    rw [listed.member order bounded] at member
    exact busy node owned (BlockMap.covers_head member)
  refine (listed.linked order bounded).congr ?_ ?_
  · intro node member
    exact update_of_ne (unlisted node member) _ _
  · intro node member
    exact update_of_ne (unlisted node member) _ _

theorem step {action : PageAction} {next : PageSystem} (geometry : Geometry base nr)
    (conserves : Conserves seeded blocks system) (transition : PageStep system action next) :
    ∃ blocks' : BlockMap 10 base nr, Conserves seeded blocks' next := by
  cases transition with
  | allocate some few done success => exact conserves.allocate geometry some few done success
  | refuse some few failed =>
    rcases allocatePages_spec geometry some few conserves.represents conserves.coalesced with
      unchanged | ⟨after, pfn, isDone, low, -⟩
    · obtain ⟨rfl, -⟩ := Prod.mk.inj (unchanged.symm.trans failed)
      exact ⟨blocks, conserves⟩
    · obtain ⟨-, isZero⟩ := Prod.mk.inj (isDone.symm.trans failed)
      have := geometry.positive
      omega
  | free owned => exact conserves.free geometry owned
  | write owned => exact ⟨blocks, conserves.write owned⟩

end Conserves

theorem reachable_conserves {ranges : List Extent} {start final : PageSystem}
    {actions : List PageAction} (geometry : Geometry base nr) (seeds : SeedRanges base nr ranges)
    (fresh : FreshPages base nr ranges start) (run : Steps PageStep start actions final) :
    ∃ blocks : BlockMap 10 base nr, Conserves (Seeded ranges) blocks final := by
  refine run.invariant (fun system => ∃ blocks : BlockMap 10 base nr,
    Conserves (Seeded ranges) blocks system) ?_ (fresh.conserves geometry seeds)
  rintro system action next ⟨blocks, conserves⟩ transition
  exact conserves.step geometry transition

/-- The invariant of the allocator in its own terms. -/
structure BuddyInvariant (seeded : Nat → Prop) (system : PageSystem) (lists : Nat → List Nat) :
    Prop where
  linked : ∀ order, order < buddyMaxOrder →
    Linked system.pages.zone.next system.pages.zone.prev pfnNone pfnNone
      (system.pages.zone.freeHead order) (lists order)
  acyclic : ∀ order, order < buddyMaxOrder → (lists order).Nodup
  counted : ∀ order, order < buddyMaxOrder →
    (lists order).length = system.pages.zone.freeCount order
  marked : ∀ pfn, system.pages.zone.basePfn ≤ pfn →
    pfn < system.pages.zone.basePfn + system.pages.zone.nrPages →
    (∀ order, order < buddyMaxOrder →
      (system.pages.zone.orderMap (pfn - system.pages.zone.basePfn) = order ↔ pfn ∈ lists order)) ∧
    ((∀ order, order < buddyMaxOrder → pfn ∉ lists order) →
      system.pages.zone.orderMap (pfn - system.pages.zone.basePfn) = notHead)
  placed : ∀ order, order < buddyMaxOrder → ∀ pfn ∈ lists order, 2 ^ order ∣ pfn ∧
    system.pages.zone.basePfn ≤ pfn ∧
    pfn + 2 ^ order ≤ system.pages.zone.basePfn + system.pages.zone.nrPages
  apart : ∀ order, order < buddyMaxOrder → ∀ pfn ∈ lists order,
    ∀ order', order' < buddyMaxOrder → ∀ pfn' ∈ lists order', (pfn, order) ≠ (pfn', order') →
    Extent.Apart (pfn, 2 ^ order) (pfn', 2 ^ order')
  unowned : ∀ order, order < buddyMaxOrder → ∀ pfn ∈ lists order,
    ∀ block ∈ system.live, Extent.Apart (pfn, 2 ^ order) (held block)
  exclusive : system.live.Pairwise fun left right => (held left).Apart (held right)
  nrFree : system.pages.zone.nrFree =
    ∑ order ∈ Finset.range buddyMaxOrder, system.pages.zone.freeCount order * 2 ^ order
  conserved : ∀ page, seeded page ↔
    (∃ order < buddyMaxOrder, ∃ pfn ∈ lists order, Extent.Has (pfn, 2 ^ order) page) ∨
      system.Live page

theorem Conserves.invariant {seeded : Nat → Prop} {blocks : BlockMap 10 base nr}
    {system : PageSystem} (conserves : Conserves seeded blocks system) :
    ∃ lists, BuddyInvariant seeded system lists := by
  obtain ⟨⟨lists, listed⟩, -, inside, apart, busy, conserved⟩ := conserves
  have headOf : ∀ order, order < buddyMaxOrder → ∀ pfn, pfn ∈ lists order ↔
      blocks.head pfn = some order := fun order below =>
    listed.member order (Nat.le_of_lt_succ below)
  refine ⟨lists, ?_, ?_, ?_, ?_, ?_, ?_, ?_, apart, ?_, ?_⟩
  · intro order below
    exact listed.linked order (Nat.le_of_lt_succ below)
  · intro order below
    exact listed.nodup order (Nat.le_of_lt_succ below)
  · intro order below
    exact (listed.count order (Nat.le_of_lt_succ below)).symm
  · intro pfn low high
    rw [listed.basePfn] at low high ⊢
    rw [listed.nrPages] at high
    constructor
    · intro order below
      rw [headOf order below]
      exact Represents.orderMap_eq_iff ⟨lists, listed⟩ pfn (Nat.le_of_lt_succ below) low high
    · intro unlisted
      rw [listed.map pfn low high]
      cases isHead : blocks.head pfn with
      | none => rfl
      | some order =>
        have below : order < buddyMaxOrder := Nat.lt_succ_of_le (blocks.bounded isHead)
        exact absurd ((headOf order below pfn).mpr isHead) (unlisted order below)
  · intro order below pfn member
    rw [headOf order below] at member
    rw [listed.basePfn, listed.nrPages]
    exact ⟨blocks.aligned member, blocks.inside member⟩
  · intro order below pfn member order' below' pfn' member' different
    rw [headOf order below] at member
    rw [headOf order' below'] at member'
    rcases Nat.lt_trichotomy pfn pfn' with less | rfl | more
    · exact Or.inl (blocks.apart member member' less)
    · exact absurd (congrArg _ (Option.some.inj (member.symm.trans member'))) different
    · exact Or.inr (blocks.apart member' member more)
  · intro order below pfn member block owned
    rw [headOf order below] at member
    obtain ⟨first, isAddress, some, -, -⟩ := inside block owned
    have frame : held block = (first, block.2) := by simp [held, isAddress]
    by_contra meets
    have positive := Nat.two_pow_pos order
    simp only [Extent.Apart, frame, not_or, Nat.not_le] at meets
    refine busy (max pfn first) ⟨block, owned, ?_⟩ ⟨pfn, order, member, Nat.le_max_left _ _, ?_⟩
    · rw [frame]
      exact ⟨Nat.le_max_right _ _, show max pfn first < first + block.2 by omega⟩
    · omega
  · rw [listed.nrFree]
    refine Finset.sum_congr rfl fun order inRange => ?_
    rw [listed.count order (Nat.le_of_lt_succ (Finset.mem_range.mp inRange))]
  · intro page
    rw [conserved page]
    apply or_congr_left
    constructor
    · rintro ⟨pfn, order, isHead, inBlock⟩
      have below : order < buddyMaxOrder := Nat.lt_succ_of_le (blocks.bounded isHead)
      exact ⟨order, below, pfn, (headOf order below pfn).mpr isHead, inBlock⟩
    · rintro ⟨order, below, pfn, member, inBlock⟩
      exact ⟨pfn, order, (headOf order below pfn).mp member, inBlock⟩

/-- The free lists describe disjoint aligned blocks, and free and live pages are those seeded. -/
theorem buddy_invariant {ranges : List Extent} {start final : PageSystem}
    {actions : List PageAction} (geometry : Geometry base nr) (seeds : SeedRanges base nr ranges)
    (fresh : FreshPages base nr ranges start) (run : Steps PageStep start actions final) :
    ∃ lists, BuddyInvariant (Seeded ranges) final lists := by
  obtain ⟨blocks, conserves⟩ := reachable_conserves geometry seeds fresh run
  exact conserves.invariant

/-- Sixteen pages above the kernel, all seeded, with page contents of zero. -/
def smallSystem : PageSystem :=
  ⟨⟨seed (emptyZone 16384 16 (fun _ => 0) fun _ => 0) [(16384, 16)], 65536, 0⟩, []⟩

theorem smallGeometry : Geometry 16384 16 := ⟨by decide, by decide⟩

theorem smallSystem_fresh : SeedRanges 16384 16 [(16384, 16)] ∧
    FreshPages 16384 16 [(16384, 16)] smallSystem := by
  refine ⟨⟨fun range member => ?_, pairwise_singleton _ _⟩, ⟨fun _ => 0, fun _ => 0, rfl⟩, rfl⟩
  obtain rfl := mem_singleton.mp member
  exact ⟨Nat.le_refl _, Nat.le_refl _⟩

/-- Three pages taken from a zone of sixteen. -/
theorem buddy_invariant_small :
    ∃ final lists, Steps PageStep smallSystem [.allocate 3] final ∧
      final.live = [(67108864, 3)] ∧ BuddyInvariant (Seeded [(16384, 16)]) final lists := by
  have address : (allocatePages smallSystem.pages 3).2 = 67108864 := by decide +kernel
  have done : allocatePages smallSystem.pages 3 =
      ((allocatePages smallSystem.pages 3).1, 67108864) := by rw [← address]
  have run := Steps.refl.step (PageStep.allocate (by decide) (by decide) done (by decide))
  obtain ⟨lists, invariant⟩ :=
    buddy_invariant smallGeometry smallSystem_fresh.1 smallSystem_fresh.2 run
  exact ⟨_, lists, run, rfl, invariant⟩

/-- The zone has a free block of `order` at `pfn`. -/
def FreeBlock (z : Zone) (pfn order : Nat) : Prop :=
  z.basePfn ≤ pfn ∧ pfn < z.basePfn + z.nrPages ∧ order < buddyMaxOrder ∧
    z.orderMap (pfn - z.basePfn) = order

/-- The page is in a free block of the zone. -/
def FreePage (z : Zone) (page : Nat) : Prop :=
  ∃ pfn order, FreeBlock z pfn order ∧ Extent.Has (pfn, 2 ^ order) page

/-- The systems a seeded zone of this geometry can come to. -/
def ReachablePages (base nr : Nat) (system : PageSystem) : Prop :=
  ∃ ranges start actions, SeedRanges base nr ranges ∧ FreshPages base nr ranges start ∧
    Steps PageStep start actions system

namespace Conserves

variable {seeded : Nat → Prop} {blocks blocks' : BlockMap 10 base nr} {system other : PageSystem}

section

variable (conserves : Conserves seeded blocks system)

include conserves

theorem freeBlock_iff (pfn order : Nat) :
    FreeBlock system.pages.zone pfn order ↔ blocks.head pfn = some order := by
  have marks : order ≤ 10 → base ≤ pfn → pfn < base + nr →
      (system.pages.zone.orderMap (pfn - base) = order ↔ blocks.head pfn = some order) :=
    fun bounded => conserves.represents.orderMap_eq_iff pfn bounded
  obtain ⟨⟨lists, listed⟩, -⟩ := conserves
  rw [FreeBlock, listed.basePfn, listed.nrPages]
  constructor
  · rintro ⟨low, high, below, marked⟩
    exact (marks (Nat.le_of_lt_succ below) low high).mp marked
  · intro isHead
    have inside := (BlockMap.covers_head isHead).inside
    have bounded := blocks.bounded isHead
    exact ⟨inside.1, inside.2, Nat.lt_succ_of_le bounded,
      (marks bounded inside.1 inside.2).mpr isHead⟩

theorem freePage_iff (page : Nat) : FreePage system.pages.zone page ↔ blocks.Covers page := by
  simp only [FreePage, conserves.freeBlock_iff]
  rfl

theorem freeBlock_congr {seeded' : Nat → Prop} (conserves' : Conserves seeded' blocks' other)
    (same : ∀ page, blocks.Covers page ↔ blocks'.Covers page) (pfn order : Nat) :
    FreeBlock system.pages.zone pfn order ↔ FreeBlock other.pages.zone pfn order := by
  rw [conserves.freeBlock_iff, conserves'.freeBlock_iff,
    BlockMap.head_eq_of_covers conserves.coalesced conserves'.coalesced same]

theorem covers_iff (page : Nat) : blocks.Covers page ↔ seeded page ∧ ¬ system.Live page := by
  constructor
  · intro covers
    refine ⟨(conserves.conserved page).mpr (Or.inl covers), fun live => ?_⟩
    exact conserves.busy page live covers
  · rintro ⟨isSeeded, notLive⟩
    exact ((conserves.conserved page).mp isSeeded).resolve_right notLive

theorem freeBlock_of_live (conserves' : Conserves seeded blocks' other)
    (same : ∀ page, system.Live page ↔ other.Live page) (pfn order : Nat) :
    FreeBlock system.pages.zone pfn order ↔ FreeBlock other.pages.zone pfn order := by
  refine conserves.freeBlock_congr conserves' (fun page => ?_) pfn order
  rw [conserves.covers_iff, conserves'.covers_iff, same page]

end

end Conserves

def freeAction (block : Nat × Nat) : PageAction := .free block.1 block.2

theorem live_of_frees {start final : PageSystem} {actions : List PageAction}
    (run : Steps PageStep start actions final) :
    ∀ blocks : List (Nat × Nat), actions = blocks.map freeAction →
      final.live = start.live.diff blocks := by
  refine run.history (fun actions system => ∀ blocks : List (Nat × Nat),
    actions = blocks.map freeAction → system.live = start.live.diff blocks) ?_ ?_
  · intro actions system action next ih transition blocks isFrees
    obtain ⟨front, last, rfl, isFront, isLast⟩ := map_eq_append_iff.mp isFrees.symm
    obtain ⟨block, rfl, isBlock⟩ : ∃ block, last = [block] ∧ freeAction block = action := by
      simpa [map_eq_singleton_iff] using isLast
    rw [diff_append, ← ih front isFront.symm]
    subst isBlock
    cases transition with
    | free owned => simp [diff_cons, diff_nil]
  · intro blocks isFrees
    obtain rfl : blocks = [] := by simpa using isFrees.symm
    rfl

/-- No two buddies are free blocks, so the free pages determine the free blocks. -/
theorem buddy_coalesced {system : PageSystem} (geometry : Geometry base nr)
    (reachable : ReachablePages base nr system) :
    (∀ pfn order, order < 10 → FreeBlock system.pages.zone pfn order →
      ¬ FreeBlock system.pages.zone (buddyOf pfn order) order) ∧
    (∀ other, ReachablePages base nr other →
      (∀ page, FreePage system.pages.zone page ↔ FreePage other.pages.zone page) →
      ∀ pfn order, FreeBlock system.pages.zone pfn order ↔ FreeBlock other.pages.zone pfn order) ∧
    (∀ count pages address, 1 ≤ count → count ≤ 1024 →
      allocatePages system.pages count = (pages, address) → address ≠ 0 →
      ∀ pfn order, FreeBlock (freePages pages address count).zone pfn order ↔
        FreeBlock system.pages.zone pfn order) ∧
    (∀ (blocks blocks' : List (Nat × Nat)) left right, blocks.Perm blocks' →
      Steps PageStep system (blocks.map freeAction) left →
      Steps PageStep system (blocks'.map freeAction) right →
      ∀ pfn order, FreeBlock left.pages.zone pfn order ↔ FreeBlock right.pages.zone pfn order) := by
  obtain ⟨ranges, start, actions, seeds, fresh, run⟩ := reachable
  obtain ⟨blocks, conserves⟩ := reachable_conserves geometry seeds fresh run
  refine ⟨?_, ?_, ?_, ?_⟩
  · intro pfn order below isFree twinFree
    rw [conserves.freeBlock_iff] at isFree twinFree
    rw [buddyOf_eq] at twinFree
    exact conserves.coalesced isFree below twinFree
  · rintro other ⟨ranges', start', actions', seeds', fresh', run'⟩ same
    obtain ⟨blocks', conserves'⟩ := reachable_conserves geometry seeds' fresh' run'
    refine conserves.freeBlock_congr conserves' fun page => ?_
    rw [← conserves.freePage_iff, ← conserves'.freePage_iff, same page]
  · intro count pages address some few done success
    obtain ⟨taken, held⟩ := conserves.allocate geometry some few done success
    obtain ⟨given, released⟩ := held.free geometry mem_cons_self
    refine released.freeBlock_of_live conserves fun page => ?_
    simp [PageSystem.Live]
  · intro freed freed' left right reordered leftRun rightRun
    obtain ⟨leftBlocks, leftConserves⟩ :=
      reachable_conserves geometry seeds fresh (run.trans leftRun)
    obtain ⟨rightBlocks, rightConserves⟩ :=
      reachable_conserves geometry seeds fresh (run.trans rightRun)
    refine leftConserves.freeBlock_of_live rightConserves fun page => ?_
    rw [PageSystem.Live, PageSystem.Live, live_of_frees leftRun freed rfl,
      live_of_frees rightRun freed' rfl, reordered.diff_left]

theorem frees_pair {pages : Pages} {first second : Nat × Nat} (apart : first ≠ second) :
    (∃ left, Steps PageStep ⟨pages, [second, first]⟩ ([first, second].map freeAction) left) ∧
      ∃ right, Steps PageStep ⟨pages, [second, first]⟩ ([second, first].map freeAction) right := by
  have rest : [second, first].erase first = [second] := by
    rw [erase_cons_tail (by simpa using apart.symm), erase_cons_head]
  have kept : second ∈ [second, first].erase first := by
    rw [rest]
    exact mem_cons_self
  have keptToo : first ∈ [second, first].erase second := by
    rw [erase_cons_head]
    exact mem_cons_self
  exact ⟨⟨_, (Steps.refl.step (.free (mem_cons_of_mem _ mem_cons_self))).step (.free kept)⟩,
    ⟨_, (Steps.refl.step (.free mem_cons_self)).step (.free keptToo)⟩⟩

/-- Three pages and one page are taken, two more come and go, and the first are freed in either
order. -/
theorem buddy_coalesced_taken : ∃ system left right,
    Steps PageStep smallSystem [.allocate 3, .allocate 1] system ∧
    FreeBlock system.pages.zone 16388 2 ∧ ¬ FreeBlock system.pages.zone (buddyOf 16388 2) 2 ∧
    (allocatePages system.pages 2).2 ≠ 0 ∧
    (∀ pfn order, FreeBlock (freePages (allocatePages system.pages 2).1
        (allocatePages system.pages 2).2 2).zone pfn order ↔
      FreeBlock system.pages.zone pfn order) ∧
    Steps PageStep system ([(67108864, 3), (67121152, 1)].map freeAction) left ∧
    Steps PageStep system ([(67121152, 1), (67108864, 3)].map freeAction) right ∧
    ∀ pfn order, FreeBlock left.pages.zone pfn order ↔ FreeBlock right.pages.zone pfn order := by
  have first : (allocatePages smallSystem.pages 3).2 = 67108864 := by decide +kernel
  have second : (allocatePages (allocatePages smallSystem.pages 3).1 1).2 = 67121152 := by
    decide +kernel
  have isFree : FreeBlock (allocatePages (allocatePages smallSystem.pages 3).1 1).1.zone 16388
      2 := by
    unfold FreeBlock
    decide +kernel
  have success : (allocatePages (allocatePages (allocatePages smallSystem.pages 3).1 1).1 2).2 ≠
      0 := by
    decide +kernel
  have took : PageStep smallSystem (.allocate 3)
      ⟨(allocatePages smallSystem.pages 3).1, [(67108864, 3)]⟩ :=
    .allocate (by decide) (by decide) (Prod.ext rfl first) (by decide)
  generalize (allocatePages smallSystem.pages 3).1 = taken at took second isFree success
  have tookNext : PageStep ⟨taken, [(67108864, 3)]⟩ (.allocate 1)
      ⟨(allocatePages taken 1).1, [(67121152, 1), (67108864, 3)]⟩ :=
    .allocate (by decide) (by decide) (Prod.ext rfl second) (by decide)
  generalize (allocatePages taken 1).1 = pages at tookNext isFree success
  have run := (Steps.refl.step took).step tookNext
  obtain ⟨⟨left, leftRun⟩, right, rightRun⟩ := frees_pair
    (show (67108864, 3) ≠ (67121152, 1) by decide)
  obtain ⟨coalesced, -, returned, reordered⟩ := buddy_coalesced smallGeometry
    ⟨_, _, _, smallSystem_fresh.1, smallSystem_fresh.2, run⟩
  exact ⟨_, left, right, run, isFree, coalesced _ _ (by decide) isFree, success,
    returned 2 _ _ (by decide) (by decide) rfl success, leftRun, rightRun,
    reordered _ _ _ _ (.swap _ _ _) leftRun rightRun⟩

end M4KK1.Mm
