import M4KK1.Mm.PageRuns

/-!
# Seeding the zone from the memory map

`mkrn_memory_init` frees the pages of at most 64 regions of the multiboot memory map.
-/

namespace M4KK1.Mm

open M4KK1.Lib List

/-- `multiboot_mmap_entry_t`. -/
structure MmapEntry where
  addr : BitVec 64
  len : BitVec 64
  type : BitVec 32
deriving DecidableEq

def MmapEntry.available (entry : MmapEntry) : Bool := entry.type = 1#32

/-- What `mkrn_memory_init` reads of `multiboot_info_t`. -/
structure MultibootInfo where
  memory : Option (BitVec 32 × BitVec 32)
  memMap : Option (List MmapEntry)

/-- `M4K_MEM_TYPE_FREE` and `M4K_MEM_TYPE_RESERVED`. -/
inductive MemType where
  | free
  | reserved
deriving DecidableEq

/-- `mkrn_mem_region_t`. -/
structure Region where
  start : Nat
  size : Nat
  type : MemType
deriving DecidableEq

def maxMemoryRegions : Nat := 64

/-- The list `pMemoryRegions`, whose length is `u32MemoryRegionCount`, and the two
counters. -/
structure Regions where
  list : List Region
  totalMemory : Nat
  freeMemory : Nat

def memoryAddRegion (regions : Regions) (start size : Nat) (type : MemType) : Regions :=
  if regions.list.length ≥ maxMemoryRegions then regions
  else
    { list := ⟨start, size, type⟩ :: regions.list
      totalMemory := add32 regions.totalMemory size
      freeMemory := if type = .free then add32 regions.freeMemory size else regions.freeMemory }

/-- The turn of the loop over the memory map for one entry. -/
def addEntry (regions : Regions) (entry : MmapEntry) : Regions :=
  memoryAddRegion regions (entry.addr.toNat % 4294967296) (entry.len.toNat % 4294967296)
    (if entry.available then .free else .reserved)

def bootRegions (info : MultibootInfo) : Regions :=
  let regions : Regions := ⟨[], 0, 0⟩
  match info.memMap with
  | some entries => entries.foldl addEntry regions
  | none =>
    match info.memory with
    | none => regions
    | some (lower, upper) =>
      let regions :=
        if lower > 0#32 then memoryAddRegion regions 0 (lower.toNat * 1024 % 4294967296) .free
        else regions
      if upper > 0#32 then
        memoryAddRegion regions 0x100000 (upper.toNat * 1024 % 4294967296) .free
      else regions

/-- These, with the kernel's region and that of the GUI applications. -/
def allRegions (info : MultibootInfo) : Regions :=
  let regions := memoryAddRegion (bootRegions info) 0xC0000000 0x400000 .reserved
  memoryAddRegion regions 0x3000000 0x1000000 .reserved

/-- `zone_start`, for the address of `__heap_end`. -/
def zoneStart (heapEnd : Nat) : Nat :=
  if heapEnd > 0x4000000 then add32 heapEnd (pageSize - 1) / pageSize * pageSize else 0x4000000

def zoneEnd (info : MultibootInfo) (heapEnd : Nat) : Nat :=
  let total := (allRegions info).totalMemory
  let zoneEnd := if total > 512 * 1024 * 1024 then 512 * 1024 * 1024 else total
  if zoneEnd < zoneStart heapEnd then zoneStart heapEnd else zoneEnd

def regionRange (zoneStart zoneEnd : Nat) (region : Region) : Option Extent :=
  if region.type = .free then
    let s := region.start / pageSize
    let e := add32 region.start region.size / pageSize
    let e := if e > zoneEnd / pageSize then zoneEnd / pageSize else e
    let s := if s < zoneStart / pageSize then zoneStart / pageSize else s
    if s < e then some (s, e - s) else none
  else none

/-- The calls of `buddy_free_range` that the seeding loop makes. -/
def seededRanges (info : MultibootInfo) (heapEnd : Nat) : List Extent :=
  (allRegions info).list.filterMap (regionRange (zoneStart heapEnd) (zoneEnd info heapEnd))

/-- `mkrn_memory_init`, for the contents `next` and `prev` of the pages. -/
def memoryInit (info : MultibootInfo) (heapEnd : Nat) (next prev : Nat → Nat) : Pages :=
  let start := zoneStart heapEnd
  let empty := emptyZone (start / pageSize) ((zoneEnd info heapEnd - start) / pageSize) next prev
  let zone := seed empty (seededRanges info heapEnd)
  let free := zone.nrFree * pageSize % 4294967296
  { zone := zone
    freeMemory := free
    usedMemory := sub32 (allRegions info).totalMemory free }

/-- The whole page is in an available region. -/
def MmapEntry.Whole (entry : MmapEntry) (page : Nat) : Prop :=
  entry.available = true ∧ entry.addr.toNat ≤ page * pageSize ∧
    (page + 1) * pageSize ≤ entry.addr.toNat + entry.len.toNat

instance (entry : MmapEntry) (page : Nat) : Decidable (entry.Whole page) :=
  inferInstanceAs (Decidable (_ ∧ _ ∧ _))

/-- The page is one that the zone is made of. -/
def InWindow (info : MultibootInfo) (heapEnd page : Nat) : Prop :=
  zoneStart heapEnd / pageSize ≤ page ∧ page < zoneEnd info heapEnd / pageSize

/-- The page belongs to a block that the links of a free list lead to. -/
def OnFreeList (z : Zone) (page : Nat) : Prop :=
  ∃ order < buddyMaxOrder, ∃ steps, (∀ k ≤ steps, z.next^[k] (z.freeHead order) ≠ pfnNone) ∧
    Extent.Has (z.next^[steps] (z.freeHead order), 2 ^ order) page

/-- The free pages are the available ones in the window, each in one block. -/
structure SeedsMap (entries : List MmapEntry) (info : MultibootInfo) (heapEnd : Nat) (z : Zone) :
    Prop where
  inside : ∀ page, OnFreeList z page → ∃ entry ∈ entries, entry.Whole page
  once : ∀ page, (seededRanges info heapEnd).countP
    (fun range => range.1 ≤ page ∧ page < range.1 + range.2) ≤ 1
  complete : ∀ page, InWindow info heapEnd page → (∃ entry ∈ entries, entry.Whole page) →
    OnFreeList z page

/-- Seeding takes the entry for the page, by its 32-bit address and length. -/
def MmapEntry.truncatedHas (entry : MmapEntry) (page : Nat) : Bool :=
  entry.available && entry.addr.toNat % 4294967296 / pageSize ≤ page &&
    page < (entry.addr.toNat % 4294967296 + entry.len.toNat % 4294967296) % 4294967296 / pageSize

/-- Each whole AVAILABLE page is in exactly one of the first 64 entries, and no other page is. -/
def MapFits (entries : List MmapEntry) (info : MultibootInfo) (heapEnd : Nat) : Prop :=
  ∀ page, InWindow info heapEnd page →
    (entries.take maxMemoryRegions).countP (·.truncatedHas page) =
      if ∃ entry ∈ entries, entry.Whole page then 1 else 0

variable {base nr : Nat} {z : Zone} {info : MultibootInfo} {entries : List MmapEntry}
    {heapEnd : Nat}

theorem onFreeList_iff {blocks : BlockMap 10 base nr} (represents : Represents z blocks)
    (page : Nat) :
    OnFreeList z page ↔ blocks.Covers page := by
  obtain ⟨lists, listed⟩ := represents
  constructor
  · rintro ⟨order, below, steps, notNone, has⟩
    have bounded : order ≤ 10 := Nat.le_of_lt_succ below
    have member := (listed.linked order bounded).mem_iff_reached.mpr ⟨steps, notNone, rfl⟩
    exact ⟨_, order, (listed.member order bounded _).mp member, has⟩
  · rintro ⟨start, order, isHead, has⟩
    have bounded : order ≤ 10 := blocks.bounded isHead
    have member := (listed.member order bounded _).mpr isHead
    obtain ⟨steps, notNone, rfl⟩ := (listed.linked order bounded).mem_iff_reached.mp member
    exact ⟨order, Nat.lt_succ_of_le bounded, steps, notNone, has⟩

theorem zoneStart_aligned (heapEnd : Nat) :
    zoneStart heapEnd = zoneStart heapEnd / pageSize * pageSize := by
  simp only [zoneStart, pageSize]
  split <;> omega

theorem zoneStart_ge (fits : heapEnd + 4095 < 4294967296) : 0x4000000 ≤ zoneStart heapEnd := by
  simp only [zoneStart, pageSize]
  split
  · rw [add32_eq (by omega)]
    omega
  · exact Nat.le_refl _

theorem zoneStart_lt (heapEnd : Nat) : zoneStart heapEnd < 4294967296 := by
  rw [zoneStart, pageSize]
  have small := add32_lt heapEnd (4096 - 1)
  split <;> omega

theorem zoneEnd_eq (info : MultibootInfo) (heapEnd : Nat) : zoneEnd info heapEnd =
    max (zoneStart heapEnd) (min (allRegions info).totalMemory (512 * 1024 * 1024)) := by
  rw [zoneEnd]
  generalize zoneStart heapEnd = start
  generalize (allRegions info).totalMemory = total
  by_cases large : total > 512 * 1024 * 1024
  · rw [if_pos large]
    split <;> omega
  · rw [if_neg large]
    split <;> omega

theorem zoneStart_le_zoneEnd (info : MultibootInfo) (heapEnd : Nat) :
    zoneStart heapEnd ≤ zoneEnd info heapEnd := by
  rw [zoneEnd_eq]
  exact Nat.le_max_left _ _

theorem zoneEnd_lt (info : MultibootInfo) (heapEnd : Nat) : zoneEnd info heapEnd < 4294967296 := by
  have small := zoneStart_lt heapEnd
  rw [zoneEnd_eq]
  omega

theorem zone_end_eq (info : MultibootInfo) (heapEnd : Nat) :
    zoneStart heapEnd / pageSize + (zoneEnd info heapEnd - zoneStart heapEnd) / pageSize =
      zoneEnd info heapEnd / pageSize := by
  have aligned := zoneStart_aligned heapEnd
  have ordered := zoneStart_le_zoneEnd info heapEnd
  simp only [pageSize] at *
  omega

theorem zone_geometry (info : MultibootInfo) (fits : heapEnd + 4095 < 4294967296) :
    Geometry (zoneStart heapEnd / pageSize)
      ((zoneEnd info heapEnd - zoneStart heapEnd) / pageSize) := by
  have low := zoneStart_ge fits
  have high := zoneEnd_lt info heapEnd
  have isEnd := zone_end_eq info heapEnd
  simp only [pageSize] at *
  exact ⟨by omega, by omega⟩

def regionOf (entry : MmapEntry) : Region :=
  ⟨entry.addr.toNat % 4294967296, entry.len.toNat % 4294967296,
    if entry.available then .free else .reserved⟩

theorem foldl_addEntry (entries : List MmapEntry) : ∀ regions : Regions,
    (entries.foldl addEntry regions).list =
      ((entries.take (maxMemoryRegions - regions.list.length)).map regionOf).reverse ++
        regions.list := by
  induction entries with
  | nil => simp
  | cons entry entries ih =>
    intro regions
    rw [foldl_cons, ih]
    by_cases full : regions.list.length ≥ maxMemoryRegions
    · have refused : addEntry regions entry = regions := by
        rw [addEntry, memoryAddRegion, if_pos full]
      rw [refused, Nat.sub_eq_zero_of_le full]
      rfl
    · have added : (addEntry regions entry).list = regionOf entry :: regions.list := by
        rw [addEntry, memoryAddRegion, if_neg full]
        rfl
      obtain ⟨room, isRoom⟩ : ∃ room, maxMemoryRegions - regions.list.length = room + 1 :=
        ⟨maxMemoryRegions - regions.list.length - 1, by omega⟩
      have left : maxMemoryRegions - (addEntry regions entry).list.length = room := by
        rw [added, length_cons]
        omega
      rw [left, isRoom, added, take_succ_cons, map_cons, reverse_cons, append_assoc,
        singleton_append]

theorem filterMap_reserved (regions : Regions) (start size low high : Nat) :
    (memoryAddRegion regions start size .reserved).list.filterMap (regionRange low high) =
      regions.list.filterMap (regionRange low high) := by
  rw [memoryAddRegion]
  split
  · rfl
  · simp [regionRange]

theorem seededRanges_eq (isMap : info.memMap = some entries) :
    seededRanges info heapEnd = (((entries.take maxMemoryRegions).map regionOf).reverse).filterMap
      (regionRange (zoneStart heapEnd) (zoneEnd info heapEnd)) := by
  rw [seededRanges, allRegions, filterMap_reserved, filterMap_reserved, bootRegions, isMap]
  simp only [foldl_addEntry, length_nil, Nat.sub_zero, append_nil]

theorem regionRange_free {low high : Nat} {region : Region} (isFree : region.type = .free) :
    regionRange low high region =
      if max (region.start / pageSize) (low / pageSize) <
          min (add32 region.start region.size / pageSize) (high / pageSize) then
        some (max (region.start / pageSize) (low / pageSize),
          min (add32 region.start region.size / pageSize) (high / pageSize) -
            max (region.start / pageSize) (low / pageSize))
      else none := by
  have first : (if region.start / pageSize < low / pageSize then low / pageSize
      else region.start / pageSize) = max (region.start / pageSize) (low / pageSize) := by
    split <;> omega
  have last : (if add32 region.start region.size / pageSize > high / pageSize then high / pageSize
      else add32 region.start region.size / pageSize) =
        min (add32 region.start region.size / pageSize) (high / pageSize) := by
    split <;> omega
  simp only [regionRange, isFree, if_true, first, last]

theorem regionRange_spec {low high : Nat} {region : Region} {range : Extent}
    (isRange : regionRange low high region = some range) :
    low / pageSize ≤ range.1 ∧ range.1 + range.2 ≤ high / pageSize ∧ 0 < range.2 := by
  cases isType : region.type with
  | reserved =>
    rw [regionRange, isType] at isRange
    exact nomatch isRange
  | free =>
    rw [regionRange_free isType] at isRange
    split at isRange
    · obtain rfl := Option.some.inj isRange
      dsimp only
      omega
    · exact nomatch isRange

theorem regionRange_has {low high page : Nat} (entry : MmapEntry) (above : low / pageSize ≤ page)
    (below : page < high / pageSize) :
    ((regionRange low high (regionOf entry)).map fun range =>
        decide (range.1 ≤ page ∧ page < range.1 + range.2)).getD false =
          entry.truncatedHas page := by
  cases isAvailable : entry.available with
  | false => simp [regionRange, regionOf, MmapEntry.truncatedHas, isAvailable]
  | true =>
    have isFree : (regionOf entry).type = .free := if_pos isAvailable
    rw [regionRange_free isFree, MmapEntry.truncatedHas, isAvailable, Bool.true_and,
      Bool.eq_iff_iff]
    split
    case isTrue nonempty =>
      simp only [regionOf, add32] at nonempty
      simp only [Option.map_some, Option.getD_some, decide_eq_true_eq, Bool.and_eq_true, regionOf,
        add32]
      omega
    case isFalse empty =>
      simp only [regionOf, add32] at empty
      simp only [Option.map_none, Option.getD_none, decide_eq_true_eq, Bool.and_eq_true,
        Bool.false_eq_true, false_iff]
      omega

theorem countP_seededRanges (isMap : info.memMap = some entries) {page : Nat}
    (inWindow : InWindow info heapEnd page) :
    (seededRanges info heapEnd).countP (fun range => range.1 ≤ page ∧ page < range.1 + range.2) =
      (entries.take maxMemoryRegions).countP (·.truncatedHas page) := by
  rw [seededRanges_eq isMap, countP_filterMap, countP_reverse, countP_map]
  apply countP_congr
  intro entry _
  exact Bool.eq_iff_iff.mp (regionRange_has entry inWindow.1 inWindow.2)

theorem pairwise_apart {ranges : List Extent} (nonempty : ∀ range ∈ ranges, 0 < range.2)
    (once : ∀ page, ranges.countP (fun range => range.1 ≤ page ∧ page < range.1 + range.2) ≤ 1) :
    ranges.Pairwise Extent.Apart := by
  induction ranges with
  | nil => exact List.Pairwise.nil
  | cons range ranges ih =>
    refine pairwise_cons.mpr ⟨?_, ih ?_ ?_⟩
    · intro other member
      have here := nonempty range mem_cons_self
      have there := nonempty other (mem_cons_of_mem _ member)
      by_contra meet
      unfold Extent.Apart at meet
      -- two ranges that meet share the later one of their first pages
      obtain ⟨page, inRange, inOther⟩ : ∃ page, (range.1 ≤ page ∧ page < range.1 + range.2) ∧
          other.1 ≤ page ∧ page < other.1 + other.2 := ⟨max range.1 other.1, by omega, by omega⟩
      have twice := once page
      rw [countP_cons_of_pos (by simpa using inRange)] at twice
      have another : 0 < ranges.countP (fun range => range.1 ≤ page ∧ page < range.1 + range.2) :=
        countP_pos_iff.mpr ⟨other, member, decide_eq_true inOther⟩
      omega
    · exact fun other member => nonempty other (mem_cons_of_mem _ member)
    · intro page
      have atMost := once page
      rw [countP_cons] at atMost
      omega

theorem seedRanges_of_once (info : MultibootInfo) (heapEnd : Nat)
    (once : ∀ page, (seededRanges info heapEnd).countP
      (fun range => range.1 ≤ page ∧ page < range.1 + range.2) ≤ 1) :
    SeedRanges (zoneStart heapEnd / pageSize)
      ((zoneEnd info heapEnd - zoneStart heapEnd) / pageSize) (seededRanges info heapEnd) := by
  have ranged : ∀ range ∈ seededRanges info heapEnd, zoneStart heapEnd / pageSize ≤ range.1 ∧
      range.1 + range.2 ≤ zoneEnd info heapEnd / pageSize ∧ 0 < range.2 := by
    intro range member
    obtain ⟨region, -, isRange⟩ := mem_filterMap.mp member
    exact regionRange_spec isRange
  refine ⟨fun range member => ?_,
    pairwise_apart (fun range member => (ranged range member).2.2) once⟩
  rw [zone_end_eq]
  exact ⟨(ranged range member).1, (ranged range member).2.1⟩

theorem onFreeList_memoryInit (fits : heapEnd + 4095 < 4294967296) (next prev : Nat → Nat)
    (once : ∀ page, (seededRanges info heapEnd).countP
      (fun range => range.1 ≤ page ∧ page < range.1 + range.2) ≤ 1) (page : Nat) :
    OnFreeList (memoryInit info heapEnd next prev).zone page ↔
    Seeded (seededRanges info heapEnd) page := by
  have seeds := seedRanges_of_once info heapEnd once
  obtain ⟨blocks, represents, -, same⟩ := seed_spec (zone_geometry info fits)
    (seededRanges info heapEnd) _ BlockMap.empty seeds (emptyZone_represents _ _ next prev)
    BlockMap.coalesced_empty fun _ _ => BlockMap.not_covers_empty
  rw [memoryInit, onFreeList_iff represents, same page]
  simp [BlockMap.not_covers_empty]

theorem seeded_iff_countP (page : Nat) : Seeded (seededRanges info heapEnd) page ↔
    0 < (seededRanges info heapEnd).countP (fun range => range.1 ≤ page ∧
      page < range.1 + range.2) := by
  simp only [countP_pos_iff, decide_eq_true_eq]
  rfl

theorem inWindow_of_seeded {page : Nat} (seeded : Seeded (seededRanges info heapEnd) page) :
    InWindow info heapEnd page := by
  obtain ⟨range, member, low, high⟩ := seeded
  obtain ⟨region, -, isRange⟩ := mem_filterMap.mp member
  obtain ⟨start, last, -⟩ := regionRange_spec isRange
  exact ⟨by omega, by omega⟩

theorem seedsMap_iff (fits : heapEnd + 4095 < 4294967296) (isMap : info.memMap = some entries)
    (next prev : Nat → Nat) :
    SeedsMap entries info heapEnd (memoryInit info heapEnd next prev).zone ↔
      MapFits entries info heapEnd := by
  constructor
  · rintro ⟨inside, once, complete⟩ page inWindow
    have free := onFreeList_memoryInit fits next prev once page
    rw [seeded_iff_countP, countP_seededRanges isMap inWindow] at free
    have atMost := once page
    rw [countP_seededRanges isMap inWindow] at atMost
    split
    · rename_i whole
      have some := free.mp (complete page inWindow whole)
      omega
    · rename_i nothing
      by_contra some
      exact nothing (inside page (free.mpr (Nat.pos_of_ne_zero some)))
  · intro mapFits
    have once : ∀ page, (seededRanges info heapEnd).countP
        (fun range => range.1 ≤ page ∧ page < range.1 + range.2) ≤ 1 := by
      intro page
      by_contra twice
      have seeded : Seeded (seededRanges info heapEnd) page :=
        (seeded_iff_countP page).mpr (by omega)
      have inWindow := inWindow_of_seeded seeded
      have count := mapFits page inWindow
      rw [countP_seededRanges isMap inWindow] at twice
      split at count <;> omega
    have free := onFreeList_memoryInit fits next prev once
    refine ⟨?_, once, ?_⟩
    · intro page onList
      have seeded := (free page).mp onList
      have inWindow := inWindow_of_seeded seeded
      rw [seeded_iff_countP, countP_seededRanges isMap inWindow, mapFits page inWindow] at seeded
      by_contra nothing
      rw [if_neg nothing] at seeded
      exact absurd seeded (Nat.lt_irrefl 0)
    · intro page inWindow whole
      rw [free page, seeded_iff_countP, countP_seededRanges isMap inWindow, mapFits page inWindow,
        if_pos whole]
      exact Nat.one_pos

/-- Seeding is right exactly when the entries, cut to 32 bits, fit. -/
theorem map_seeding_iff (entries : List MmapEntry) (memory : Option (BitVec 32 × BitVec 32))
    (heapEnd : Nat) (fits : heapEnd + 4095 < 4294967296) (next prev : Nat → Nat) :
    SeedsMap entries ⟨memory, some entries⟩ heapEnd
        (memoryInit ⟨memory, some entries⟩ heapEnd next prev).zone ↔
      MapFits entries ⟨memory, some entries⟩ heapEnd :=
  seedsMap_iff fits rfl next prev

/-- A machine with 128 MiB of memory. -/
def plainMap : List MmapEntry := [⟨0#64, 0x9FC00#64, 1#32⟩, ⟨0x100000#64, 0x7F00000#64, 1#32⟩]

/-- Low memory, and the region from one MiB to the end. -/
theorem map_seeding_plain : SeedsMap plainMap ⟨none, some plainMap⟩ 0x69C000
    (memoryInit ⟨none, some plainMap⟩ 0x69C000 (fun _ => 0) fun _ => 0).zone := by
  refine (map_seeding_iff plainMap none 0x69C000 (by decide) _ _).mpr ?_
  intro page inWindow
  have low : 0x4000 ≤ page := inWindow.1
  have first : MmapEntry.truncatedHas ⟨0#64, 0x9FC00#64, 1#32⟩ page = false := by
    simp [MmapEntry.truncatedHas, MmapEntry.available, pageSize]
    omega
  have second : MmapEntry.truncatedHas ⟨0x100000#64, 0x7F00000#64, 1#32⟩ page =
      decide (page < 0x8000) := by
    simp [MmapEntry.truncatedHas, MmapEntry.available, pageSize]
    omega
  have whole : (∃ entry ∈ plainMap, entry.Whole page) ↔ page < 0x8000 := by
    simp [plainMap, MmapEntry.Whole, MmapEntry.available, pageSize]
    omega
  have counts : (plainMap.take maxMemoryRegions).countP (·.truncatedHas page) =
      if page < 0x8000 then 1 else 0 := by
    simp [plainMap, maxMemoryRegions, countP_cons, first, second]
  rw [counts]
  simp only [whole]

/-- An entry that does not start at a page: the page that it starts in is seeded. -/
theorem map_seeding_unaligned : ¬ ∀ (entries : List MmapEntry) (next prev : Nat → Nat),
    (entries.Pairwise fun left right => left.addr.toNat + left.len.toNat ≤ right.addr.toNat ∨
      right.addr.toNat + right.len.toNat ≤ left.addr.toNat) →
    SeedsMap entries ⟨none, some entries⟩ 0x69C000
      (memoryInit ⟨none, some entries⟩ 0x69C000 next prev).zone := by
  intro seeds
  have mapFits := (seedsMap_iff (by decide) rfl _ _).mp
    (seeds [⟨0x4000800#64, 0x8000000#64, 1#32⟩] (fun _ => 0) (fun _ => 0) (pairwise_singleton _ _))
  have counted := mapFits 0x4000 ⟨by decide, by decide⟩
  rw [if_neg (by decide)] at counted
  exact absurd counted (by decide)

end M4KK1.Mm
