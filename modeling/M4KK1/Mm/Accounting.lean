import M4KK1.Mm.RangeClamp
import M4KK1.Mm.Seeding

/-!
# The counters of free and used memory

The counters are credited with the tail of a block that they were never charged for.
-/

namespace M4KK1.Mm

open M4KK1.Lib

/-- `mkrn_memory_get_free()` is the size of the free pages, and with the used the total. -/
structure Accounts (total : Nat) (pages : Pages) : Prop where
  free : pages.freeMemory = pages.zone.nrFree * pageSize
  sum : pages.freeMemory + pages.usedMemory = total

/-- A call that returns a block asks for a power of two. -/
def AsksWhole (system : PageSystem) : PageAction → Prop
  | .allocate count => (allocatePages system.pages count).2 ≠ 0 → ∃ order, count = 2 ^ order
  | _ => True

theorem nrFree_expandLoop (order pfn : Nat) (count : Nat) : ∀ z : Zone,
    add32 (expandLoop order pfn count z).nrFree (2 ^ order) =
      add32 z.nrFree (2 ^ (order + count)) := by
  induction count with
  | zero => exact fun _ => rfl
  | succ count ih =>
    intro z
    rw [expandLoop, ih, nrFree_buddyListAdd, Nat.one_shiftLeft, ← Nat.add_assoc, Nat.pow_succ]
    dsimp only
    unfold add32
    omega

theorem nrFree_buddyAlloc {z z' : Zone} {order pfn : Nat} (done : buddyAlloc z order = (z', pfn)) :
    pfn = pfnNone ∨ add32 z'.nrFree (2 ^ order) = z.nrFree % 4294967296 := by
  by_cases large : order ≥ buddyMaxOrder
  · rw [buddyAlloc, if_pos large] at done
    exact .inl (congrArg Prod.snd done).symm
  · obtain ⟨above, inside, -⟩ := findFreeLoop_spec z 11 order (Nat.le_of_not_le large) (by omega)
    rw [buddyAlloc, if_neg large, show buddyMaxOrder = 11 from rfl] at done
    dsimp only at done
    generalize findFreeLoop z 11 order = cur at above inside done
    by_cases nothing : cur = 11
    · rw [if_pos nothing] at done
      exact .inl (congrArg Prod.snd done).symm
    · rw [if_neg nothing] at done
      obtain ⟨rfl, -⟩ := Prod.mk.inj done
      refine .inr ?_
      have sum : order + (cur - order) = cur := by omega
      rw [nrFree_expandLoop, sum, nrFree_buddyListDel, Nat.one_shiftLeft]
      unfold add32 sub32
      dsimp only
      omega

theorem orderLoop_least {pages enough : Nat} (fits : pages ≤ 2 ^ enough) (fuel : Nat) :
    ∀ order, order ≤ enough → orderLoop pages fuel order ≤ enough := by
  induction fuel with
  | zero => exact fun _ below => below
  | succ fuel ih =>
    intro order below
    rw [orderLoop, Nat.one_shiftLeft]
    split
    next less =>
      refine ih (order + 1) ?_
      by_contra top
      obtain rfl : order = enough := by omega
      exact absurd less (Nat.not_lt.mpr fits)
    next => exact below

variable {base nr : Nat}

theorem nrFree_buddyFreeRange_inside (geometry : Geometry base nr) {z : Zone}
    {blocks : BlockMap 10 base nr} (represents : Represents z blocks) {first count : Nat}
    (low : base ≤ first) (high : first + count ≤ base + nr) :
    (buddyFreeRange z first count).nrFree % 4294967296 = add32 z.nrFree count := by
  have limit := geometry.limit
  obtain ⟨isFirst, isEnd⟩ :=
    clamped_eq geometry represents (show first + count < 4294967296 by omega)
  have isBase : z.basePfn = base := by
    obtain ⟨lists, listed⟩ := represents
    exact listed.basePfn
  rw [nrFree_buddyFreeRange count (by omega) (by omega), isFirst, isEnd,
    Nat.max_eq_left low, Nat.min_eq_left high, sub32_eq (by omega) (by omega),
    Nat.add_sub_cancel_left]

theorem allocatePages_counts (geometry : Geometry base nr) {s s' : Pages}
    {blocks : BlockMap 10 base nr} {count address : Nat} (some : 1 ≤ count) (few : count ≤ 1024)
    (represents : Represents s.zone blocks) (coalesced : blocks.Coalesced)
    (done : allocatePages s count = (s', address)) (success : address ≠ 0) :
    ∃ got, count ≤ got ∧ got ≤ 1024 ∧ (got = count ↔ ∃ order, count = 2 ^ order) ∧
      add32 s'.zone.nrFree count = s.zone.nrFree % 4294967296 ∧
      s'.freeMemory = sub32 (if got > count then add32 s.freeMemory ((got - count) * pageSize)
        else s.freeMemory) (count * pageSize) ∧
      s'.usedMemory = add32 s.usedMemory (count * pageSize) := by
  have limit := geometry.limit
  have notZero : ¬ count = 0 := by omega
  obtain ⟨bounded, enough⟩ := orderLoop_spec few 32 0 (by decide) (by decide)
  have least : ∀ order, count = 2 ^ order → orderLoop count 32 0 ≤ order := fun order isPower =>
    orderLoop_least isPower.le 32 0 (Nat.zero_le _)
  simp only [allocatePages, if_neg notZero] at done
  generalize orderLoop count 32 0 = order at bounded enough least done
  have size : 2 ^ order ≤ 2 ^ 10 := Nat.pow_le_pow_right (by decide) bounded
  have whole : 2 ^ order = count ↔ ∃ order, count = 2 ^ order := by
    constructor
    · intro isPower
      exact ⟨order, isPower.symm⟩
    · rintro ⟨other, isPower⟩
      have atMost : 2 ^ order ≤ 2 ^ other := Nat.pow_le_pow_right (by decide) (least other isPower)
      omega
  refine ⟨2 ^ order, enough, size, whole, ?_⟩
  rcases buddyAlloc_spec geometry order represents coalesced with
    failed | ⟨z', pfn, isDone, low, high, -, blocks', represents', -, -⟩
  · rw [failed, if_pos rfl] at done
    exact absurd (congrArg Prod.snd done).symm success
  · have positive := Nat.two_pow_pos order
    have notNone : ¬ pfn = pfnNone := by
      unfold pfnNone
      omega
    have taken := (nrFree_buddyAlloc isDone).resolve_left notNone
    rw [isDone] at done
    simp only [if_neg notNone, Nat.one_shiftLeft] at done
    by_cases trimmed : 2 ^ order > count
    · simp only [if_pos trimmed] at done ⊢
      have tail : sub32 (2 ^ order) count = 2 ^ order - count := sub32_eq enough (by omega)
      have start : add32 pfn count = pfn + count := add32_eq (by omega)
      rw [tail, start] at done
      obtain ⟨rfl, -⟩ := Prod.mk.inj done
      have returned := nrFree_buddyFreeRange_inside geometry represents'
        (show base ≤ pfn + count by omega)
        (show pfn + count + (2 ^ order - count) ≤ base + nr by omega)
      refine ⟨?_, rfl, rfl⟩
      unfold add32 at taken returned ⊢
      dsimp only
      omega
    · simp only [if_neg trimmed] at done ⊢
      obtain ⟨rfl, -⟩ := Prod.mk.inj done
      obtain rfl : count = 2 ^ order := by omega
      exact ⟨taken, rfl, rfl⟩

theorem sub32_add32_ne {low tail taken : Nat} (some : 0 < tail) (small : low + taken < 4294967296)
    (short : tail < 4294967296) : sub32 (add32 (low + taken) tail) taken ≠ low := by
  unfold sub32 add32
  by_cases fits : low + taken + tail < 4294967296
  · rw [Nat.mod_eq_of_lt fits]
    omega
  · have wrapped : (low + taken + tail) % 4294967296 = low + taken + tail - 4294967296 := by omega
    rw [wrapped]
    omega

section Steps

variable {seeded : Nat → Prop} {blocks : BlockMap 10 base nr} {system next : PageSystem}
  {action : PageAction} {total : Nat}

theorem accounts_allocate (geometry : Geometry base nr)
    {blocks' : BlockMap 10 base nr} {count address : Nat} {pages : Pages} (some : 1 ≤ count)
    (few : count ≤ 1024) (represents : Represents system.pages.zone blocks)
    (coalesced : blocks.Coalesced) (represents' : Represents pages.zone blocks')
    (small : total < 4294967296) (accounts : Accounts total system.pages)
    (done : allocatePages system.pages count = (pages, address)) (success : address ≠ 0) :
    Accounts total pages ↔ ∃ order, count = 2 ^ order := by
  have limit := geometry.limit
  have positive := geometry.positive
  have before := represents.nrFree_le
  have after := represents'.nrFree_le
  obtain ⟨got, enough, bounded, whole, counted, isFree, isUsed⟩ :=
    allocatePages_counts geometry some few represents coalesced done success
  obtain ⟨free, sum⟩ := accounts
  unfold add32 at counted
  have fewer : system.pages.zone.nrFree = pages.zone.nrFree + count := by omega
  rw [← whole]
  simp only [pageSize] at *
  constructor
  · rintro ⟨free', -⟩
    by_contra trimmed
    -- the credit for the tail is left over
    have credited : sub32 (add32 (pages.zone.nrFree * 4096 + count * 4096) ((got - count) * 4096))
        (count * 4096) ≠ pages.zone.nrFree * 4096 := by
      apply sub32_add32_ne
      · omega
      · omega
      · omega
    have isBefore : system.pages.zone.nrFree * 4096 = pages.zone.nrFree * 4096 + count * 4096 := by
      omega
    rw [if_pos (by omega), free', free, isBefore] at isFree
    exact credited isFree.symm
  · intro isWhole
    have charged : sub32 (system.pages.zone.nrFree * 4096) (count * 4096) =
        pages.zone.nrFree * 4096 := by
      have covered : count * 4096 ≤ system.pages.zone.nrFree * 4096 :=
        Nat.mul_le_mul_right 4096 (by omega)
      rw [sub32_eq covered]
      · omega
      · omega
    have used : add32 system.pages.usedMemory (count * 4096) =
        system.pages.usedMemory + count * 4096 := by
      apply add32_eq
      omega
    rw [if_neg (by omega), free, charged] at isFree
    rw [used] at isUsed
    refine ⟨isFree, ?_⟩
    omega

theorem accounts_free (geometry : Geometry base nr) (large : nr * pageSize ≤ total)
    (conserves : Conserves seeded blocks system) {blocks' : BlockMap 10 base nr}
    {address count : Nat}
    (owned : (address, count) ∈ system.live)
    (represents' : Represents (freePages system.pages address count).zone blocks')
    (small : total < 4294967296) (accounts : Accounts total system.pages) :
    Accounts total (freePages system.pages address count) := by
  have limit := geometry.limit
  have positive := geometry.positive
  obtain ⟨pfn, isAddress, some, low, high⟩ := conserves.inside _ owned
  dsimp only at isAddress some high
  have notZero : ¬ count = 0 := by omega
  have frame : address >>> 12 = pfn := by
    rw [Nat.shiftRight_eq_div_pow, isAddress]
    omega
  have returned := nrFree_buddyFreeRange_inside geometry conserves.represents low high
  have after := represents'.nrFree_le
  obtain ⟨free, sum⟩ := accounts
  simp only [freePages, if_neg notZero, frame] at after ⊢
  have before := conserves.represents.nrFree_le
  unfold add32 at returned
  have more : (buddyFreeRange system.pages.zone pfn count).nrFree =
      system.pages.zone.nrFree + count := by omega
  rw [more] at after
  simp only [pageSize] at *
  have credited : add32 system.pages.freeMemory (count * 4096) =
      system.pages.freeMemory + count * 4096 := by
    apply add32_eq
    omega
  have covered : (system.pages.zone.nrFree + count) * 4096 ≤ total :=
    (Nat.mul_le_mul_right 4096 after).trans large
  have used : count * 4096 ≤ system.pages.usedMemory := by
    rw [Nat.add_mul, ← free, ← sum] at covered
    exact Nat.le_of_add_le_add_left covered
  have charged : sub32 system.pages.usedMemory (count * 4096) =
      system.pages.usedMemory - count * 4096 := by
    apply sub32_eq used
    omega
  rw [credited, charged]
  refine ⟨?_, ?_⟩
  · dsimp only
    rw [more, free, pageSize]
    omega
  · dsimp only
    omega

theorem accounts_step (geometry : Geometry base nr) (large : nr * pageSize ≤ total)
    (small : total < 4294967296) (conserves : Conserves seeded blocks system)
    (accounts : Accounts total system.pages) (transition : PageStep system action next) :
    Accounts total next.pages ↔ AsksWhole system action := by
  obtain ⟨blocks', conserves'⟩ := conserves.step geometry transition
  cases transition with
  | allocate some few done success =>
    have isCall := accounts_allocate geometry some few conserves.represents conserves.coalesced
      conserves'.represents small accounts done success
    rw [isCall, AsksWhole, done]
    exact ⟨fun isPower _ => isPower, fun asks => asks success⟩
  | refuse some few failed =>
    have same : AsksWhole system (.allocate _) := fun success => absurd (by rw [failed]) success
    rcases allocatePages_spec geometry some few conserves.represents conserves.coalesced with
      unchanged | ⟨after, pfn, isDone, low, -⟩
    · obtain ⟨rfl, -⟩ := Prod.mk.inj (unchanged.symm.trans failed)
      exact ⟨fun _ => same, fun _ => accounts⟩
    · obtain ⟨-, isZero⟩ := Prod.mk.inj (isDone.symm.trans failed)
      have positive := geometry.positive
      omega
  | free owned =>
    exact ⟨fun _ => trivial, fun _ =>
      accounts_free geometry large conserves owned conserves'.represents small accounts⟩
  | write owned => exact ⟨fun _ => trivial, fun _ => ⟨accounts.free, accounts.sum⟩⟩

end Steps

/-- The counters are right in every state that a run comes through. -/
def AccountedThroughout (total : Nat) (start : PageSystem) (actions : List PageAction) : Prop :=
  ∀ prior rest reached, actions = prior ++ rest → Steps PageStep start prior reached →
    Accounts total reached.pages

theorem totalMemory_memoryAddRegion {regions : Regions} (small : regions.totalMemory < 4294967296)
    (start size : Nat) (type : MemType) :
    (memoryAddRegion regions start size type).totalMemory < 4294967296 := by
  rw [memoryAddRegion]
  split
  · exact small
  · exact add32_lt _ _

theorem totalMemory_foldl (entries : List MmapEntry) : ∀ regions : Regions,
    regions.totalMemory < 4294967296 → (entries.foldl addEntry regions).totalMemory <
      4294967296 := by
  induction entries with
  | nil => exact fun _ small => small
  | cons entry entries ih =>
    exact fun regions small => ih (addEntry regions entry) (totalMemory_memoryAddRegion small _ _ _)

theorem totalMemory_bootRegions (info : MultibootInfo) :
    (bootRegions info).totalMemory < 4294967296 := by
  have nothing : (⟨[], 0, 0⟩ : Regions).totalMemory < 4294967296 := by decide
  rw [bootRegions]
  split
  · exact totalMemory_foldl _ _ nothing
  · split
    · exact nothing
    · have lower : ∀ regions : Regions, regions.totalMemory < 4294967296 → ∀ upper : BitVec 32,
          (if upper > 0#32 then
            memoryAddRegion regions 0x100000 (upper.toNat * 1024 % 4294967296) .free
            else regions).totalMemory < 4294967296 := by
        intro regions small upper
        split
        · exact totalMemory_memoryAddRegion small _ _ _
        · exact small
      apply lower
      split
      · exact totalMemory_memoryAddRegion nothing _ _ _
      · exact nothing

theorem totalMemory_lt (info : MultibootInfo) : (allRegions info).totalMemory < 4294967296 :=
  totalMemory_memoryAddRegion
      (totalMemory_memoryAddRegion (totalMemory_bootRegions info) _ _ _) _ _ _

theorem zone_le_totalMemory (info : MultibootInfo) (heapEnd : Nat) :
    (zoneEnd info heapEnd - zoneStart heapEnd) / pageSize * pageSize ≤
    (allRegions info).totalMemory := by
  rw [zoneEnd_eq, pageSize]
  omega

section Boot

variable {info : MultibootInfo} {heapEnd : Nat}

theorem freshPages_memoryInit (info : MultibootInfo) (heapEnd : Nat) (next prev : Nat → Nat) :
    FreshPages (zoneStart heapEnd / pageSize)
      ((zoneEnd info heapEnd - zoneStart heapEnd) / pageSize)
      (seededRanges info heapEnd) ⟨memoryInit info heapEnd next prev, []⟩ :=
  ⟨⟨next, prev, rfl⟩, rfl⟩

theorem accounts_memoryInit (fits : heapEnd + 4095 < 4294967296) (next prev : Nat → Nat)
    (once : ∀ page, (seededRanges info heapEnd).countP
      (fun range => range.1 ≤ page ∧ page < range.1 + range.2) ≤ 1) :
    Accounts (allRegions info).totalMemory (memoryInit info heapEnd next prev) := by
  obtain ⟨blocks, conserves⟩ := (freshPages_memoryInit info heapEnd next prev).conserves
    (zone_geometry info fits) (seedRanges_of_once info heapEnd once)
  have few : (memoryInit info heapEnd next prev).zone.nrFree * pageSize ≤
      (allRegions info).totalMemory :=
    (Nat.mul_le_mul_right pageSize conserves.represents.nrFree_le).trans
      (zone_le_totalMemory info heapEnd)
  have small := totalMemory_lt info
  have isFree : (memoryInit info heapEnd next prev).freeMemory =
      (memoryInit info heapEnd next prev).zone.nrFree * pageSize :=
    Nat.mod_eq_of_lt (few.trans_lt small)
  have isUsed : (memoryInit info heapEnd next prev).usedMemory =
      (allRegions info).totalMemory - (memoryInit info heapEnd next prev).freeMemory :=
    sub32_eq (isFree.le.trans few) small
  refine ⟨isFree, ?_⟩
  rw [isUsed]
  exact Nat.add_sub_cancel' (isFree.le.trans few)

/-- The counters are right exactly when each allocation that succeeds asks for a power of two. -/
theorem page_accounting_iff (fits : heapEnd + 4095 < 4294967296) (next prev : Nat → Nat)
    (once : ∀ page, (seededRanges info heapEnd).countP
      (fun range => range.1 ≤ page ∧ page < range.1 + range.2) ≤ 1) (actions : List PageAction) :
    AccountedThroughout (allRegions info).totalMemory ⟨memoryInit info heapEnd next prev,
      []⟩ actions ↔
      Throughout PageStep (fun before action _ => AsksWhole before action)
        ⟨memoryInit info heapEnd next prev, []⟩ actions := by
  have geometry := zone_geometry info fits
  have seeds := seedRanges_of_once info heapEnd once
  have fresh := freshPages_memoryInit info heapEnd next prev
  have large := zone_le_totalMemory info heapEnd
  have small := totalMemory_lt info
  constructor
  · intro accounted prior action rest before after split run transition
    obtain ⟨blocks, conserves⟩ := reachable_conserves geometry seeds fresh run
    have accounts := accounted prior (action :: rest) before split run
    have accounts' := accounted (prior ++ [action]) rest after (by simpa using split)
      (run.step transition)
    exact (accounts_step geometry large small conserves accounts transition).mp accounts'
  · intro whole prior rest reached split run
    induction run generalizing rest with
    | refl => exact accounts_memoryInit fits next prev once
    | @step current reached prior action run transition ih =>
      have split' : actions = prior ++ action :: rest := by simpa using split
      obtain ⟨blocks, conserves⟩ := reachable_conserves geometry seeds fresh run
      refine (accounts_step geometry large small conserves (ih _ split') transition).mpr ?_
      exact whole prior action rest current reached split' run transition

end Boot

/-- The machine with 128 MiB of memory. -/
def plainInfo : MultibootInfo := ⟨none, some plainMap⟩

def plainStart : PageSystem := ⟨memoryInit plainInfo 0x69C000 (fun _ => 0) fun _ => 0, []⟩

theorem seededRanges_plain : seededRanges plainInfo 0x69C000 = [(0x4000, 0x4000)] := by
  decide +kernel

theorem once_plain (page : Nat) : (seededRanges plainInfo 0x69C000).countP
    (fun range => range.1 ≤ page ∧ page < range.1 + range.2) ≤ 1 := by
  rw [seededRanges_plain]
  exact List.countP_le_length

/-- Four pages, then two, are taken, and the four are given back and taken again. -/
theorem page_accounting_reused : AccountedThroughout (allRegions plainInfo).totalMemory plainStart
    [.allocate 4, .allocate 2, .free 130023424 4, .allocate 4] := by
  refine (page_accounting_iff (by decide) (fun _ => 0) (fun _ => 0) once_plain _).mpr ?_
  intro prior action rest before after split run transition
  have listed : action ∈ [.allocate 4, .allocate 2, .free 130023424 4, .allocate 4] := by
    rw [split]
    exact List.mem_append_right _ List.mem_cons_self
  simp only [List.mem_cons, List.not_mem_nil, or_false] at listed
  rcases listed with rfl | rfl | rfl | rfl
  · exact fun _ => ⟨2, rfl⟩
  · exact fun _ => ⟨1, rfl⟩
  · trivial
  · exact fun _ => ⟨2, rfl⟩

/-- When three pages are taken, the fourth one is counted as free once more. -/
theorem not_page_accounting : ¬ ∀ actions final, Steps PageStep plainStart actions final →
    AccountedThroughout (allRegions plainInfo).totalMemory plainStart actions := by
  intro accounted
  have geometry := zone_geometry plainInfo (show 0x69C000 + 4095 < 4294967296 by decide)
  have seeds := seedRanges_of_once plainInfo 0x69C000 once_plain
  obtain ⟨blocks, conserves⟩ :=
    (freshPages_memoryInit plainInfo 0x69C000 (fun _ => 0) fun _ => 0).conserves geometry seeds
  have success : (allocatePages plainStart.pages 3).2 ≠ 0 := by decide +kernel
  have transition : PageStep plainStart (.allocate 3) _ :=
    .allocate (by decide) (by decide) rfl success
  have accounts := accounts_memoryInit (by decide) (fun _ => 0) (fun _ => 0) once_plain
  have accounts' :=
    accounted _ _ (.step .refl transition) [.allocate 3] [] _ rfl (.step .refl transition)
  have asks := (accounts_step geometry (zone_le_totalMemory plainInfo 0x69C000)
    (totalMemory_lt plainInfo) conserves accounts transition).mp accounts'
  obtain ⟨order, isPower⟩ := asks success
  match order with
  | 0 => exact absurd isPower (by decide)
  | 1 => exact absurd isPower (by decide)
  | order + 2 =>
    rw [Nat.pow_add] at isPower
    omega

theorem findFreeLoop_le {z : Zone} {order : Nat} (stocked : z.freeHead order ≠ pfnNone)
    (fuel cur : Nat)
    (le : cur ≤ order) : findFreeLoop z fuel cur ≤ order := by
  induction fuel generalizing cur with
  | zero => exact le
  | succ fuel ih =>
    rw [findFreeLoop]
    split
    · next empty =>
      have apart : cur ≠ order := fun same => stocked (same ▸ empty.2)
      exact ih (cur + 1) (by omega)
    · exact le

theorem le_orderLoop {pages : Nat} (fuel cur : Nat) (fits : pages ≤ 2 ^ (cur + fuel)) :
    pages ≤ 2 ^ orderLoop pages fuel cur := by
  induction fuel generalizing cur with
  | zero => exact fits
  | succ fuel ih =>
    rw [orderLoop, Nat.one_shiftLeft]
    split
    · exact ih (cur + 1) (by rwa [Nat.add_right_comm])
    · next enough => exact Nat.not_lt.mp enough

theorem freeHead_of_head {z : Zone} {blocks : BlockMap 10 base nr} {pfn order : Nat}
    (represents : Represents z blocks)
    (isHead : blocks.head pfn = some order) : z.freeHead order ≠ pfnNone := by
  obtain ⟨lists, listed⟩ := represents
  have bounded := blocks.bounded isHead
  have member := (listed.member order bounded pfn).mpr isHead
  intro isNone
  have linked := listed.linked order bounded
  cases isList : lists order with
  | nil => exact List.not_mem_nil (isList ▸ member)
  | cons head rest =>
    rw [isList] at linked
    exact linked.2.1 (linked.1.symm.trans isNone)

theorem allocatePages_address {s : Pages} {count : Nat} (positive : 1 ≤ count) :
    (allocatePages s count).2 =
      if orderLoop count 32 0 ≥ 11 ∨ findFreeLoop s.zone 11 (orderLoop count 32 0) = 11 then 0
      else s.zone.freeHead (findFreeLoop s.zone 11 (orderLoop count 32 0)) <<< 12 % 4294967296 := by
  have notZero : ¬count = 0 := by omega
  simp only [allocatePages, if_neg notZero, buddyAlloc]
  rw [show buddyMaxOrder = 11 from rfl]
  by_cases large : orderLoop count 32 0 ≥ 11
  · rw [if_pos large, if_pos rfl, if_pos (Or.inl large)]
  · obtain ⟨-, -, found⟩ := findFreeLoop_spec s.zone 11 (orderLoop count 32 0) (by omega) (by omega)
    rw [if_neg large]
    by_cases missing : findFreeLoop s.zone 11 (orderLoop count 32 0) = 11
    · rw [if_pos missing, if_pos rfl, if_pos (Or.inr missing)]
    · rw [if_neg missing, if_neg (not_or.mpr ⟨large, missing⟩)]
      dsimp only
      rw [if_neg (found missing)]

/-- A request succeeds exactly when some aligned block of at least its size has only free pages:
none fails because its pages were freed apart. -/
theorem allocate_succeeds_iff {system : PageSystem} {count : Nat} (geometry : Geometry base nr)
    (reachable : ReachablePages base nr system) (positive : 1 ≤ count) (few : count ≤ 2147483648) :
    (allocatePages system.pages count).2 ≠ 0 ↔
    ∃ order start, order < buddyMaxOrder ∧ count ≤ 2 ^ order ∧
      2 ^ order ∣ start ∧ ∀ page, Extent.Has (start, 2 ^ order) page →
      FreePage system.pages.zone page := by
  obtain ⟨ranges, start, actions, seeds, fresh, run⟩ := reachable
  obtain ⟨blocks, conserves⟩ := reachable_conserves geometry seeds fresh run
  have coalesced : blocks.Coalesced := conserves.coalesced
  obtain ⟨lists, listed⟩ := conserves.represents
  have enough : count ≤ 2 ^ orderLoop count 32 0 := le_orderLoop 32 0 (by omega)
  rw [allocatePages_address positive]
  constructor
  · intro success
    obtain ⟨small, isFound⟩ := not_or.mp (ite_ne_left_iff.mp success).1
    obtain ⟨above, inside, found⟩ :=
      findFreeLoop_spec system.pages.zone 11 (orderLoop count 32 0) (by omega) (by omega)
    have below : findFreeLoop system.pages.zone 11 (orderLoop count 32 0) ≤ 10 := by omega
    obtain ⟨rest, isCons⟩ := (listed.linked _ below).eq_cons (found isFound)
    have isHead := (listed.member _ below _).mp (isCons ▸ List.mem_cons_self)
    refine ⟨_, _, Nat.lt_succ_of_le below, enough.trans (Nat.pow_le_pow_right (by decide) above),
      blocks.aligned isHead, ?_⟩
    exact fun page inBlock => (conserves.freePage_iff page).mpr ⟨_, _, isHead, inBlock⟩
  · rintro ⟨order, start, below, covers, aligned, free⟩
    have least := orderLoop_least covers 32 0 (Nat.zero_le _)
    obtain ⟨outer, size, isHead, larger, -⟩ :=
      coalesced.covered_head (Nat.le_of_lt_succ below) aligned
      fun page low high => (conserves.freePage_iff page).mp (free page ⟨low, high⟩)
    have stops :=
      findFreeLoop_le (freeHead_of_head conserves.represents isHead) 11 _ (least.trans larger)
    have size_le := blocks.bounded isHead
    obtain ⟨above, inside, found⟩ :=
      findFreeLoop_spec system.pages.zone 11 (orderLoop count 32 0) (by omega) (by omega)
    have isFound : findFreeLoop system.pages.zone 11 (orderLoop count 32 0) ≠ 11 := by omega
    have cur_le : findFreeLoop system.pages.zone 11 (orderLoop count 32 0) ≤ 10 := by omega
    obtain ⟨rest, isCons⟩ := (listed.linked _ cur_le).eq_cons (found isFound)
    have first := listed.inside cur_le (isCons ▸ List.mem_cons_self)
    have isSome := geometry.positive
    have limit := geometry.limit
    rw [if_neg (not_or.mpr ⟨by omega, isFound⟩), Nat.shiftLeft_eq]
    omega

/-- Sixteen pages are one free block. -/
theorem allocate_succeeds_iff_small : (allocatePages smallSystem.pages 9).2 ≠ 0 := by
  refine (allocate_succeeds_iff smallGeometry ⟨_, _, _, smallSystem_fresh.1, smallSystem_fresh.2,
    .refl⟩ (by decide) (by decide)).mpr
    ⟨4, 16384, by decide, by decide, by decide, ?_⟩
  rintro page inBlock
  exact ⟨16384, 4, ⟨by decide +kernel, by decide +kernel, by decide, by decide +kernel⟩, inBlock⟩

end M4KK1.Mm
