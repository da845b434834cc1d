import M4KK1.Lib.CheckedArray
import M4KK1.Lib.Word32
import M4KK1.Lib.LinkedList
import Mathlib.Order.Interval.Finset.Nat

/-!
# The kernel heap

`memory.c`: the fields of a block header are functions of its address.
-/

namespace M4KK1.Mm

open Function List M4KK1.Lib

/-- `sizeof(mkrn_mem_block_t)` -/
def headerSize : Nat := 20

/-- The block headers and the variables of the kernel heap. -/
structure Heap where
  start : Nat → Nat
  size : Nat → Nat
  used : Nat → Bool
  next : Nat → Nat
  prev : Nat → Nat
  /-- `pKernelHeapBlocks` -/
  kernelHeapBlocks : Nat
  /-- `u32KernelHeapStart`, the first byte that was never handed out. -/
  kernelHeapStart : Nat
  /-- `u32KernelHeapEnd` -/
  kernelHeapEnd : Nat
  freeMemory : Nat
  usedMemory : Nat

/-- A walk that takes more turns has come back to a block and never ends. -/
def walkLimit : Nat := 4294967296

/-- `(size + 7) & ~7` -/
def roundedSize (size : Nat) : Nat := add32 size 7 / 8 * 8

/-- The search of `mkrn_alloc` for a free block of `size` bytes, from `block` on. -/
def findFit (h : Heap) (size : Nat) : Nat → Nat → Except Fault (Option Nat)
  | 0, _ => .error .outOfFuel
  | fuel + 1, block =>
    if block = 0 then .ok none
    else if h.used block = false ∧ h.size block ≥ size then .ok (some block)
    else findFit h size fuel (h.next block)

/-- The part of `mkrn_alloc` that cuts the end off a block that is too large. -/
def splitBlock (h : Heap) (block size : Nat) : Heap :=
  if h.size block > add32 (add32 size headerSize) 8 then
    let new := add32 (add32 block headerSize) size
    let prev := update h.prev new block
    { h with
      start := update h.start new (add32 (add32 (h.start block) headerSize) size)
      used := update h.used new false
      prev := if h.next block ≠ 0 then update prev (h.next block) new else prev
      size := update
        (update h.size new (sub32 (sub32 (h.size block) headerSize) size)) block size
      next := update (update h.next new (h.next block)) block new }
  else h

/-- The counters after `size` bytes were handed out. -/
def countUsed (h : Heap) (size : Nat) : Heap :=
  { h with usedMemory := add32 h.usedMemory size, freeMemory := sub32 h.freeMemory size }

/-- The part of `mkrn_alloc` that takes a new block from the end of the heap. -/
def carveBlock (h : Heap) (size : Nat) : Heap × Nat :=
  if add32 (add32 h.kernelHeapStart headerSize) size ≤ h.kernelHeapEnd then
    let block := h.kernelHeapStart
    let head := h.kernelHeapBlocks
    let prev := update h.prev block 0
    let h := { h with
      start := update h.start block (add32 block headerSize)
      size := update h.size block size
      used := update h.used block true
      next := update h.next block head
      prev := if head ≠ 0 then update prev head block else prev
      kernelHeapBlocks := block
      kernelHeapStart := add32 block (add32 headerSize size) }
    (countUsed h size, h.start block)
  else (h, 0)

def mkrnAlloc (h : Heap) (size : Nat) : Except Fault (Heap × Nat) :=
  if size = 0 then .ok (h, 0)
  else do
    let size := roundedSize size
    match ← findFit h size walkLimit h.kernelHeapBlocks with
    | some block =>
      let h := splitBlock h block size
      let h := { h with used := update h.used block true }
      .ok (countUsed h size, add32 block headerSize)
    | none => .ok (carveBlock h size)

/-- Both merges of `mkrn_free`: `block` takes in `other`, the block behind it in
the list. -/
def absorb (h : Heap) (block other : Nat) : Heap :=
  { h with
    size := update h.size block (add32 (h.size block) (add32 headerSize (h.size other)))
    next := update h.next block (h.next other)
    prev := if h.next other ≠ 0 then update h.prev (h.next other) block else h.prev }

/-- `while (pNext != NULL && !pNext->used)` of `mkrn_free`. -/
def mergeRight (block : Nat) : Nat → Heap → Except Fault Heap
  | 0, _ => .error .outOfFuel
  | fuel + 1, h =>
    if h.next block ≠ 0 ∧ h.used (h.next block) = false then
      mergeRight block fuel (absorb h block (h.next block))
    else .ok h

/-- `if (pBlock->prev != NULL && !pBlock->prev->used)` of `mkrn_free`. -/
def mergeLeft (h : Heap) (block : Nat) : Heap :=
  if h.prev block ≠ 0 ∧ h.used (h.prev block) = false then absorb h (h.prev block) block else h

/-- The walk of `mkrn_free` to the block that starts at `ptr`. -/
def findOwner (h : Heap) (ptr : Nat) : Nat → Nat → Except Fault (Option Nat)
  | 0, _ => .error .outOfFuel
  | fuel + 1, block =>
    if block = 0 then .ok none
    else if h.start block = ptr ∧ h.used block = true then .ok (some block)
    else findOwner h ptr fuel (h.next block)

def mkrnFree (h : Heap) (ptr : Nat) : Except Fault Heap :=
  if ptr = 0 then .ok h
  else do
    let block := sub32 ptr headerSize
    let block := if h.start block ≠ ptr ∨ h.used block = false then h.kernelHeapBlocks else block
    match ← findOwner h ptr walkLimit block with
    | none => .ok h
    | some block =>
      let h := { h with
        used := update h.used block false
        usedMemory := sub32 h.usedMemory (h.size block)
        freeMemory := add32 h.freeMemory (h.size block) }
      let h ← mergeRight block walkLimit h
      .ok (mergeLeft h block)

end M4KK1.Mm

/-!
## When the kernel heap is sound

`HeapInv` says that the blocks on the list lie below the top of the heap without
meeting, and that every live pointer belongs to a used block large enough for it.
The allocator keeps it as long as its 32-bit sums do not wrap, and `mkrn_free`
keeps it as long as the blocks it merges, neighbours on the list, are neighbours in
memory: `absorb_inv` is the step that needs this.
-/

namespace M4KK1.Mm

open Function List M4KK1.Lib

/-- Blocks with their headers lie between `base` and `top` and do not meet. -/
structure Laid (base top : Nat) (blocks : List Nat) (size : Nat → Nat) : Prop where
  inside : ∀ block ∈ blocks, base ≤ block ∧ block + 20 + size block ≤ top
  apart : ∀ block ∈ blocks, ∀ other ∈ blocks, block < other → block + 20 + size block ≤ other

namespace Laid

variable {base top block cut new other : Nat} {blocks front back : List Nat} {size : Nat → Nat}

theorem fresh (laid : Laid base top blocks size) (listed : block ∈ blocks)
    (above : block < new) (below : new < block + 20 + size block) : new ∉ blocks := by
  intro member
  have := laid.apart block listed new member above
  omega

theorem push (laid : Laid base top blocks size) (started : base ≤ top) (cut : Nat) :
    Laid base (top + 20 + cut) (top :: blocks) (update size top cut) := by
  have below : ∀ block ∈ blocks, block ≠ top ∧ block < top := by
    intro block member
    have := laid.inside block member
    omega
  constructor
  · intro block member
    rcases mem_cons.mp member with rfl | old
    · rw [update_self]
      omega
    · have := laid.inside block old
      rw [update_of_ne (below block old).1]
      omega
  · intro block member other member' less
    rcases mem_cons.mp member with rfl | old
    · rcases mem_cons.mp member' with rfl | old'
      · omega
      · have := below other old'
        omega
    · rw [update_of_ne (below block old).1]
      rcases mem_cons.mp member' with rfl | old'
      · exact (laid.inside block old).2
      · exact laid.apart block old other old' less

theorem split (laid : Laid base top (front ++ block :: back) size)
    (isNew : new = block + 20 + cut) (room : cut + 20 ≤ size block) :
    Laid base top (front ++ block :: new :: back)
      (update (update size new (size block - 20 - cut)) block cut) := by
  have listed : block ∈ front ++ block :: back := mem_append_right _ mem_cons_self
  have inside := laid.inside block listed
  have fresh : new ∉ front ++ block :: back := laid.fresh listed (by omega) (by omega)
  have notNew : new ≠ block := by omega
  have cases : ∀ other ∈ front ++ block :: new :: back, other = new ∨ other = block ∨
        (other ≠ new ∧ other ≠ block ∧ other ∈ front ++ block :: back) := by
    intro other member
    by_cases isBlock : other = block
    · exact Or.inr (Or.inl isBlock)
    · by_cases isNew : other = new
      · exact Or.inl isNew
      · refine Or.inr (Or.inr ⟨isNew, isBlock, ?_⟩)
        simpa [isNew, isBlock] using member
  constructor
  · intro other member
    rcases cases other member with rfl | rfl | ⟨notNew, notBlock, old⟩
    · rw [update_of_ne notNew, update_self]
      omega
    · rw [update_self]
      omega
    · rw [update_of_ne notBlock, update_of_ne notNew]
      exact laid.inside other old
  · intro left leftIn right rightIn less
    rcases cases left leftIn with rfl | rfl | ⟨leftNotNew, leftNotBlock, leftOld⟩
    · rw [update_of_ne notNew, update_self]
      rcases cases right rightIn with rfl | rfl | ⟨-, -, rightOld⟩
      · omega
      · omega
      · have := laid.apart block listed right rightOld (by omega)
        omega
    · rw [update_self]
      rcases cases right rightIn with rfl | rfl | ⟨-, -, rightOld⟩
      · omega
      · omega
      · have := laid.apart left listed right rightOld less
        omega
    · rw [update_of_ne leftNotBlock, update_of_ne leftNotNew]
      rcases cases right rightIn with rfl | rfl | ⟨-, -, rightOld⟩
      · rcases Nat.lt_or_gt_of_ne leftNotBlock with below | above
        · have := laid.apart left leftOld block listed below
          omega
        · have := laid.apart block listed left leftOld above
          omega
      · exact laid.apart left leftOld right listed less
      · exact laid.apart left leftOld right rightOld less

theorem merge (laid : Laid base top (front ++ block :: other :: back) size)
    (nodup : (front ++ block :: other :: back).Nodup) (adjacent : other = block + 20 + size block) :
    Laid base top (front ++ block :: back)
      (update size block (size block + (20 + size other))) := by
  have listed : block ∈ front ++ block :: other :: back :=
    mem_append_right _ mem_cons_self
  have otherListed : other ∈ front ++ block :: other :: back :=
    mem_append_right _ (mem_cons_of_mem _ mem_cons_self)
  have old : ∀ node ∈ front ++ block :: back, node ∈ front ++ block :: other :: back := by
    intro node member
    simp only [mem_append, mem_cons] at member ⊢
    tauto
  have notOther : other ∉ front ++ block :: back := by
    have shuffled : (front ++ block :: other :: back).Perm (other :: (front ++ block :: back)) := by
      rw [show front ++ block :: other :: back = (front ++ [block]) ++ other :: back by simp,
        show front ++ block :: back = (front ++ [block]) ++ back by simp]
      exact perm_middle
    exact (nodup_cons.mp (shuffled.nodup_iff.mp nodup)).1
  constructor
  · intro node member
    by_cases isBlock : node = block
    · subst isBlock
      have := laid.inside other otherListed
      have := laid.inside node listed
      rw [update_self]
      omega
    · rw [update_of_ne isBlock]
      exact laid.inside node (old node member)
  · intro left leftIn right rightIn less
    by_cases isBlock : left = block
    · subst isBlock
      have different : right ≠ other := fun same => notOther (same ▸ rightIn)
      have := laid.apart left listed right (old right rightIn) less
      have := laid.apart other otherListed right (old right rightIn) (by omega)
      rw [update_self]
      omega
    · rw [update_of_ne isBlock]
      exact laid.apart left (old left leftIn) right (old right rightIn) less

end Laid

/-- The heap holds `blocks`, in list order, and the callers the pointers `live`. -/
structure HeapInv (base limit : Nat) (h : Heap) (blocks : List Nat) (live : List (Nat × Nat)) :
    Prop where
  low : 8 ≤ base
  isEnd : h.kernelHeapEnd = limit
  started : base ≤ h.kernelHeapStart
  ended : h.kernelHeapStart ≤ h.kernelHeapEnd
  small : h.kernelHeapEnd < 4294967296
  linked : Linked h.next h.prev 0 0 h.kernelHeapBlocks blocks
  nodup : blocks.Nodup
  starts : ∀ block ∈ blocks, h.start block = block + 20
  laid : Laid base h.kernelHeapStart blocks h.size
  owned : ∀ entry ∈ live, ∃ block ∈ blocks, entry.1 = block + 20 ∧ h.used block = true ∧
    entry.2 ≤ h.size block
  distinct : (live.map Prod.fst).Nodup

namespace HeapInv

variable {base limit : Nat} {h : Heap} {blocks front back : List Nat} {live : List (Nat × Nat)}
variable {block other size : Nat}

section

variable (inv : HeapInv base limit h blocks live)

include inv

theorem length_lt : blocks.length < walkLimit := by
  have within : blocks.toFinset ⊆ Finset.Ico base h.kernelHeapStart := by
    intro block member
    have := inv.laid.inside block (mem_toFinset.mp member)
    rw [Finset.mem_Ico]
    omega
  have counted := Finset.card_le_card within
  rw [toFinset_card_of_nodup inv.nodup, Nat.card_Ico] at counted
  have := inv.ended
  have := inv.small
  unfold walkLimit
  omega

theorem not_owned (unused : h.used block = false) : ∀ entry ∈ live, entry.1 ≠ block + 20 := by
  intro entry member isBlock
  obtain ⟨owner, -, isOwner, used, -⟩ := inv.owned entry member
  obtain rfl : owner = block := by omega
  exact absurd (used.symm.trans unused) (by simp)

theorem owned_congr {h' : Heap} {blocks' : List Nat}
    (kept : ∀ block ∈ blocks, h.used block = true → block ∈ blocks' ∧ h'.used block = true ∧
      h'.size block = h.size block) :
    ∀ entry ∈ live, ∃ block ∈ blocks', entry.1 = block + 20 ∧ h'.used block = true ∧
      entry.2 ≤ h'.size block := by
  intro entry member
  obtain ⟨block, listed, isBlock, used, enough⟩ := inv.owned entry member
  obtain ⟨listed', used', same⟩ := kept block listed used
  exact ⟨block, listed', isBlock, used', same ▸ enough⟩

theorem markUsed (listed : block ∈ blocks) (unused : h.used block = false)
    (fits : size ≤ h.size block) :
    HeapInv base limit { h with used := update h.used block true } blocks
      ((block + 20, size) :: live) := by
  refine { inv with owned := ?_, distinct := ?_ }
  · intro entry member
    rcases mem_cons.mp member with rfl | old
    · exact ⟨block, listed, rfl, update_self _ _ _, fits⟩
    · refine inv.owned_congr (fun other listed used => ⟨listed, ?_, ?_⟩) entry old
      · by_cases same : other = block
        · rw [same]
          exact update_self _ _ _
        · exact (update_of_ne same _ _).trans used
      · rfl
  · rw [map_cons, nodup_cons]
    refine ⟨fun member => ?_, inv.distinct⟩
    obtain ⟨entry, isLive, isBlock⟩ := mem_map.mp member
    exact inv.not_owned unused entry isLive isBlock

theorem markUnused {entry : Nat × Nat}
    (isLive : entry ∈ live) (isBlock : entry.1 = block + 20) (usedMemory freeMemory : Nat) :
    HeapInv base limit { h with
      used := update h.used block false
      usedMemory := usedMemory
      freeMemory := freeMemory } blocks (live.erase entry) := by
  have distinct := ((perm_cons_erase isLive).map Prod.fst).nodup_iff.mp inv.distinct
  rw [map_cons, nodup_cons] at distinct
  refine { inv with owned := ?_, distinct := distinct.2 }
  intro other member
  obtain ⟨owner, isListed, isOwner, used, enough⟩ :=
    inv.owned other (mem_of_mem_erase member)
  refine ⟨owner, isListed, isOwner, ?_, enough⟩
  have different : owner ≠ block := by
    rintro rfl
    apply distinct.1
    rw [isBlock, ← isOwner]
    exact mem_map_of_mem member
  exact (update_of_ne different _ _).trans used

end

theorem split (inv : HeapInv base limit h (front ++ block :: back) live)
    (unused : h.used block = false) (fits : size ≤ h.size block) :
    ∃ blocks', HeapInv base limit (splitBlock h block size) blocks' live ∧ block ∈ blocks' ∧
      (splitBlock h block size).used block = false ∧
      size ≤ (splitBlock h block size).size block := by
  have listed : block ∈ front ++ block :: back :=
    mem_append_right _ mem_cons_self
  obtain ⟨low, high⟩ := inv.laid.inside block listed
  have small := inv.small
  have ended := inv.ended
  have lowest := inv.low
  by_cases large : h.size block > add32 (add32 size headerSize) 8
  · have room : size + 28 < h.size block := by
      rw [headerSize, add32_eq (show size + 20 < 4294967296 by omega), add32_eq (by omega)] at large
      omega
    have newAt : add32 (add32 block headerSize) size = block + 20 + size := by
      rw [headerSize, add32_eq (show block + 20 < 4294967296 by omega), add32_eq (by omega)]
    have newStart : add32 (add32 (h.start block) headerSize) size = block + 20 + size + 20 := by
      rw [inv.starts block listed, headerSize,
        add32_eq (show block + 20 + 20 < 4294967296 by omega), add32_eq (by omega)]
      omega
    have rest : sub32 (sub32 (h.size block) headerSize) size = h.size block - 20 - size := by
      rw [headerSize, sub32_eq (show 20 ≤ h.size block by omega) (by omega),
        sub32_eq (by omega) (by omega)]
    have fresh : block + 20 + size ∉ front ++ block :: back :=
      inv.laid.fresh listed (by omega) (by omega)
    have laid := inv.laid.split rfl (show size + 20 ≤ h.size block by omega)
    simp only [splitBlock, if_pos large, newAt, newStart, rest]
    generalize isNew : block + 20 + size = new at fresh laid
    have notBlock : block ≠ new := by omega
    have shuffled : (front ++ block :: new :: back).Perm (new :: (front ++ block :: back)) := by
      rw [show front ++ block :: new :: back = (front ++ [block]) ++ new :: back by simp,
        show front ++ block :: back = (front ++ [block]) ++ back by simp]
      exact perm_middle
    have notNew : ∀ other ∈ front ++ block :: back, other ≠ new := by
      rintro other member rfl
      exact fresh member
    refine ⟨front ++ block :: new :: back, ?_, ?_, ?_, ?_⟩
    · refine { inv with linked := ?_, nodup := ?_, starts := ?_, laid := laid, owned := ?_ }
      · exact inv.linked.insert inv.nodup fresh (by omega)
      · exact shuffled.nodup_iff.mpr (nodup_cons.mpr ⟨fresh, inv.nodup⟩)
      · intro other member
        rcases mem_cons.mp (shuffled.mem_iff.mp member) with rfl | old
        · exact update_self _ _ _
        · exact (update_of_ne (notNew other old) _ _).trans (inv.starts other old)
      · refine inv.owned_congr fun other old used => ⟨?_, ?_, ?_⟩
        · exact shuffled.mem_iff.mpr (mem_cons_of_mem _ old)
        · exact (update_of_ne (notNew other old) _ _).trans used
        · have different : other ≠ block := by
            rintro rfl
            exact absurd (used.symm.trans unused) (by simp)
          exact (update_of_ne different _ _).trans
            (update_of_ne (notNew other old) _ _)
    · exact shuffled.mem_iff.mpr (mem_cons_of_mem _ listed)
    · exact (update_of_ne notBlock _ _).trans unused
    · rw [update_self]
  · rw [splitBlock, if_neg large]
    exact ⟨_, inv, listed, unused, fits⟩

theorem carve {requested : Nat} (inv : HeapInv base limit h blocks live)
    (noWrap : h.kernelHeapStart + 20 + size < 4294967296) (enough : requested ≤ size) :
    (carveBlock h size = (h, 0)) ∨
    ∃ h', carveBlock h size = (h', h.kernelHeapStart + 20) ∧
      HeapInv base limit h' (h.kernelHeapStart :: blocks)
        ((h.kernelHeapStart + 20, requested) :: live) := by
  have lowest := inv.low
  have started := inv.started
  have top : add32 (h.kernelHeapStart + 20) size = h.kernelHeapStart + 20 + size := add32_eq noWrap
  have advanced : add32 h.kernelHeapStart (add32 headerSize size) =
      h.kernelHeapStart + 20 + size := by
    rw [headerSize, add32_eq (show 20 + size < 4294967296 by omega), add32_eq (by omega)]
    omega
  have payload : add32 h.kernelHeapStart headerSize = h.kernelHeapStart + 20 :=
    add32_eq (by rw [headerSize]; omega)
  by_cases fits : h.kernelHeapStart + 20 + size ≤ h.kernelHeapEnd
  · have below : ∀ block ∈ blocks, block ≠ h.kernelHeapStart := by
      intro block member
      have := inv.laid.inside block member
      omega
    have fresh : h.kernelHeapStart ∉ blocks := fun member => below _ member rfl
    simp only [carveBlock, payload, top, if_pos fits, advanced, countUsed, update_self]
    refine Or.inr ⟨_, rfl, ?_⟩
    refine { inv with
      started := ?_, ended := fits, linked := ?_, nodup := ?_, starts := ?_,
      laid := inv.laid.push started size, owned := ?_, distinct := ?_ }
    · show base ≤ h.kernelHeapStart + 20 + size
      omega
    · exact inv.linked.push inv.nodup fresh (by omega)
    · exact nodup_cons.mpr ⟨fresh, inv.nodup⟩
    · intro block member
      rcases mem_cons.mp member with rfl | old
      · exact update_self _ _ _
      · exact (update_of_ne (below block old) _ _).trans (inv.starts block old)
    · intro entry member
      rcases mem_cons.mp member with rfl | old
      · refine ⟨h.kernelHeapStart, mem_cons_self, rfl, update_self _ _ _, ?_⟩
        show requested ≤ update h.size h.kernelHeapStart size h.kernelHeapStart
        rwa [update_self]
      · refine inv.owned_congr (fun block listed used => ⟨?_, ?_, ?_⟩) entry old
        · exact mem_cons_of_mem _ listed
        · exact (update_of_ne (below block listed) _ _).trans used
        · exact update_of_ne (below block listed) _ _
    · rw [map_cons, nodup_cons]
      refine ⟨fun member => ?_, inv.distinct⟩
      obtain ⟨entry, isLive, isTop⟩ := mem_map.mp member
      obtain ⟨block, listed, isBlock, -, -⟩ := inv.owned entry isLive
      exact below block listed (by omega)
  · exact Or.inl (by simp only [carveBlock, payload, top, if_neg fits])

theorem absorb (inv : HeapInv base limit h (front ++ block :: other :: back) live)
    (unused : h.used block = false) (otherUnused : h.used other = false)
    (adjacent : other = block + 20 + h.size block) :
    HeapInv base limit (absorb h block other) (front ++ block :: back) live := by
  have listed : block ∈ front ++ block :: other :: back :=
    mem_append_right _ mem_cons_self
  have otherListed : other ∈ front ++ block :: other :: back :=
    mem_append_right _ (mem_cons_of_mem _ mem_cons_self)
  have small := inv.small
  have ended := inv.ended
  have inside := inv.laid.inside other otherListed
  have notNull : block ≠ 0 := inv.linked.ne_none listed
  have split : front ++ block :: other :: back = (front ++ [block]) ++ other :: back := by simp
  have joined : front ++ block :: back = (front ++ [block]) ++ back := by simp
  have old : ∀ node ∈ front ++ block :: back, node ∈ front ++ block :: other :: back := by
    intro node member
    simp only [mem_append, mem_cons] at member ⊢
    tauto
  have isPrev : h.prev other = block := by
    have linked := inv.linked
    rw [split] at linked
    rcases linked.prev_eq with ⟨empty, -⟩ | ⟨rest, isFront⟩
    · simp at empty
    · exact ((append_inj' isFront rfl).2 |> List.cons.inj).1.symm
  have unlinked := (split ▸ inv.linked).unlink (split ▸ inv.nodup)
  rw [Linked.unlinkNext, Linked.unlinkPrev, isPrev, if_pos notNull,
    if_pos notNull, ← joined] at unlinked
  have sizes : add32 (h.size block) (add32 headerSize (h.size other)) =
      h.size block + (20 + h.size other) := by
    rw [headerSize, add32_eq (show 20 + h.size other < 4294967296 by omega), add32_eq (by omega)]
  have laid := inv.laid.merge inv.nodup adjacent
  rw [← sizes] at laid
  have nodup : (front ++ block :: back).Nodup := by
    have whole := inv.nodup
    rw [split] at whole
    rw [joined]
    exact (nodup_cons.mp (perm_middle.nodup_iff.mp whole)).2
  refine { inv with linked := unlinked, nodup := nodup, starts := ?_, laid := laid, owned := ?_ }
  · intro node member
    exact inv.starts node (old node member)
  · refine inv.owned_congr fun node member used => ⟨?_, used, ?_⟩
    · have different : node ≠ other := by
        rintro rfl
        exact absurd (used.symm.trans otherUnused) (by simp)
      simpa [different] using member
    · have different : node ≠ block := by
        rintro rfl
        exact absurd (used.symm.trans unused) (by simp)
      exact update_of_ne different _ _

end HeapInv

theorem findFit_spec {h : Heap} {size : Nat} (nodes : List Nat) :
    ∀ {before first fuel : Nat}, Linked h.next h.prev 0 before first nodes → nodes.length < fuel →
      findFit h size fuel first = .ok none ∨
      ∃ block ∈ nodes, findFit h size fuel first = .ok (some block) ∧ h.used block = false ∧
        size ≤ h.size block := by
  induction nodes with
  | nil =>
    intro before first fuel linked enough
    obtain ⟨fuel, rfl⟩ := Nat.exists_eq_succ_of_ne_zero (Nat.ne_of_gt enough)
    have isNull : first = 0 := linked
    exact Or.inl (by rw [findFit, if_pos isNull])
  | cons node rest ih =>
    intro before first fuel linked enough
    obtain ⟨fuel, rfl⟩ := Nat.exists_eq_succ_of_ne_zero (Nat.ne_zero_of_lt enough)
    obtain ⟨rfl, notNull, -, tail⟩ := linked
    rw [findFit, if_neg notNull]
    split
    · rename_i fits
      exact Or.inr ⟨first, mem_cons_self, rfl, fits.1, fits.2⟩
    · rcases ih tail (Nat.lt_of_succ_lt_succ enough) with nothing | ⟨block, member, found⟩
      · exact Or.inl nothing
      · exact Or.inr ⟨block, mem_cons_of_mem _ member, found⟩

/-- The free blocks up to the first used one lie in memory one behind the other from `address` on.
-/
def RunAdjacent (h : Heap) : Nat → List Nat → Prop
  | _, [] => True
  | address, block :: rest =>
    h.used block = false → block = address ∧ RunAdjacent h (block + 20 + h.size block) rest

theorem RunAdjacent.congr {h h' : Heap} {address : Nat} {nodes : List Nat}
    (run : RunAdjacent h address nodes) (sameUsed : ∀ block ∈ nodes, h'.used block = h.used block)
    (sameSize : ∀ block ∈ nodes, h'.size block = h.size block) : RunAdjacent h' address nodes := by
  induction nodes generalizing address with
  | nil => trivial
  | cons block rest ih =>
    intro unused
    rw [sameUsed block mem_cons_self] at unused
    obtain ⟨isAddress, behind⟩ := run unused
    refine ⟨isAddress, ?_⟩
    rw [sameSize block mem_cons_self]
    exact ih behind (fun other member => sameUsed other (mem_cons_of_mem _ member))
      (fun other member => sameSize other (mem_cons_of_mem _ member))

/-- Merging to the right takes in blocks that touch and leaves the others. -/
theorem mergeRight_spec {base limit block : Nat} {front : List Nat} {live : List (Nat × Nat)}
    (back : List Nat) :
    ∀ {h : Heap} {fuel : Nat}, HeapInv base limit h (front ++ block :: back) live →
      h.used block = false → RunAdjacent h (block + 20 + h.size block) back →
      back.length < fuel →
      ∃ h' back', mergeRight block fuel h = .ok h' ∧
        HeapInv base limit h' (front ++ block :: back') live ∧
        h'.used = h.used ∧ h'.prev block = h.prev block ∧
        ∀ other ∈ front, h'.size other = h.size other := by
  induction back with
  | nil =>
    intro h fuel inv unused _ enough
    obtain ⟨fuel, rfl⟩ := Nat.exists_eq_succ_of_ne_zero (Nat.ne_of_gt enough)
    have last : h.next block = 0 := inv.linked.tail
    refine ⟨h, [], ?_, inv, rfl, rfl, fun _ _ => rfl⟩
    rw [mergeRight, if_neg (fun more => more.1 last)]
  | cons other rest ih =>
    intro h fuel inv unused run enough
    obtain ⟨fuel, rfl⟩ := Nat.exists_eq_succ_of_ne_zero (Nat.ne_zero_of_lt enough)
    obtain ⟨isNext, notNull, -, -⟩ := inv.linked.tail
    rw [mergeRight, isNext]
    by_cases otherUsed : h.used other = false
    · rw [if_pos ⟨notNull, otherUsed⟩]
      obtain ⟨adjacent, behind⟩ := run otherUsed
      have merged := inv.absorb unused otherUsed adjacent
      have small := inv.small
      have ended := inv.ended
      have nodup := inv.nodup
      have otherInside := inv.laid.inside other
        (mem_append_right _ (mem_cons_of_mem _ mem_cons_self))
      have grown : (absorb h block other).size block = h.size block + (20 + h.size other) := by
        simp only [absorb, update_self, headerSize]
        rw [add32_eq (show 20 + h.size other < 4294967296 by omega), add32_eq (by omega)]
      obtain ⟨-, blockNodup, frontApart⟩ := nodup_append.mp nodup
      obtain ⟨blockFresh, -⟩ := nodup_cons.mp blockNodup
      have kept : ∀ node, node ≠ block → (absorb h block other).size node = h.size node :=
        fun node different => update_of_ne different _ _
      have restRun : RunAdjacent (absorb h block other)
          (block + 20 + (absorb h block other).size block) rest := by
        rw [grown, show block + 20 + (h.size block + (20 + h.size other)) =
          other + 20 + h.size other by omega]
        refine behind.congr (fun _ _ => rfl) fun node member => kept node ?_
        rintro rfl
        exact blockFresh (mem_cons_of_mem _ member)
      obtain ⟨h', back', done, inv', sameUsed, samePrev, sameSize⟩ :=
        ih merged unused restRun (Nat.lt_of_succ_lt_succ enough)
      refine ⟨h', back', done, inv', sameUsed, samePrev.trans ?_, ?_⟩
      · -- The back link written is that of a block behind `other`.
        have notNext : block ≠ h.next other := by
          have tail := inv.linked
          rw [show front ++ block :: other :: rest = (front ++ [block]) ++ other :: rest by simp]
            at tail
          intro same
          rcases tail.next_mem with isNull | inRest
          · exact inv.linked.ne_none (mem_append_right _ mem_cons_self)
              (same.trans isNull)
          · exact blockFresh (mem_cons_of_mem _ (same ▸ inRest))
        simp only [absorb]
        split
        · exact update_of_ne notNext _ _
        · rfl
      · intro node member
        rw [sameSize node member]
        exact kept node (frontApart node member block mem_cons_self)
    · rw [if_neg (fun more => otherUsed more.2)]
      exact ⟨h, other :: rest, rfl, inv, rfl, rfl, fun _ _ => rfl⟩

end M4KK1.Mm
