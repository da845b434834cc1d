import M4KK1.Lib.Word32

/-!
# The buddy page allocator

`memory.c`: free blocks are linked through the first two words of their first pages.
-/

namespace M4KK1.Mm

open M4KK1.Lib Function

def buddyMaxOrder : Nat := 11

def pfnNone : Nat := 0xFFFFFFFF

/-- The `order_map` value of a page that heads no free block. -/
def notHead : Nat := 0xFF

def pageSize : Nat := 4096

/-- `struct mkrn_buddy_zone`, with the link words of `struct mkrn_free_page` by
page frame. -/
structure Zone where
  freeHead : Nat → Nat
  freeCount : Nat → Nat
  basePfn : Nat
  nrPages : Nat
  nrFree : Nat
  orderMap : Nat → Nat
  next : Nat → Nat
  prev : Nat → Nat

/-- The zone before any range is seeded; the pages hold whatever they held. -/
def emptyZone (basePfn nrPages : Nat) (next prev : Nat → Nat) : Zone :=
  { freeHead := fun _ => pfnNone
    freeCount := fun _ => 0
    basePfn := basePfn
    nrPages := nrPages
    nrFree := 0
    orderMap := fun _ => notHead
    next := next
    prev := prev }

def buddyOf (pfn order : Nat) : Nat := pfn ^^^ 1 <<< order

variable (z : Zone) (order pfn : Nat)

def buddyListAdd : Zone :=
  let head := z.freeHead order
  let prev := update z.prev pfn pfnNone
  let next := update z.next pfn head
  let prev := if head ≠ pfnNone then update prev head pfn else prev
  { z with
    next := next
    prev := prev
    freeHead := update z.freeHead order pfn
    freeCount := update z.freeCount order (add32 (z.freeCount order) 1)
    orderMap := update z.orderMap (sub32 pfn z.basePfn) order }

def buddyListDel : Zone :=
  let next := if z.prev pfn ≠ pfnNone then update z.next (z.prev pfn) (z.next pfn)
    else z.next
  let freeHead := if z.prev pfn ≠ pfnNone then z.freeHead
    else update z.freeHead order (z.next pfn)
  let prev := if next pfn ≠ pfnNone then update z.prev (next pfn) (z.prev pfn)
    else z.prev
  { z with
    next := next
    prev := prev
    freeHead := freeHead
    freeCount := update z.freeCount order (sub32 (z.freeCount order) 1)
    orderMap := update z.orderMap (sub32 pfn z.basePfn) notHead }

/-- The merging loop of `buddy_free_block`; eleven turns are enough. -/
def mergeLoop : Nat → Zone → Nat → Nat → Zone × Nat × Nat
  | 0, z, order, pfn => (z, order, pfn)
  | fuel + 1, z, order, pfn =>
    if order < buddyMaxOrder - 1 then
      let bpfn := buddyOf pfn order
      if bpfn < z.basePfn ∨ bpfn ≥ add32 z.basePfn z.nrPages then (z, order, pfn)
      else if z.orderMap (sub32 bpfn z.basePfn) ≠ order then (z, order, pfn)
      else
        let z := buddyListDel z order bpfn
        let z := { z with nrFree := sub32 z.nrFree (1 <<< order) }
        mergeLoop fuel z (order + 1) (if bpfn < pfn then bpfn else pfn)
    else (z, order, pfn)

def buddyFreeBlock : Zone :=
  let (z, order, pfn) := mergeLoop buddyMaxOrder z order pfn
  let z := { z with nrFree := add32 z.nrFree (1 <<< order) }
  buddyListAdd z order pfn

/-- The inner loop of `buddy_free_range`, which the pages left bound. -/
def freeRunLoop (order endPfn : Nat) : Nat → Zone → Nat → Zone × Nat
  | 0, z, first => (z, first)
  | fuel + 1, z, first =>
    if sub32 endPfn first ≥ 1 <<< order ∧ first &&& sub32 (1 <<< order) 1 = 0 then
      freeRunLoop order endPfn fuel (buddyFreeBlock z order first) (add32 first (1 <<< order))
    else (z, first)

/-- The outer loop of `buddy_free_range`, for the orders below `count`. -/
def freeOrdersLoop (endPfn : Nat) : Nat → Zone → Nat → Zone × Nat
  | 0, z, first => (z, first)
  | order + 1, z, first =>
    let (z, first) := freeRunLoop order endPfn (sub32 endPfn first) z first
    freeOrdersLoop endPfn order z first

def buddyFreeRange (firstPfn nr : Nat) : Zone :=
  let endPfn := add32 firstPfn nr
  let firstPfn := if firstPfn < z.basePfn then z.basePfn else firstPfn
  let endPfn := if endPfn > add32 z.basePfn z.nrPages then add32 z.basePfn z.nrPages else endPfn
  (freeOrdersLoop endPfn buddyMaxOrder z firstPfn).1

/-- `while (cur < M4K_BUDDY_MAX_ORDER && z->free_head[cur] == M4K_PFN_NONE) cur++;` -/
def findFreeLoop (z : Zone) : Nat → Nat → Nat
  | 0, cur => cur
  | fuel + 1, cur =>
    if cur < buddyMaxOrder ∧ z.freeHead cur = pfnNone then findFreeLoop z fuel (cur + 1) else cur

/-- The splitting loop of `buddy_alloc`, from order `order + count` down. -/
def expandLoop (order pfn : Nat) : Nat → Zone → Zone
  | 0, z => z
  | count + 1, z =>
    let cur := order + count
    let half := add32 pfn (1 <<< cur)
    let z := { z with nrFree := add32 z.nrFree (1 <<< cur) }
    expandLoop order pfn count (buddyListAdd z cur half)

def buddyAlloc (order : Nat) : Zone × Nat :=
  if order ≥ buddyMaxOrder then (z, pfnNone)
  else
    let cur := findFreeLoop z buddyMaxOrder order
    if cur = buddyMaxOrder then (z, pfnNone)
    else
      let pfn := z.freeHead cur
      let z := buddyListDel z cur pfn
      let z := { z with nrFree := sub32 z.nrFree (1 <<< cur) }
      (expandLoop order pfn (cur - order) z, pfn)

/-- The zone and the two counters the page calls keep. -/
structure Pages where
  zone : Zone
  freeMemory : Nat
  usedMemory : Nat

/-- `while ((1u << order) < u32Pages) order++;` for at most 32 turns. -/
def orderLoop (pages : Nat) : Nat → Nat → Nat
  | 0, order => order
  | fuel + 1, order => if 1 <<< order < pages then orderLoop pages fuel (order + 1) else order

/-- `allocate_pages`: the address is `0` when there is no block. -/
def allocatePages (s : Pages) (pages : Nat) : Pages × Nat :=
  if pages = 0 then (s, 0)
  else
    let order := orderLoop pages 32 0
    let (z, pfn) := buddyAlloc s.zone order
    if pfn = pfnNone then ({ s with zone := z }, 0)
    else
      let got := 1 <<< order
      let s := { s with zone := z }
      let s := if got > pages then
          { s with
            zone := buddyFreeRange s.zone (add32 pfn pages) (sub32 got pages)
            freeMemory := add32 s.freeMemory (sub32 got pages * pageSize) }
        else s
      let s := { s with
        freeMemory := sub32 s.freeMemory (pages * pageSize)
        usedMemory := add32 s.usedMemory (pages * pageSize) }
      (s, pfn <<< 12 % 4294967296)

def freePages (s : Pages) (address pages : Nat) : Pages :=
  if pages = 0 then s
  else
    { zone := buddyFreeRange s.zone (address >>> 12) pages
      freeMemory := add32 s.freeMemory (pages * pageSize)
      usedMemory := sub32 s.usedMemory (pages * pageSize) }

end M4KK1.Mm
