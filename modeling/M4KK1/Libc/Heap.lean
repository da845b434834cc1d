import M4KK1.Lib.ByteMemory
import M4KK1.Lib.CheckedArray
import M4KK1.Lib.Word32

/-!
# The userland heap

`stdlib.c` of `m4k_libc`. Every field of a header is read from memory, stale or not.
-/

namespace M4KK1.Libc

open M4KK1.Lib

def heapSize : Nat := 1048576

def heapMagicUsed : Nat := 0x4D484B31

def heapMagicFree : Nat := 0x4D484B30

def heapCanary : Nat := 0xC7

def heapSplitMin : Nat := 16

/-- `sizeof(block_header_t)` -/
def headerSize : Nat := 20

/-- The fields of `block_header_t`. -/
inductive Field where
  | magic
  | canary
  | size
  | reqSize
  | next
deriving DecidableEq

def Field.offset : Field → Nat
  | .magic => 0
  | .canary => 4
  | .size => 8
  | .reqSize => 12
  | .next => 16

variable (mem : ByteMemory)

/-- `block->field` -/
def getField (block : Nat) (field : Field) : Nat :=
  read32 mem (block + field.offset)

/-- `block->field = value` -/
def setField (block : Nat) (field : Field) (value : Nat) : ByteMemory :=
  write32 mem (block + field.offset) value

/-- Where the linker placed the array `heap`: not at the null pointer, and within the
address space. -/
structure Arena where
  base : Nat
  notNull : 0 < base
  fits : base + heapSize ≤ 4294967296

/-- Memory and the variables of the heap. -/
structure Heap where
  mem : ByteMemory
  /-- `heap_ptr`, the offset of the next new block. -/
  heapPtr : Nat
  /-- `heap_start`, null before the first allocation. -/
  heapStart : Nat
  badFree : Nat
  doubleFree : Nat
  corrupted : Nat

/-- A walk that takes more turns has come back to a block and never ends. -/
def walkLimit : Nat := 4294967296

/-- `(size + 8) & ~7`: room for the canary, in units of eight bytes. -/
def capacityFor (size : Nat) : Nat := (size + 8) / 8 * 8

def blockSetCanary (block : Nat) : ByteMemory :=
  let mem := write8 mem (block + headerSize + getField mem block .reqSize) heapCanary
  setField mem block .canary heapCanary

def blockCanaryOk (block : Nat) : Bool :=
  mem (block + headerSize + getField mem block .reqSize) ==
    UInt8.ofNat (getField mem block .canary)

/-- The header that is split off behind the first `want` bytes of `block`. -/
def splitTail (block want rem : Nat) : ByteMemory :=
  let split := block + headerSize + want
  let mem := setField mem split .magic heapMagicFree
  let mem := setField mem split .canary 0
  let mem := setField mem split .size (rem - headerSize)
  let mem := setField mem split .reqSize 0
  let mem := setField mem split .next (getField mem block .next)
  setField mem block .next split

/-- The part of `malloc` that hands out the free block `current`. -/
def takeBlock (current size orig : Nat) : ByteMemory :=
  let rem := getField mem current .size - size
  let mem := if rem ≥ headerSize + heapSplitMin then
      setField (splitTail mem current size rem) current .size size
    else mem
  let mem := setField mem current .magic heapMagicUsed
  let mem := setField mem current .reqSize orig
  blockSetCanary mem current

variable (arena : Arena) (h : Heap)

def newBlock (size orig : Nat) : Heap :=
  let block := arena.base + h.heapPtr
  let mem := setField h.mem block .magic heapMagicUsed
  let mem := setField mem block .size size
  let mem := setField mem block .reqSize orig
  let mem := setField mem block .next 0
  { h with mem := blockSetCanary mem block, heapPtr := h.heapPtr + headerSize + size }

/-- The walk of `malloc`: a block that fits, a new one at the end, or the first of all. -/
def mallocWalk (arena : Arena) (h : Heap) (size orig : Nat) : Nat → Nat → Except Fault (Heap × Nat)
  | 0, _ => .error .outOfFuel
  | fuel + 1, current =>
    let block := arena.base + h.heapPtr
    if current = 0 then
      if h.heapPtr + headerSize + size > heapSize then .ok (h, 0)
      else .ok ({ newBlock arena h size orig with heapStart := block }, block + headerSize)
    else if getField h.mem current .magic = heapMagicFree ∧ getField h.mem current .size ≥ size then
      .ok ({ h with mem := takeBlock h.mem current size orig }, current + headerSize)
    else if getField h.mem current .next = 0 then
      if h.heapPtr + headerSize + size > heapSize then .ok (h, 0)
      else
        let h := newBlock arena h size orig
        .ok ({ h with mem := setField h.mem current .next block }, block + headerSize)
    else mallocWalk arena h size orig fuel (getField h.mem current .next)

def malloc (size : Nat) : Except Fault (Heap × Nat) :=
  if size = 0 then .ok (h, 0)
  else if size > heapSize then .ok (h, 0)
  else if capacityFor size > heapSize then .ok (h, 0)
  else mallocWalk arena h (capacityFor size) size walkLimit h.heapStart

def calloc (nmemb size : Nat) : Except Fault (Heap × Nat) :=
  if nmemb ≠ 0 ∧ size > 4294967295 / nmemb then .ok (h, 0)
  else do
    let total := nmemb * size % 4294967296
    let (h, ptr) ← malloc arena h total
    if ptr ≠ 0 then .ok ({ h with mem := fillBytes 0 total h.mem ptr }, ptr) else .ok (h, ptr)

/-- A block takes in the one behind it in the list. -/
def absorb (block other : Nat) : ByteMemory :=
  let mem := setField mem block .size
    (getField mem block .size + (headerSize + getField mem other .size))
  setField mem block .next (getField mem other .next)

/-- `while (pNext && pNext->magic == HEAP_MAGIC_FREE)` of `free` and `realloc`. -/
def coalesceForward (block : Nat) : Nat → ByteMemory → Nat → Except Fault ByteMemory
  | 0, _, _ => .error .outOfFuel
  | fuel + 1, mem, next =>
    if next ≠ 0 ∧ getField mem next .magic = heapMagicFree then
      let mem := absorb mem block next
      coalesceForward block fuel mem (getField mem block .next)
    else .ok mem

/-- `while (p && p->next != block)` of `free`. -/
def findPredecessor (mem : ByteMemory) (block : Nat) : Nat → Nat → Except Fault Nat
  | 0, _ => .error .outOfFuel
  | fuel + 1, p =>
    if p ≠ 0 ∧ getField mem p .next ≠ block then
      findPredecessor mem block fuel (getField mem p .next)
    else .ok p

/-- The part of `free` that merges the block into a free one in front of it. -/
def coalesceBackward (heapStart block : Nat) : Except Fault ByteMemory :=
  if block ≠ heapStart then do
    let p ← findPredecessor mem block walkLimit heapStart
    if p ≠ 0 ∧ getField mem p .magic = heapMagicFree then .ok (absorb mem p block) else .ok mem
  else .ok mem

def free (ptr : Nat) : Except Fault Heap :=
  if ptr = 0 then .ok h
  else
    let block := ptr - headerSize
    let magic := getField h.mem block .magic
    if magic ≠ heapMagicUsed ∧ magic ≠ heapMagicFree then
      .ok { h with badFree := add32 h.badFree 1 }
    else if magic = heapMagicFree then .ok { h with doubleFree := add32 h.doubleFree 1 }
    else do
      let corrupted := if blockCanaryOk h.mem block then h.corrupted else add32 h.corrupted 1
      let mem := setField h.mem block .magic heapMagicFree
      let mem ← coalesceForward block walkLimit mem (getField mem block .next)
      let mem ← coalesceBackward mem h.heapStart block
      .ok { h with mem := mem, corrupted := corrupted }

/-- The part of `realloc` that keeps the block and gives its tail back. -/
def shrinkBlock (block want : Nat) : Except Fault ByteMemory :=
  let rem := getField mem block .size - want
  if rem ≥ headerSize + heapSplitMin then
    let split := block + headerSize + want
    let mem := setField (splitTail mem block want rem) block .size want
    coalesceForward split walkLimit mem (getField mem split .next)
  else .ok mem

/-- Pass 1 of `realloc`: the bytes of the free blocks from `it` on, added to `total`. -/
def absorbTotal (mem : ByteMemory) : Nat → Nat → Nat → Except Fault Nat
  | 0, _, _ => .error .outOfFuel
  | fuel + 1, it, total =>
    if it ≠ 0 ∧ getField mem it .magic = heapMagicFree then
      absorbTotal mem fuel (getField mem it .next)
        (add32 total (add32 headerSize (getField mem it .size)))
    else .ok total

/-- Pass 2 of `realloc`: the free blocks from `it` on leave the list. -/
def unlinkFree (block : Nat) : Nat → ByteMemory → Nat → Except Fault ByteMemory
  | 0, _, _ => .error .outOfFuel
  | fuel + 1, mem, it =>
    if it ≠ 0 ∧ getField mem it .magic = heapMagicFree then
      let mem := setField mem block .next (getField mem it .next)
      unlinkFree block fuel mem (getField mem block .next)
    else .ok mem

/-- The part of `realloc` that grows the block to `want` of the `total` bytes it can have. -/
def growBlock (block want total : Nat) : Except Fault ByteMemory := do
  let mem ← unlinkFree block walkLimit mem (getField mem block .next)
  let rem := total - want
  if rem ≥ headerSize + heapSplitMin then
    .ok (setField (splitTail mem block want rem) block .size want)
  else .ok (setField mem block .size total)

/-- A request of another size for a block that stays where it is. -/
def resize (block size : Nat) : ByteMemory :=
  blockSetCanary (setField mem block .reqSize size) block

/-- The part of `realloc` that moves the block: a new one, a copy, and a free. -/
def moveBlock (ptr size : Nat) : Except Fault (Heap × Nat) := do
  let reqSize := getField h.mem (ptr - headerSize) .reqSize
  let copy := if reqSize < size then reqSize else size
  let (h, newPtr) ← malloc arena h size
  if newPtr ≠ 0 then
    let h ← free { h with mem := copyBytes copy h.mem newPtr ptr } ptr
    .ok (h, newPtr)
  else .ok (h, newPtr)

def realloc (ptr size : Nat) : Except Fault (Heap × Nat) :=
  if ptr = 0 then malloc arena h size
  else if size = 0 then do
    let h ← free h ptr
    .ok (h, 0)
  else
    let block := ptr - headerSize
    let want := capacityFor size
    if getField h.mem block .magic ≠ heapMagicUsed then .ok (h, 0)
    else if size > heapSize then .ok (h, 0)
    else if getField h.mem block .size ≥ want then do
      let mem ← shrinkBlock h.mem block want
      .ok ({ h with mem := resize mem block size }, ptr)
    else do
      let total ← absorbTotal h.mem walkLimit (getField h.mem block .next)
        (getField h.mem block .size)
      if total ≥ want then
        let mem ← growBlock h.mem block want total
        .ok ({ h with mem := resize mem block size }, ptr)
      else moveBlock arena h ptr size

end M4KK1.Libc
