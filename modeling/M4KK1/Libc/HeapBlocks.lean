import M4KK1.Lib.BlockRow
import M4KK1.Libc.Heap

/-!
# The blocks of the userland heap

`Tiled`: the headers describe a row of blocks that fills the arena up to `heap_ptr`.
-/

namespace M4KK1.Libc

open M4KK1.Lib

section Fields

variable {mem mem' : ByteMemory} {block other value address : Nat} {field changed : Field}

theorem Field.offset_le (field : Field) : field.offset ≤ 16 := by
  cases field <;> decide

theorem Field.offset_apart (different : field ≠ changed) :
    field.offset + 4 ≤ changed.offset ∨ changed.offset + 4 ≤ field.offset := by
  cases field <;> cases changed <;> simp_all [Field.offset]

theorem getField_setField_self (fits : value < 4294967296) :
    getField (setField mem block field value) block field = value :=
  read32_write32_self fits

theorem getField_setField_field (different : field ≠ changed) :
    getField (setField mem block changed value) block field = getField mem block field := by
  apply read32_write32_other
  have := Field.offset_apart different
  omega

theorem getField_setField_other (apart : block + 20 ≤ other ∨ other + 20 ≤ block) :
    getField (setField mem other changed value) block field = getField mem block field := by
  apply read32_write32_other
  have := field.offset_le
  have := changed.offset_le
  omega

theorem getField_write8 (outside : address < block ∨ block + 20 ≤ address) :
    getField (write8 mem address value) block field = getField mem block field := by
  apply read32_write8
  have := field.offset_le
  omega

theorem setField_other (outside : address < block ∨ block + 20 ≤ address) :
    setField mem block field value address = mem address := by
  apply write32_other
  have := field.offset_le
  omega

theorem getField_congr (same : ∀ i, block ≤ i → i < block + 20 → mem' i = mem i) :
    getField mem' block field = getField mem block field := by
  apply read32_congr
  have := field.offset_le
  intro i low high
  exact same i (by omega) (by omega)

end Fields

/-- The header at `address` describes `block` and links to `link`. -/
structure HasHeader (mem : ByteMemory) (address : Nat) (block : RowBlock) (link : Nat) : Prop where
  size : getField mem address .size = block.size
  next : getField mem address .next = link
  free : block.request = none → getField mem address .magic = heapMagicFree
  used : ∀ requested, block.request = some requested →
    getField mem address .magic = heapMagicUsed ∧ getField mem address .reqSize = requested

/-- What the block in front of `row` links to: the row, or what follows when there is none. -/
def linkTo (address final : Nat) : List RowBlock → Nat
  | [] => final
  | _ :: _ => address

/-- The headers from `start` on describe a row of linked blocks, the last one linked to `final`. -/
def Chained (mem : ByteMemory) (final : Nat) : Nat → List RowBlock → Prop
  | _, [] => True
  | start, block :: rest =>
    HasHeader mem start block (linkTo (start + 20 + block.size) final rest) ∧
      Chained mem final (start + 20 + block.size) rest

variable {mem mem' : ByteMemory} {start final link address : Nat} {block : RowBlock}
  {row front middle middle' back : List RowBlock}

namespace HasHeader

variable {size value other : Nat} {field : Field}

section

variable (header : HasHeader mem address block link)

include header

theorem congr (same : ∀ i, address ≤ i → i < address + 20 → mem' i = mem i) :
    HasHeader mem' address block link := by
  constructor
  · rw [getField_congr same, header.size]
  · rw [getField_congr same, header.next]
  · intro isFree
    rw [getField_congr same, header.free isFree]
  · intro requested isUsed
    rw [getField_congr same, getField_congr same]
    exact header.used requested isUsed

theorem link_lt : link < 4294967296 :=
  header.next ▸ read32_lt _ _

theorem setOther (apart : address + 20 ≤ other ∨ other + 20 ≤ address) :
    HasHeader (setField mem other field value) address block link :=
  header.congr fun _ _ _ => setField_other (by omega)

theorem setSize (fits : value < 4294967296) :
    HasHeader (setField mem address .size value) address ⟨value, block.request⟩ link := by
  constructor
  · exact getField_setField_self fits
  · rw [getField_setField_field (by decide), header.next]
  · intro isFree
    rw [getField_setField_field (by decide), header.free isFree]
  · intro requested isUsed
    rw [getField_setField_field (by decide), getField_setField_field (by decide)]
    exact header.used requested isUsed

theorem setNext (fits : value < 4294967296) :
    HasHeader (setField mem address .next value) address block value := by
  constructor
  · rw [getField_setField_field (by decide), header.size]
  · exact getField_setField_self fits
  · intro isFree
    rw [getField_setField_field (by decide), header.free isFree]
  · intro requested isUsed
    rw [getField_setField_field (by decide), getField_setField_field (by decide)]
    exact header.used requested isUsed

theorem setFree :
    HasHeader (setField mem address .magic heapMagicFree) address ⟨block.size, none⟩ link := by
  constructor
  · rw [getField_setField_field (by decide), header.size]
  · rw [getField_setField_field (by decide), header.next]
  · intro _
    exact getField_setField_self (by decide)
  · intro requested isUsed
    exact absurd isUsed (by simp)

end

theorem ofCanary (sized : getField mem address .size = size)
    (linked : getField mem address .next = link)
    (marked : getField mem address .magic = heapMagicUsed)
    (asked : getField mem address .reqSize = value) :
    HasHeader (blockSetCanary mem address) address ⟨size, some value⟩ link := by
  have other : ∀ field, field ≠ .canary →
      getField (blockSetCanary mem address) address field = getField mem address field := by
    intro field notCanary
    rw [blockSetCanary, getField_setField_field notCanary,
      getField_write8 (by rw [headerSize]; omega)]
  constructor
  · rw [other .size (by decide), sized]
  · rw [other .next (by decide), linked]
  · intro isFree
    exact absurd isFree (by simp)
  · intro requested isUsed
    obtain rfl := Option.some.inj isUsed
    rw [other .magic (by decide), other .reqSize (by decide)]
    exact ⟨marked, asked⟩

end HasHeader

theorem Chained.congr (chained : Chained mem final start row)
    (same : ∀ i, start ≤ i → i < rowEnd 20 start row → mem' i = mem i) :
    Chained mem' final start row := by
  induction row generalizing start with
  | nil => trivial
  | cons block row ih =>
    have behind : start + 20 + block.size ≤ rowEnd 20 (start + 20 + block.size) row :=
      start_le_rowEnd
    rw [rowEnd_cons] at same
    refine ⟨chained.1.congr fun i low high => same i low (by omega), ?_⟩
    exact ih chained.2 fun i low high => same i (by omega) high

theorem chained_append : Chained mem final start (front ++ back) ↔
    Chained mem (linkTo (rowEnd 20 start front) final back) start front ∧
      Chained mem final (rowEnd 20 start front) back := by
  induction front generalizing start with
  | nil => simp [Chained]
  | cons block front ih =>
    rw [List.cons_append, Chained, Chained, ih, rowEnd_cons, and_assoc]
    cases front with
    | nil => rfl
    | cons next front => rfl

/-- Blocks exchanged for others of the same extent keep the chain. -/
theorem Chained.edit (chained : Chained mem final start (front ++ (middle ++ back)))
    (nonempty : middle ≠ []) (nonempty' : middle' ≠ [])
    (sameEnd : rowEnd 20 (rowEnd 20 start front) middle' = rowEnd 20 (rowEnd 20 start front) middle)
    (outside : ∀ i, i < rowEnd 20 start front ∨ rowEnd 20 (rowEnd 20 start front) middle ≤ i →
      mem' i = mem i)
    (inner : Chained mem' (linkTo (rowEnd 20 (rowEnd 20 start front) middle) final back)
      (rowEnd 20 start front) middle') :
    Chained mem' final start (front ++ (middle' ++ back)) := by
  obtain ⟨first, block, rfl⟩ : ∃ block rest, middle = block :: rest :=
    List.exists_cons_of_ne_nil nonempty
  obtain ⟨first', block', rfl⟩ : ∃ block rest, middle' = block :: rest :=
    List.exists_cons_of_ne_nil nonempty'
  rw [chained_append, chained_append] at chained ⊢
  rw [sameEnd]
  refine ⟨chained.1.congr fun i _ below => outside i (Or.inl below), inner, ?_⟩
  exact chained.2.2.congr fun i above _ => outside i (Or.inr above)

/-- The headers fill the arena up to `heap_ptr` with a row of blocks. -/
structure Tiled (arena : Arena) (h : Heap) (row : List RowBlock) : Prop where
  chained : Chained h.mem 0 arena.base row
  filled : rowEnd 20 arena.base row = arena.base + h.heapPtr
  inside : h.heapPtr ≤ heapSize
  started : h.heapStart = linkTo arena.base 0 row

/-- The bytes of what was handed out, except at `passed`, are the same in both memories. -/
def Spares (passed : Nat) (mem mem' : ByteMemory) (handed : List Payload) : Prop :=
  ∀ payload ∈ handed, payload.ptr ≠ passed →
    ∀ i, payload.ptr ≤ i → i < payload.ptr + payload.capacity → mem' i = mem i

namespace Tiled

variable {arena : Arena} {h : Heap} {passed : Nat}

theorem bounds (tiled : Tiled arena h (front ++ (middle ++ back))) :
    0 < rowEnd 20 arena.base front ∧
      rowEnd 20 (rowEnd 20 arena.base front) middle ≤ 4294967296 := by
  have low : arena.base ≤ rowEnd 20 arena.base front := start_le_rowEnd
  have high : rowEnd 20 (rowEnd 20 arena.base front) middle ≤
      rowEnd 20 (rowEnd 20 (rowEnd 20 arena.base front) middle) back := start_le_rowEnd
  have filled := tiled.filled
  rw [rowEnd_append, rowEnd_append] at filled
  have notNull := arena.notNull
  have fits := arena.fits
  have inside := tiled.inside
  omega

theorem length_lt (tiled : Tiled arena h row) : row.length < walkLimit := by
  have long : arena.base + 20 * row.length ≤ rowEnd 20 arena.base row := le_rowEnd
  have filled := tiled.filled
  have inside := tiled.inside
  rw [heapSize] at inside
  rw [walkLimit]
  omega

theorem edit (tiled : Tiled arena h (front ++ (middle ++ back)))
    (nonempty : middle ≠ []) (nonempty' : middle' ≠ [])
    (sameEnd : rowEnd 20 (rowEnd 20 arena.base front) middle' =
      rowEnd 20 (rowEnd 20 arena.base front) middle)
    (outside : ∀ i, i < rowEnd 20 arena.base front ∨
      rowEnd 20 (rowEnd 20 arena.base front) middle ≤ i → mem' i = h.mem i)
    (inner : Chained mem' (linkTo (rowEnd 20 (rowEnd 20 arena.base front) middle) 0 back)
      (rowEnd 20 arena.base front) middle') :
    Tiled arena { h with mem := mem' } (front ++ (middle' ++ back)) := by
  refine ⟨tiled.chained.edit nonempty nonempty' sameEnd outside inner, ?_, tiled.inside, ?_⟩
  · have filled := tiled.filled
    rw [rowEnd_append, rowEnd_append] at filled ⊢
    rw [sameEnd]
    exact filled
  · have started := tiled.started
    cases front with
    | nil =>
      cases middle with
      | nil => exact absurd rfl nonempty
      | cons => cases middle' with
        | nil => exact absurd rfl nonempty'
        | cons => exact started
    | cons => exact started

end Tiled

theorem Spares.around {passed : Nat}
    (outside : ∀ i, i < rowEnd 20 start front ∨ rowEnd 20 (rowEnd 20 start front) middle ≤ i →
      mem' i = mem i)
    (inner : Spares passed mem mem' (payloads 20 (rowEnd 20 start front) middle)) :
    Spares passed mem mem' (payloads 20 start (front ++ (middle ++ back))) := by
  intro payload handed notPassed i low high
  rw [payloads_append, payloads_append, List.mem_append, List.mem_append] at handed
  rcases handed with before | within | behind
  · have := payload_bounds before
    exact outside i (Or.inl (by omega))
  · exact inner payload within notPassed i low high
  · have := payload_bounds behind
    exact outside i (Or.inr (by omega))

end M4KK1.Libc
