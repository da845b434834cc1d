import M4KK1.Libc.HeapBlocks

/-!
# Edits of the userland heap

The changes that the calls are made of, each with the bytes it leaves alone.
-/

namespace M4KK1.Libc

open M4KK1.Lib List

variable {mem : ByteMemory} {arena : Arena} {h : Heap} {front back : List RowBlock}
  {left right : RowBlock} {request : Option Nat}
  {address other size want rem requested link i : Nat}

section

variable (outside : i < address ∨ address + 20 ≤ i)

include outside

theorem absorb_other : absorb mem address other i = mem i := by
  rw [absorb, setField_other outside, setField_other outside]

theorem blockSetCanary_other (notCanary : i ≠ address + 20 + getField mem address .reqSize) :
    blockSetCanary mem address i = mem i := by
  rw [blockSetCanary, setField_other outside, headerSize, write8_other notCanary]

theorem resize_other (notCanary : i ≠ address + 20 + requested) (fits : requested < 4294967296) :
    resize mem address requested i = mem i := by
  rw [resize, blockSetCanary_other outside, setField_other outside]
  rwa [getField_setField_self fits]

theorem splitTail_other (outsideNew : i < address + 20 + want ∨ address + 20 + want + 20 ≤ i) :
    splitTail mem address want rem i = mem i := by
  rw [splitTail, setField_other outside, headerSize]
  simp only [setField_other outsideNew]

end

theorem splitTail_new (linked : getField mem address .next = link) (small : link < 4294967296)
    (fits : rem < 4294967296) :
    HasHeader (splitTail mem address want rem) (address + 20 + want) ⟨rem - 20, none⟩ link := by
  rw [splitTail, headerSize]
  have before : ∀ {mem field value}, getField (setField mem (address + 20 + want) field value)
      address .next = getField mem address .next := getField_setField_other (by omega)
  simp only [before, linked]
  constructor
  · rw [getField_setField_other (by omega), getField_setField_field (by decide),
      getField_setField_field (by decide), getField_setField_self (by omega)]
  · rw [getField_setField_other (by omega), getField_setField_self small]
  · intro _
    rw [getField_setField_other (by omega), getField_setField_field (by decide),
      getField_setField_field (by decide), getField_setField_field (by decide),
      getField_setField_field (by decide), getField_setField_self (by decide)]
  · intro requested isUsed
    exact absurd isUsed (by simp)

theorem splitTail_old {block : RowBlock} (header : HasHeader mem address block link)
    (fits : address + 20 + want < 4294967296) :
    HasHeader (setField (splitTail mem address want rem) address .size want) address
      ⟨want, block.request⟩ (address + 20 + want) := by
  rw [splitTail, headerSize]
  refine HasHeader.setSize (HasHeader.setNext (header.congr fun i low high => ?_) fits) (by omega)
  have before : i < address + 20 + want ∨ address + 20 + want + 20 ≤ i := by omega
  simp only [setField_other before]

namespace Tiled

section

variable (tiled : Tiled arena h (front ++ left :: right :: back))

include tiled

theorem absorb :
    Tiled arena { h with
        mem := absorb h.mem (rowEnd 20 arena.base front)
          (rowEnd 20 arena.base front + 20 + left.size) }
      (front ++ ⟨left.size + (20 + right.size), left.request⟩ :: back) := by
  have row : Tiled arena h (front ++ ([left, right] ++ back)) := tiled
  obtain ⟨positive, high⟩ := row.bounds
  obtain ⟨-, leftHeader, rightHeader, -⟩ := chained_append.mp tiled.chained
  rw [rowEnd_cons, rowEnd_cons, rowEnd_nil] at high
  refine row.edit (by simp) (cons_ne_nil _ []) ?_ ?_ ⟨?_, trivial⟩
  · simp only [rowEnd_cons, rowEnd_nil]
    omega
  · intro i outside
    rw [rowEnd_cons, rowEnd_cons, rowEnd_nil] at outside
    exact absorb_other (by omega)
  · rw [Libc.absorb, leftHeader.size, rightHeader.size, getField_setField_other (by omega),
      rightHeader.next, headerSize]
    exact (leftHeader.setSize (by omega)).setNext rightHeader.link_lt

theorem widen :
    Tiled arena { h with
        mem := setField (setField h.mem (rowEnd 20 arena.base front) .next
          (linkTo (rowEnd 20 arena.base front + 20 + left.size + 20 + right.size) 0 back))
          (rowEnd 20 arena.base front) .size (left.size + (20 + right.size)) }
      (front ++ ⟨left.size + (20 + right.size), left.request⟩ :: back) := by
  have row : Tiled arena h (front ++ ([left, right] ++ back)) := tiled
  obtain ⟨positive, high⟩ := row.bounds
  obtain ⟨-, leftHeader, rightHeader, -⟩ := chained_append.mp tiled.chained
  rw [rowEnd_cons, rowEnd_cons, rowEnd_nil] at high
  refine row.edit (by simp) (cons_ne_nil _ []) ?_ ?_ ⟨?_, trivial⟩
  · simp only [rowEnd_cons, rowEnd_nil]
    omega
  · intro i outside
    rw [rowEnd_cons, rowEnd_cons, rowEnd_nil] at outside
    rw [setField_other (by omega), setField_other (by omega)]
  · exact (leftHeader.setNext rightHeader.link_lt).setSize (by omega)

theorem shift (room : want + 20 < left.size + (20 + right.size)) :
    Tiled arena { h with
        mem := setField (splitTail (setField h.mem (rowEnd 20 arena.base front) .next
          (linkTo (rowEnd 20 arena.base front + 20 + left.size + 20 + right.size) 0 back))
          (rowEnd 20 arena.base front) want (left.size + (20 + right.size) - want))
          (rowEnd 20 arena.base front) .size want }
      (front ++ ⟨want, left.request⟩ ::
        ⟨left.size + (20 + right.size) - want - 20, none⟩ :: back) := by
  have row : Tiled arena h (front ++ ([left, right] ++ back)) := tiled
  obtain ⟨positive, high⟩ := row.bounds
  obtain ⟨-, leftHeader, rightHeader, -⟩ := chained_append.mp tiled.chained
  have unlinked := leftHeader.setNext rightHeader.link_lt
  rw [rowEnd_cons, rowEnd_cons, rowEnd_nil] at high
  refine row.edit (by simp) (cons_ne_nil _ [_]) ?_ ?_ ⟨?_, ?_, trivial⟩
  · simp only [rowEnd_cons, rowEnd_nil]
    omega
  · intro i outside
    rw [rowEnd_cons, rowEnd_cons, rowEnd_nil] at outside
    rw [setField_other (by omega), splitTail_other (by omega) (by omega), setField_other (by omega)]
  · exact splitTail_old unlinked (by omega)
  · exact (splitTail_new unlinked.next rightHeader.link_lt (by omega)).setOther (by omega)

end

section

variable (tiled : Tiled arena h (front ++ left :: back))

include tiled

theorem markFree :
    Tiled arena { h with
        mem := setField h.mem (rowEnd 20 arena.base front) .magic heapMagicFree }
      (front ++ ⟨left.size, none⟩ :: back) := by
  have row : Tiled arena h (front ++ ([left] ++ back)) := tiled
  obtain ⟨-, header, -⟩ := chained_append.mp tiled.chained
  refine row.edit (by simp) (cons_ne_nil _ []) rfl ?_ ⟨header.setFree, trivial⟩
  intro i outside
  rw [rowEnd_cons, rowEnd_nil] at outside
  exact setField_other (by omega)

/-- A block with room for a header is cut in two. -/
theorem split (room : want + 20 < left.size) :
    Tiled arena { h with
        mem := setField (splitTail h.mem (rowEnd 20 arena.base front) want (left.size - want))
          (rowEnd 20 arena.base front) .size want }
      (front ++ ⟨want, left.request⟩ :: ⟨left.size - want - 20, none⟩ :: back) := by
  have row : Tiled arena h (front ++ ([left] ++ back)) := tiled
  obtain ⟨positive, high⟩ := row.bounds
  obtain ⟨-, header, -⟩ := chained_append.mp tiled.chained
  rw [rowEnd_cons, rowEnd_nil] at high
  refine row.edit (by simp) (cons_ne_nil _ [_]) ?_ ?_ ⟨?_, ?_, trivial⟩
  · simp only [rowEnd_cons, rowEnd_nil]
    omega
  · intro i outside
    rw [rowEnd_cons, rowEnd_nil] at outside
    rw [setField_other (by omega), splitTail_other (by omega) (by omega)]
  · exact splitTail_old header (by omega)
  · exact (splitTail_new header.next header.link_lt (by omega)).setOther (by omega)

theorem resize (room : requested < left.size)
    (outside : ∀ i, i < rowEnd 20 arena.base front ∨ rowEnd 20 arena.base front + 20 ≤ i →
      mem i = h.mem i)
    (sized : getField mem (rowEnd 20 arena.base front) .size = left.size)
    (linked : getField mem (rowEnd 20 arena.base front) .next =
      getField h.mem (rowEnd 20 arena.base front) .next)
    (marked : getField mem (rowEnd 20 arena.base front) .magic = heapMagicUsed) :
    Tiled arena { h with mem := resize mem (rowEnd 20 arena.base front) requested }
      (front ++ ⟨left.size, some requested⟩ :: back) := by
  have row : Tiled arena h (front ++ ([left] ++ back)) := tiled
  obtain ⟨positive, high⟩ := row.bounds
  obtain ⟨-, header, -⟩ := chained_append.mp tiled.chained
  rw [rowEnd_cons, rowEnd_nil] at high
  refine row.edit (by simp) (cons_ne_nil _ []) rfl ?_ ⟨HasHeader.ofCanary ?_ ?_ ?_ ?_, trivial⟩
  · intro i beyond
    rw [rowEnd_cons, rowEnd_nil] at beyond
    rw [resize_other (by omega) (by omega) (by omega), outside i (by omega)]
  · rw [getField_setField_field (by decide), sized]
  · rw [getField_setField_field (by decide), linked, header.next]
    rfl
  · rw [getField_setField_field (by decide), marked]
  · exact getField_setField_self (by omega)

theorem handOut (room : requested < left.size) :
    Tiled arena { h with
        mem := Libc.resize (setField h.mem (rowEnd 20 arena.base front) .magic heapMagicUsed)
          (rowEnd 20 arena.base front) requested }
      (front ++ ⟨left.size, some requested⟩ :: back) := by
  obtain ⟨-, header, -⟩ := chained_append.mp tiled.chained
  refine tiled.resize room (fun i outside => setField_other outside) ?_ ?_ ?_
  · rw [getField_setField_field (by decide), header.size]
  · rw [getField_setField_field (by decide)]
  · exact getField_setField_self (by decide)

end

theorem keepFor {old : Nat} (tiled : Tiled arena h (front ++ ⟨size, some old⟩ :: back))
    (room : requested < size) :
    Tiled arena { h with mem := Libc.resize h.mem (rowEnd 20 arena.base front) requested }
      (front ++ ⟨size, some requested⟩ :: back) := by
  obtain ⟨-, header, -⟩ := chained_append.mp tiled.chained
  exact tiled.resize room (fun _ _ => rfl) header.size rfl (header.used old rfl).1

end Tiled

theorem newBlock_other (room : requested < size) (fits : requested < 4294967296)
    (outside : i < arena.base + h.heapPtr ∨ arena.base + h.heapPtr + 20 + size ≤ i) :
    (newBlock arena h size requested).mem i = h.mem i := by
  have apart : i < arena.base + h.heapPtr ∨ arena.base + h.heapPtr + 20 ≤ i := by omega
  refine (blockSetCanary_other apart ?_).trans ?_
  · rw [getField_setField_field (by decide), getField_setField_self fits]
    omega
  · simp only [setField_other apart]

theorem newBlock_header (small : size < 4294967296) (fits : requested < 4294967296) :
    HasHeader (newBlock arena h size requested).mem (arena.base + h.heapPtr) ⟨size,
      some requested⟩ 0 := by
  refine HasHeader.ofCanary ?_ ?_ ?_ ?_
  · rw [getField_setField_field (by decide), getField_setField_field (by decide),
      getField_setField_self small]
  · exact getField_setField_self (by decide)
  · rw [getField_setField_field (by decide), getField_setField_field (by decide),
      getField_setField_field (by decide), getField_setField_self (by decide)]
  · rw [getField_setField_field (by decide), getField_setField_self fits]

namespace Tiled

theorem first (tiled : Tiled arena h []) (room : h.heapPtr + 20 + size ≤ heapSize)
    (enough : requested < size) :
    Tiled arena { newBlock arena h size requested with heapStart := arena.base + h.heapPtr }
      [⟨size, some requested⟩] := by
  have empty : arena.base = arena.base + h.heapPtr := tiled.filled
  have isZero : h.heapPtr = 0 := by omega
  rw [heapSize] at room
  refine ⟨⟨?_, trivial⟩, ?_, ?_, empty.symm⟩
  · have header : HasHeader (newBlock arena h size requested).mem (arena.base + h.heapPtr)
        ⟨size, some requested⟩ 0 := newBlock_header (by omega) (by omega)
    rwa [← empty] at header
  · show arena.base + 20 + size = arena.base + (h.heapPtr + 20 + size)
    omega
  · show h.heapPtr + 20 + size ≤ heapSize
    rw [heapSize]
    omega

/-- A new block at the end of the arena. -/
theorem append (tiled : Tiled arena h (front ++ [left]))
    (room : h.heapPtr + 20 + size ≤ heapSize) (enough : requested < size) :
    Tiled arena { newBlock arena h size requested with
        mem := setField (newBlock arena h size requested).mem (rowEnd 20 arena.base front) .next
          (arena.base + h.heapPtr) }
      (front ++ [left, ⟨size, some requested⟩]) := by
  have filled := tiled.filled
  have fits := arena.fits
  rw [heapSize] at room fits
  rw [rowEnd_append, rowEnd_cons, rowEnd_nil] at filled
  obtain ⟨before, last, -⟩ := chained_append.mp tiled.chained
  have low : arena.base ≤ rowEnd 20 arena.base front := start_le_rowEnd
  have same : ∀ i, i < arena.base + h.heapPtr →
      (newBlock arena h size requested).mem i = h.mem i :=
    fun i below => newBlock_other enough (by omega) (Or.inl below)
  refine ⟨chained_append.mpr ⟨?_, ?_, ?_, trivial⟩, ?_, ?_, ?_⟩
  · exact before.congr fun i _ below => (setField_other (by omega)).trans (same i (by omega))
  · have kept : HasHeader (newBlock arena h size requested).mem (rowEnd 20 arena.base front)
        left _ := last.congr fun i _ below => same i (by omega)
    have linked := kept.setNext (show arena.base + h.heapPtr < 4294967296 by omega)
    rwa [← filled] at linked ⊢
  · have header : HasHeader (newBlock arena h size requested).mem (arena.base + h.heapPtr)
        ⟨size, some requested⟩ 0 := newBlock_header (by omega) (by omega)
    rw [filled]
    exact header.setOther (by omega)
  · rw [rowEnd_append]
    show rowEnd 20 arena.base front + 20 + left.size + 20 + size =
      arena.base + (h.heapPtr + 20 + size)
    omega
  · show h.heapPtr + 20 + size ≤ heapSize
    rw [heapSize]
    omega
  · have started := tiled.started
    cases front with
    | nil => exact started
    | cons => exact started

end Tiled

end M4KK1.Libc
