import M4KK1.Libc.HeapEdits

/-!
# What the calls of the userland heap do

`Sound` is the invariant, and `Changed` what a call may do.
-/

namespace M4KK1.Libc

open M4KK1.Lib List

/-- The blocks fill the arena, no two free ones touch, and used ones have room for the canary. -/
structure Sound (arena : Arena) (h : Heap) (row : List RowBlock) : Prop where
  tiled : Tiled arena h row
  settled : Settled row
  roomy : ∀ payload ∈ payloads 20 arena.base row, payload.requested < payload.capacity

/-- The heap after a call: `removed` was taken back and `added` was handed out. -/
structure Changed (arena : Arena) (passed : Nat) (h : Heap) (row : List RowBlock) (h' : Heap)
    (row' : List RowBlock) (removed added : List Payload) : Prop where
  sound : Sound arena h' row'
  handed : ∃ rest, (payloads 20 arena.base row).Perm (removed ++ rest) ∧
    (payloads 20 arena.base row').Perm (added ++ rest)
  spares : Spares passed h.mem h'.mem (payloads 20 arena.base row)

variable {mem : ByteMemory} {arena : Arena} {h h' : Heap}
    {row front middle middle' back : List RowBlock}
  {size want orig requested passed fuel : Nat} {payload : Payload}

theorem Changed.ofEdit {removed added : List Payload}
    (sound : Sound arena h (front ++ (middle ++ back)))
    (tiled : Tiled arena h' (front ++ (middle' ++ back)))
    (settled : Settled (front ++ (middle' ++ back)))
    (sameEnd : rowEnd 20 (rowEnd 20 arena.base front) middle' =
      rowEnd 20 (rowEnd 20 arena.base front) middle)
    (isRemoved : payloads 20 (rowEnd 20 arena.base front) middle = removed)
    (isAdded : payloads 20 (rowEnd 20 arena.base front) middle' = added)
    (outside : ∀ i, i < rowEnd 20 arena.base front ∨
      rowEnd 20 (rowEnd 20 arena.base front) middle ≤ i → h'.mem i = h.mem i)
    (inner : ∀ payload ∈ removed, payload.ptr = passed)
    (roomy : ∀ payload ∈ added, payload.requested < payload.capacity) :
    Changed arena passed h (front ++ (middle ++ back)) h'
      (front ++ (middle' ++ back)) removed added := by
  have before := sound.roomy
  simp only [payloads_append, mem_append] at before
  refine ⟨⟨tiled, settled, ?_⟩, ⟨payloads 20 arena.base front ++
    payloads 20 (rowEnd 20 (rowEnd 20 arena.base front) middle) back, ?_, ?_⟩,
    Spares.around outside ?_⟩
  · intro payload handed
    rw [payloads_append, payloads_append, mem_append, mem_append, isAdded, sameEnd] at handed
    rcases handed with first | new | last
    · exact before payload (Or.inl first)
    · exact roomy payload new
    · exact before payload (Or.inr (Or.inr last))
  · rw [payloads_append, payloads_append, isRemoved]
    exact perm_append_comm_assoc _ _ _
  · rw [payloads_append, payloads_append, isAdded, sameEnd]
    exact perm_append_comm_assoc _ _ _
  · intro payload handed notPassed
    exact absurd (inner payload (isRemoved ▸ handed)) notPassed

theorem ptr_nodup (row : List RowBlock) (start : Nat) :
    ((payloads 20 start row).map Payload.ptr).Nodup := by
  rw [List.Nodup, pairwise_map]
  refine payloads_pairwise.imp ?_
  intro left right before
  omega

theorem ptr_ne_zero (handed : payload ∈ payloads 20 arena.base row) : payload.ptr ≠ 0 := by
  have := (payload_bounds handed).1
  omega

/-- A write within a payload keeps the heap sound. -/
theorem Sound.write {mem' : ByteMemory} (sound : Sound arena h row)
    (handed : payload ∈ payloads 20 arena.base row)
    (outside : ∀ i, i < payload.ptr ∨ payload.ptr + payload.capacity ≤ i → mem' i = h.mem i) :
    Sound arena { h with mem := mem' } row ∧
      Spares payload.ptr h.mem mem' (payloads 20 arena.base row) := by
  obtain ⟨front, back, rfl, isPtr⟩ := exists_block handed
  have whole : Sound arena h
    (front ++ ([⟨payload.capacity, some payload.requested⟩] ++ back)) := sound
  obtain ⟨-, header, -⟩ := chained_append.mp sound.tiled.chained
  have beyond : ∀ i, i < rowEnd 20 arena.base front ∨
      rowEnd 20 (rowEnd 20 arena.base front) [⟨payload.capacity, some payload.requested⟩] ≤ i →
      mem' i = h.mem i := by
    intro i away
    simp only [rowEnd_cons, rowEnd_nil] at away
    exact outside i (by omega)
  refine ⟨⟨?_, sound.settled, sound.roomy⟩, ?_⟩
  · refine whole.tiled.edit (by simp) (by simp) rfl beyond ⟨header.congr ?_, trivial⟩
    intro i _ below
    exact outside i (by omega)
  · refine Spares.around beyond ?_
    intro other member notPassed
    obtain rfl := mem_singleton.mp member
    exact absurd isPtr.symm notPassed

theorem takeBlock_spec (sound : Sound arena h (front ++ ⟨size, none⟩ :: back)) (fits : want ≤ size)
    (enough : orig < want) :
    ∃ row' capacity, Changed arena 0 h (front ++ ⟨size, none⟩ :: back)
      { h with mem := takeBlock h.mem (rowEnd 20 arena.base front) want orig } row'
      [] [⟨rowEnd 20 arena.base front + 20, orig, capacity⟩] := by
  have whole : Sound arena h (front ++ ([⟨size, none⟩] ++ back)) := sound
  obtain ⟨positive, high⟩ := whole.tiled.bounds
  simp only [rowEnd_cons, rowEnd_nil] at high
  obtain ⟨settledFront, settledBack, ends, starts⟩ := settled_free.mp sound.settled
  obtain ⟨-, header, -⟩ := chained_append.mp sound.tiled.chained
  have none : ∀ payload ∈ [], Payload.ptr payload = 0 :=
    fun payload member => absurd member not_mem_nil
  by_cases splits : size - want ≥ headerSize + heapSplitMin
  · have isTaken : takeBlock h.mem (rowEnd 20 arena.base front) want orig =
        resize (setField (setField (splitTail h.mem (rowEnd 20 arena.base front) want (size - want))
          (rowEnd 20 arena.base front) .size want)
            (rowEnd 20 arena.base front) .magic heapMagicUsed)
          (rowEnd 20 arena.base front) orig := by
      rw [takeBlock, header.size, if_pos splits, resize]
    rw [headerSize, heapSplitMin] at splits
    refine ⟨front ++ ([⟨want, some orig⟩, ⟨size - want - 20, .none⟩] ++ back), want, ?_⟩
    have split := sound.tiled.split (show want + 20 < size by omega)
    refine Changed.ofEdit whole ?_ ?_ ?_ rfl rfl ?_ none ?_
    · rw [isTaken]
      exact split.handOut enough
    · exact settled_used.mpr ⟨settledFront, settled_cons_free.mpr ⟨settledBack, starts⟩⟩
    · simp only [rowEnd_cons, rowEnd_nil]
      omega
    · intro i outside
      simp only [rowEnd_cons, rowEnd_nil] at outside
      simp only [isTaken]
      rw [resize_other (by omega) (by omega) (by omega), setField_other (by omega),
        setField_other (by omega), splitTail_other (by omega) (by omega)]
    · intro payload member
      obtain rfl := mem_singleton.mp member
      exact enough
  · have isTaken : takeBlock h.mem (rowEnd 20 arena.base front) want orig =
        resize (setField h.mem (rowEnd 20 arena.base front) .magic heapMagicUsed)
          (rowEnd 20 arena.base front) orig := by
      rw [takeBlock, header.size, if_neg splits, resize]
    refine ⟨front ++ ([⟨size, some orig⟩] ++ back), size, ?_⟩
    refine Changed.ofEdit whole ?_ ?_ rfl rfl rfl ?_ none ?_
    · rw [isTaken]
      exact sound.tiled.handOut (show orig < size by omega)
    · exact settled_used.mpr ⟨settledFront, settledBack⟩
    · intro i outside
      simp only [rowEnd_cons, rowEnd_nil] at outside
      simp only [isTaken]
      rw [resize_other (by omega) (by omega) (by omega), setField_other (by omega)]
    · intro payload member
      obtain rfl := mem_singleton.mp member
      show orig < size
      omega

theorem append_spec {last : RowBlock} (sound : Sound arena h (front ++ [last]))
    (room : h.heapPtr + 20 + size ≤ heapSize) (enough : orig < size) :
    Changed arena 0 h (front ++ [last])
      { newBlock arena h size orig with
        mem := setField (newBlock arena h size orig).mem (rowEnd 20 arena.base front) .next
          (arena.base + h.heapPtr) }
      (front ++ [last, ⟨size, some orig⟩]) [] [⟨arena.base + h.heapPtr + 20, orig, size⟩] := by
  have small : orig < 4294967296 := by
    rw [heapSize] at room
    omega
  have joined : front ++ [last, ⟨size, some orig⟩] =
      (front ++ [last]) ++ ⟨size, some orig⟩ :: [] := by
    simp
  have more : payloads 20 arena.base (front ++ [last, ⟨size, some orig⟩]) =
      payloads 20 arena.base (front ++ [last]) ++ [⟨arena.base + h.heapPtr + 20, orig, size⟩] := by
    rw [joined, payloads_append, sound.tiled.filled]
    rfl
  refine ⟨⟨sound.tiled.append room enough, ?_, ?_⟩, ⟨_, .refl _, ?_⟩, ?_⟩
  · rw [joined]
    exact settled_used.mpr ⟨sound.settled, .nil⟩
  · intro payload handed
    rw [more, mem_append, mem_singleton] at handed
    rcases handed with old | rfl
    · exact sound.roomy payload old
    · exact enough
  · rw [more]
    exact perm_append_comm
  · -- The link is in the header of the last block, in front of what that block hands out.
    intro payload handed _ i low high
    have below := (payload_bounds handed).2
    rw [sound.tiled.filled] at below
    rw [payloads_append, mem_append] at handed
    have apart : i < rowEnd 20 arena.base front ∨ rowEnd 20 arena.base front + 20 ≤ i := by
      rcases handed with before | within
      · have := payload_bounds before
        omega
      · have := payload_bounds within
        omega
    exact (setField_other apart).trans (newBlock_other enough small (Or.inl (by omega)))

theorem first_spec (sound : Sound arena h []) (room : h.heapPtr + 20 + size ≤ heapSize)
    (enough : orig < size) :
    Changed arena 0 h [] { newBlock arena h size orig with heapStart := arena.base + h.heapPtr }
      [⟨size, some orig⟩] [] [⟨arena.base + h.heapPtr + 20, orig, size⟩] := by
  have empty : arena.base = arena.base + h.heapPtr := sound.tiled.filled
  refine ⟨⟨sound.tiled.first room enough, .singleton _, ?_⟩, ⟨_, .refl _, ?_⟩, ?_⟩
  · intro payload handed
    obtain rfl := mem_singleton.mp handed
    exact enough
  · rw [← empty]
    exact .refl _
  · intro payload handed
    exact absurd handed not_mem_nil

/-- An allocation is refused and changes nothing, or hands out a new piece of memory. -/
def Serves (arena : Arena) (h : Heap) (row : List RowBlock) (orig : Nat)
    (result : Except Fault (Heap × Nat)) : Prop :=
  result = .ok (h, 0) ∨ ∃ h' row' payload, result = .ok (h', payload.ptr) ∧
    payload.requested = orig ∧ Changed arena 0 h row h' row' [] [payload]

theorem mallocWalk_spec (enough : orig < size) : ∀ {back front : List RowBlock} {fuel : Nat},
    Sound arena h (front ++ back) → back ≠ [] → back.length ≤ fuel →
    Serves arena h (front ++ back) orig
      (mallocWalk arena h size orig fuel (rowEnd 20 arena.base front)) := by
  intro back
  induction back with
  | nil => exact fun _ nonempty => absurd rfl nonempty
  | cons block back ih =>
    intro front fuel sound _ long
    obtain ⟨fuel, rfl⟩ : ∃ less, fuel = less + 1 := ⟨fuel - 1, by simp at long; omega⟩
    have whole : Sound arena h (front ++ ([block] ++ back)) := sound
    have notNull : rowEnd 20 arena.base front ≠ 0 := by
      have := whole.tiled.bounds.1
      omega
    obtain ⟨-, header, -⟩ := chained_append.mp sound.tiled.chained
    rw [mallocWalk, if_neg notNull, header.size, header.next]
    rcases block with ⟨blockSize, request⟩
    by_cases taken : getField h.mem (rowEnd 20 arena.base front) .magic = heapMagicFree ∧
        blockSize ≥ size
    · rw [if_pos taken]
      obtain rfl : request = none := by
        cases request with
        | none => rfl
        | some old => exact absurd ((header.used old rfl).1.symm.trans taken.1) (by decide)
      obtain ⟨row', capacity, changed⟩ := takeBlock_spec sound taken.2 enough
      exact Or.inr ⟨_, row', _, rfl, rfl, changed⟩
    · rw [if_neg taken]
      cases back with
      | nil =>
        rw [linkTo, if_pos rfl]
        by_cases full : h.heapPtr + headerSize + size > heapSize
        · rw [if_pos full]
          exact Or.inl rfl
        · rw [if_neg full]
          exact Or.inr ⟨_, _, _, rfl, rfl, append_spec sound (Nat.le_of_not_lt full) enough⟩
      | cons next back =>
        have later : rowEnd 20 arena.base front + 20 + blockSize ≠ 0 := by omega
        rw [linkTo, if_neg later]
        have moved : Sound arena h ((front ++ [⟨blockSize, request⟩]) ++ next :: back) := by
          rwa [append_assoc]
        have served := ih moved (cons_ne_nil _ _) (Nat.le_of_succ_le_succ long)
        rwa [rowEnd_append, rowEnd_cons, rowEnd_nil, append_assoc] at served

theorem malloc_spec (sound : Sound arena h row) (orig : Nat) :
    Serves arena h row orig (malloc arena h orig) := by
  rw [malloc]
  by_cases nothing : orig = 0
  · exact Or.inl (if_pos nothing)
  rw [if_neg nothing]
  by_cases large : orig > heapSize
  · exact Or.inl (if_pos large)
  rw [if_neg large]
  by_cases padded : capacityFor orig > heapSize
  · exact Or.inl (if_pos padded)
  rw [if_neg padded, sound.tiled.started]
  have enough : orig < capacityFor orig := by
    rw [capacityFor]
    omega
  cases row with
  | nil =>
    rw [linkTo, show walkLimit = 4294967295 + 1 from rfl, mallocWalk, if_pos rfl]
    by_cases full : h.heapPtr + headerSize + capacityFor orig > heapSize
    · exact Or.inl (if_pos full)
    · rw [if_neg full]
      exact Or.inr ⟨_, _, _, rfl, rfl, first_spec sound (Nat.le_of_not_lt full) enough⟩
  | cons block back =>
    have whole : Sound arena h ([] ++ block :: back) := sound
    exact mallocWalk_spec enough whole (cons_ne_nil _ _) sound.tiled.length_lt.le

namespace Changed

variable {row' : List RowBlock}

theorem fresh (changed : Changed arena passed h row h' row' [] [payload]) :
    payload ∈ payloads 20 arena.base row' ∧ ∀ other ∈ payloads 20 arena.base row,
      other ∈ payloads 20 arena.base row' ∧ other.ptr ≠ payload.ptr := by
  obtain ⟨rest, before, after⟩ := changed.handed
  have distinct := (after.map Payload.ptr).nodup_iff.mp (ptr_nodup row' arena.base)
  rw [singleton_append, map_cons, nodup_cons] at distinct
  refine ⟨after.mem_iff.mpr (mem_append_left _ mem_cons_self), ?_⟩
  intro other handed
  have kept : other ∈ rest := before.mem_iff.mp handed
  refine ⟨after.mem_iff.mpr (mem_append_right _ kept), ?_⟩
  intro same
  exact distinct.1 (same ▸ mem_map_of_mem kept)

theorem write {mem' : ByteMemory} (changed : Changed arena 0 h row h' row' [] [payload])
    (outside : ∀ i, i < payload.ptr ∨ payload.ptr + payload.capacity ≤ i → mem' i = h'.mem i) :
    Changed arena 0 h row { h' with mem := mem' } row' [] [payload] := by
  obtain ⟨isNew, others⟩ := changed.fresh
  obtain ⟨sound, spares⟩ := changed.sound.write isNew outside
  refine ⟨sound, changed.handed, ?_⟩
  intro other handed notPassed i low high
  obtain ⟨kept, different⟩ := others other handed
  exact (spares other kept different i low high).trans
    (changed.spares other handed notPassed i low high)

end Changed

theorem calloc_spec (sound : Sound arena h row) (nmemb size : Nat) :
    Serves arena h row (nmemb * size) (calloc arena h nmemb size) := by
  rw [calloc]
  by_cases overflows : nmemb ≠ 0 ∧ size > 4294967295 / nmemb
  · exact Or.inl (if_pos overflows)
  have product : nmemb * size % 4294967296 = nmemb * size := by
    apply Nat.mod_eq_of_lt
    by_cases nothing : nmemb = 0
    · rw [nothing, Nat.zero_mul]
      decide
    · have bounded : size ≤ 4294967295 / nmemb := Nat.le_of_not_lt fun large =>
        overflows ⟨nothing, large⟩
      have := (Nat.le_div_iff_mul_le (Nat.pos_of_ne_zero nothing)).mp bounded
      rw [Nat.mul_comm]
      omega
  rw [if_neg overflows, product]
  rcases malloc_spec sound (nmemb * size) with refused | ⟨h', row', payload, served, isOrig,
    changed⟩
  · exact Or.inl (by simp [refused])
  · have notNull : payload.ptr ≠ 0 := ptr_ne_zero changed.fresh.1
    have roomy := changed.sound.roomy payload changed.fresh.1
    refine Or.inr ⟨{ h' with mem := fillBytes 0 (nmemb * size) h'.mem payload.ptr }, row', payload,
      ?_, isOrig, changed.write fun i outside => fillBytes_other (by omega)⟩
    simp only [served, ok_bind, if_pos notNull]

/-- No block of the row is handed out. -/
def AllFree (row : List RowBlock) : Prop := ∀ block ∈ row, block.request = none

theorem AllFree.payloads_eq {free : List RowBlock} (allFree : AllFree free) (start : Nat) :
    payloads 20 start free = [] := by
  induction free generalizing start with
  | nil => rfl
  | cons block free ih =>
    rcases block with ⟨size, request⟩
    obtain rfl : request = none := allFree _ mem_cons_self
    exact ih (fun other member => allFree other (mem_cons_of_mem _ member)) _

theorem link_stops {address : Nat} (starts : StartsUsed back)
    (chained : Chained mem 0 address back) :
    ¬ (linkTo address 0 back ≠ 0 ∧ getField mem (linkTo address 0 back) .magic =
      heapMagicFree) := by
  rintro ⟨notNull, isFree⟩
  cases back with
  | nil => exact notNull rfl
  | cons block back =>
    obtain ⟨old, isUsed⟩ := Option.isSome_iff_exists.mp (starts block rfl)
    exact absurd ((chained.1.used old isUsed).1.symm.trans isFree) (by decide)

theorem coalesceForward_stops {block next : Nat}
    (stops : ¬ (next ≠ 0 ∧ getField mem next .magic = heapMagicFree)) :
    coalesceForward block (fuel + 1) mem next = .ok mem := by
  rw [coalesceForward, if_neg stops]

theorem settled_cases (settled : Settled back) :
    StartsUsed back ∨ ∃ size rest, back = ⟨size, none⟩ :: rest ∧ Settled rest ∧
    StartsUsed rest := by
  cases back with
  | nil => exact Or.inl fun block member => absurd member (by simp)
  | cons block back =>
    rcases block with ⟨size, none | old⟩
    · exact Or.inr ⟨size, back, rfl, settled_cons_free.mp settled⟩
    · refine Or.inl fun other member => ?_
      obtain rfl := Option.some.inj member
      rfl

theorem coalesceForward_spec {request : Option Nat}
    (tiled : Tiled arena h (front ++ ⟨size, request⟩ :: back)) (settled : Settled back) :
    ∃ mem' size' absorbed rest, coalesceForward (rowEnd 20 arena.base front) walkLimit h.mem
        (getField h.mem (rowEnd 20 arena.base front) .next) = .ok mem' ∧
      back = absorbed ++ rest ∧ AllFree absorbed ∧ Settled rest ∧ StartsUsed rest ∧
      rowEnd 20 (rowEnd 20 arena.base front + 20 + size) absorbed =
        rowEnd 20 arena.base front + 20 + size' ∧
      Tiled arena { h with mem := mem' } (front ++ ⟨size', request⟩ :: rest) ∧
      ∀ i, i < rowEnd 20 arena.base front ∨ rowEnd 20 arena.base front + 20 ≤ i →
        mem' i = h.mem i := by
  obtain ⟨-, header, chained⟩ := chained_append.mp tiled.chained
  rw [header.next, show walkLimit = 4294967295 + 1 from rfl]
  rcases settled_cases settled with starts | ⟨more, rest, rfl, settledRest, startsRest⟩
  · refine ⟨h.mem, size, [], back, ?_, rfl, ?_, settled, starts, rfl, tiled, fun _ _ => rfl⟩
    · exact coalesceForward_stops (link_stops starts chained)
    · exact fun block member => absurd member not_mem_nil
  · have absorbed := tiled.absorb
    obtain ⟨-, header', chained'⟩ := chained_append.mp absorbed.chained
    have continues : rowEnd 20 arena.base front + 20 + size ≠ 0 ∧
        getField h.mem (rowEnd 20 arena.base front + 20 + size) .magic = heapMagicFree :=
      ⟨by omega, chained.1.free rfl⟩
    refine ⟨_, size + (20 + more), [⟨more, none⟩], rest, ?_, rfl, ?_, settledRest, startsRest, ?_,
      absorbed, fun i outside => absorb_other outside⟩
    · have linked : getField (absorb h.mem (rowEnd 20 arena.base front)
          (rowEnd 20 arena.base front + 20 + size)) (rowEnd 20 arena.base front) .next =
          linkTo (rowEnd 20 arena.base front + 20 + (size + (20 + more))) 0 rest := header'.next
      rw [linkTo, coalesceForward, if_pos continues]
      simp only [linked]
      exact coalesceForward_stops (link_stops startsRest chained')
    · intro block member
      obtain rfl := mem_singleton.mp member
      rfl
    · simp only [rowEnd_cons, rowEnd_nil]
      omega

theorem findPredecessor_spec {last : RowBlock} : ∀ {front : List RowBlock} {start fuel : Nat},
    0 < start → Chained mem 0 start (front ++ last :: back) → back ≠ [] → front.length < fuel →
    findPredecessor mem (rowEnd 20 start (front ++ [last])) fuel start =
      .ok (rowEnd 20 start front) := by
  intro front
  induction front with
  | nil =>
    intro start fuel _ chained nonempty long
    obtain ⟨fuel, rfl⟩ : ∃ less, fuel = less + 1 := ⟨fuel - 1, by omega⟩
    obtain ⟨next, rest, rfl⟩ := exists_cons_of_ne_nil nonempty
    have arrived : getField mem start .next = start + 20 + last.size := chained.1.next
    rw [findPredecessor, if_neg (fun continues => continues.2 arrived), rowEnd_nil]
  | cons block front ih =>
    intro start fuel positive chained nonempty long
    obtain ⟨fuel, rfl⟩ : ∃ less, fuel = less + 1 := ⟨fuel - 1, by omega⟩
    have isNext : getField mem start .next = start + 20 + block.size := by
      rw [chained.1.next]
      cases front <;> rfl
    have below : start + 20 + block.size + 20 * (front ++ [last]).length ≤
        rowEnd 20 (start + 20 + block.size) (front ++ [last]) := le_rowEnd
    rw [length_append, length_singleton] at below
    have continues : start ≠ 0 ∧
        getField mem start .next ≠ rowEnd 20 start (block :: front ++ [last]) := by
      rw [isNext, cons_append, rowEnd_cons]
      omega
    rw [findPredecessor, if_pos continues, isNext]
    exact ih (by omega) chained.2 nonempty (Nat.lt_of_succ_lt_succ long)

theorem coalesceBackward_spec (tiled : Tiled arena h (front ++ ⟨size, none⟩ :: back))
    (settled : Settled front) :
    ∃ mem' size' absorbed rest, coalesceBackward h.mem h.heapStart (rowEnd 20 arena.base front) =
      .ok mem' ∧
      front = rest ++ absorbed ∧ AllFree absorbed ∧ Settled rest ∧ EndsUsed rest ∧
      rowEnd 20 arena.base rest + 20 + size' = rowEnd 20 arena.base front + 20 + size ∧
      Tiled arena { h with mem := mem' } (rest ++ ⟨size', none⟩ :: back) ∧
      ∀ i, i < rowEnd 20 arena.base rest ∨ rowEnd 20 arena.base rest + 20 ≤ i →
        mem' i = h.mem i := by
  have started : h.heapStart = arena.base := by
    rw [tiled.started]
    cases front <;> rfl
  rcases eq_nil_or_concat' front with rfl | ⟨front, last, rfl⟩
  · refine ⟨h.mem, size, [], [], ?_, rfl, ?_, settled, ?_, rfl, tiled, fun _ _ => rfl⟩
    · rw [coalesceBackward, started, if_neg (fun different => different rfl)]
    · exact fun block member => absurd member not_mem_nil
    · exact fun block member => absurd member (by simp)
  · rw [append_assoc, singleton_append] at tiled
    have long := tiled.length_lt
    rw [length_append] at long
    have found := findPredecessor_spec arena.notNull tiled.chained (cons_ne_nil _ _)
      (show front.length < walkLimit by omega)
    obtain ⟨-, header, -⟩ := chained_append.mp tiled.chained
    have low : arena.base ≤ rowEnd 20 arena.base front := start_le_rowEnd
    have positive := arena.notNull
    have isEnd : rowEnd 20 arena.base (front ++ [last]) =
        rowEnd 20 arena.base front + 20 + last.size := by
      rw [rowEnd_append, rowEnd_cons, rowEnd_nil]
    have later : rowEnd 20 arena.base (front ++ [last]) ≠ arena.base := by omega
    have result : coalesceBackward h.mem h.heapStart (rowEnd 20 arena.base (front ++ [last])) =
        if rowEnd 20 arena.base front ≠ 0 ∧
            getField h.mem (rowEnd 20 arena.base front) .magic = heapMagicFree then
          .ok (absorb h.mem (rowEnd 20 arena.base front)
            (rowEnd 20 arena.base front + 20 + last.size))
        else .ok h.mem := by
      rw [coalesceBackward, started, if_pos later, found, ok_bind, isEnd]
    rw [result]
    rcases last with ⟨lastSize, none | old⟩
    · have merges : rowEnd 20 arena.base front ≠ 0 ∧
          getField h.mem (rowEnd 20 arena.base front) .magic = heapMagicFree :=
        ⟨by omega, header.free rfl⟩
      obtain ⟨settledFront, -, ends, -⟩ := settled_free.mp settled
      refine ⟨_, lastSize + (20 + size), [⟨lastSize, none⟩], front, if_pos merges, rfl, ?_,
        settledFront, ends, ?_, tiled.absorb, fun i outside => absorb_other outside⟩
      · intro block member
        obtain rfl := mem_singleton.mp member
        rfl
      · simp only [isEnd]
        omega
    · have stops : ¬ (rowEnd 20 arena.base front ≠ 0 ∧
          getField h.mem (rowEnd 20 arena.base front) .magic = heapMagicFree) := by
        intro merges
        exact absurd ((header.used old rfl).1.symm.trans merges.2) (by decide)
      refine ⟨h.mem, size, [], front ++ [⟨lastSize, some old⟩], if_neg stops, by simp, ?_, settled,
        ?_,
        rfl, ?_, fun _ _ => rfl⟩
      · exact fun block member => absurd member not_mem_nil
      · intro block member
        rw [getLast?_append, getLast?_singleton] at member
        obtain rfl := Option.some.inj member
        rfl
      · rwa [append_assoc]

/-- A free gives up the payload it names and no other. -/
theorem free_spec (sound : Sound arena h row) (handed : payload ∈ payloads 20 arena.base row) :
    ∃ h' row',
      free h payload.ptr = .ok h' ∧ Changed arena payload.ptr h row h' row' [payload] [] := by
  obtain ⟨front, back, rfl, isPtr⟩ := exists_block handed
  rcases payload with ⟨ptr, requested, capacity⟩
  simp only at isPtr sound ⊢
  obtain ⟨-, header, -⟩ := chained_append.mp sound.tiled.chained
  obtain ⟨settledFront, settledBack⟩ := settled_used.mp sound.settled
  obtain ⟨marked, -⟩ := header.used requested rfl
  -- The block is marked free, takes in what is free behind it, and goes to what is free in front.
  obtain ⟨mem, size, taken, rest, forward, rfl, takenFree, settledRest, starts, extent, tiled,
    others⟩ := coalesceForward_spec sound.tiled.markFree settledBack
  obtain ⟨mem', size', taken', rest', backward, rfl, takenFree', settledRest', ends, extent',
    tiled', others'⟩ := coalesceBackward_spec tiled settledFront
  have whole : Sound arena h
      (rest' ++ ((taken' ++ ⟨capacity, some requested⟩ :: taken) ++ rest)) := by
    simpa using sound
  have removed : payloads 20 (rowEnd 20 arena.base rest')
      (taken' ++ ⟨capacity, some requested⟩ :: taken) = [⟨ptr, requested, capacity⟩] := by
    rw [payloads_append, takenFree'.payloads_eq, payloads_used, takenFree.payloads_eq, isPtr,
      rowEnd_append]
    rfl
  have low : rowEnd 20 arena.base rest' ≤ rowEnd 20 arena.base (rest' ++ taken') := by
    rw [rowEnd_append]
    exact start_le_rowEnd
  have sameEnd : rowEnd 20 (rowEnd 20 arena.base rest')
      (taken' ++ ⟨capacity, some requested⟩ :: taken) =
        rowEnd 20 arena.base rest' + 20 + size' := by
    rw [rowEnd_append, rowEnd_cons, ← rowEnd_append, extent, extent']
  let final : Heap := { h with
    mem := mem'
    corrupted := if blockCanaryOk h.mem (rowEnd 20 arena.base (rest' ++ taken')) then h.corrupted
      else add32 h.corrupted 1 }
  refine ⟨final, rest' ++ ([⟨size', none⟩] ++ rest), ?_, ?_⟩
  · have notNull : ptr ≠ 0 := by omega
    have isBlock : ptr - headerSize = rowEnd 20 arena.base (rest' ++ taken') := by
      rw [isPtr, headerSize, Nat.add_sub_cancel]
    simp only at forward backward
    rw [free, if_neg notNull]
    simp only [isBlock, marked]
    rw [if_neg (by decide), if_neg (by decide)]
    simp only [forward, ok_bind, backward, final]
  · rw [show (rest' ++ taken') ++ ⟨capacity, some requested⟩ :: (taken ++ rest) =
      rest' ++ ((taken' ++ ⟨capacity, some requested⟩ :: taken) ++ rest) by simp]
    refine Changed.ofEdit whole { tiled' with }
      (settled_free.mpr ⟨settledRest', settledRest, ends, starts⟩) sameEnd.symm removed rfl ?_ ?_ ?_
    · intro i outside
      rw [sameEnd] at outside
      show mem' i = h.mem i
      rw [others' i (by omega)]
      exact (others i (by omega)).trans (setField_other (by omega))
    · intro payload member
      obtain rfl := mem_singleton.mp member
      rfl
    · intro payload member
      exact absurd member not_mem_nil

end M4KK1.Libc
