import M4KK1.Libc.HeapCalls

/-!
# What `realloc` does

The block keeps its place, takes in the one behind it, moves, or is freed.
-/

namespace M4KK1.Libc

open M4KK1.Lib List

variable {arena : Arena} {h : Heap} {row front back : List RowBlock}
  {size old more want requested : Nat} {payload : Payload}

theorem shrink_spec (sound : Sound arena h (front ++ ⟨size, some old⟩ :: back)) (fits : want ≤ size)
    (enough : requested < want) :
    ∃ mem' row' capacity, shrinkBlock h.mem (rowEnd 20 arena.base front) want = .ok mem' ∧
      Changed arena (rowEnd 20 arena.base front + 20) h (front ++ ⟨size, some old⟩ :: back)
        { h with mem := resize mem' (rowEnd 20 arena.base front) requested } row'
        [⟨rowEnd 20 arena.base front + 20, old, size⟩]
        [⟨rowEnd 20 arena.base front + 20, requested, capacity⟩] := by
  have whole : Sound arena h (front ++ ([⟨size, some old⟩] ++ back)) := sound
  obtain ⟨positive, high⟩ := whole.tiled.bounds
  simp only [rowEnd_cons, rowEnd_nil] at high
  obtain ⟨settledFront, settledBack⟩ := settled_used.mp sound.settled
  obtain ⟨-, header, -⟩ := chained_append.mp sound.tiled.chained
  have isPassed : ∀ payload ∈ [Payload.mk (rowEnd 20 arena.base front + 20) old size],
      payload.ptr = rowEnd 20 arena.base front + 20 := by
    intro payload member
    obtain rfl := mem_singleton.mp member
    rfl
  by_cases splits : size - want ≥ headerSize + heapSplitMin
  · have isSplit := splits
    rw [headerSize, heapSplitMin] at isSplit
    have split := sound.tiled.split (show want + 20 < size by omega)
    have moved :
        Tiled arena _ ((front ++ [⟨want, some old⟩]) ++ ⟨size - want - 20, none⟩ :: back) :=
      (append_assoc front [⟨want, some old⟩] (⟨size - want - 20, none⟩ :: back)) ▸ split
    obtain ⟨mem', size', taken, rest, forward, rfl, takenFree, settledRest, starts, extent, tiled,
      others⟩ := coalesceForward_spec moved settledBack
    have behind : rowEnd 20 arena.base front + 20 + want + 20 + (size - want - 20) =
        rowEnd 20 arena.base front + 20 + size := by omega
    simp only [rowEnd_append, rowEnd_cons, rowEnd_nil, behind] at forward extent others
    rw [append_assoc] at tiled
    have longer : Sound arena h (front ++ ((⟨size, some old⟩ :: taken) ++ rest)) := sound
    have sameEnd : rowEnd 20 (rowEnd 20 arena.base front) (⟨size, some old⟩ :: taken) =
        rowEnd 20 arena.base front + 20 + want + 20 + size' := extent
    refine ⟨mem', front ++ ([⟨want, some requested⟩, ⟨size', none⟩] ++ rest), want, ?_, ?_⟩
    · rw [shrinkBlock, header.size, if_pos splits]
      exact forward
    · refine Changed.ofEdit longer (tiled.keepFor enough) ?_ sameEnd.symm ?_ rfl ?_ isPassed ?_
      · exact settled_used.mpr ⟨settledFront, settled_cons_free.mpr ⟨settledRest, starts⟩⟩
      · rw [payloads_used, takenFree.payloads_eq]
      · intro i outside
        rw [sameEnd] at outside
        refine (resize_other (by omega) (by omega) (by omega)).trans
          ((others i (by omega)).trans ?_)
        rw [setField_other (by omega), splitTail_other (by omega) (by omega)]
      · intro payload member
        obtain rfl := mem_singleton.mp member
        exact enough
  · refine ⟨h.mem, front ++ ([⟨size, some requested⟩] ++ back), size, ?_, ?_⟩
    · rw [shrinkBlock, header.size, if_neg splits]
    · refine Changed.ofEdit whole (sound.tiled.keepFor (by omega)) ?_ rfl rfl rfl ?_ isPassed ?_
      · exact settled_used.mpr ⟨settledFront, settledBack⟩
      · intro i outside
        simp only [rowEnd_cons, rowEnd_nil] at outside
        exact resize_other (by omega) (by omega) (by omega)
      · intro payload member
        obtain rfl := mem_singleton.mp member
        show requested < size
        omega

theorem absorbTotal_spec {request : Option Nat}
    (tiled : Tiled arena h (front ++ ⟨size, request⟩ :: back)) (settled : Settled back) :
    (absorbTotal h.mem walkLimit (getField h.mem (rowEnd 20 arena.base front) .next) size =
      .ok size) ∨
    ∃ more rest, back = ⟨more, none⟩ :: rest ∧ Settled rest ∧ StartsUsed rest ∧
      absorbTotal h.mem walkLimit (getField h.mem (rowEnd 20 arena.base front) .next) size =
        .ok (size + (20 + more)) := by
  obtain ⟨-, header, chained⟩ := chained_append.mp tiled.chained
  rw [header.next, show walkLimit = 4294967294 + 1 + 1 from rfl]
  rcases settled_cases settled with starts | ⟨more, rest, rfl, settledRest, startsRest⟩
  · refine Or.inl ?_
    rw [absorbTotal, if_neg (link_stops starts chained)]
  · have whole : Tiled arena h (front ++ ([⟨size, request⟩, ⟨more, none⟩] ++ rest)) := tiled
    have high := whole.bounds.2
    simp only [rowEnd_cons, rowEnd_nil] at high
    have continues : rowEnd 20 arena.base front + 20 + size ≠ 0 ∧
        getField h.mem (rowEnd 20 arena.base front + 20 + size) .magic = heapMagicFree :=
      ⟨by omega, chained.1.free rfl⟩
    have isSize : getField h.mem (rowEnd 20 arena.base front + 20 + size) .size = more :=
      chained.1.size
    have isNext : getField h.mem (rowEnd 20 arena.base front + 20 + size) .next =
        linkTo (rowEnd 20 arena.base front + 20 + size + 20 + more) 0 rest := chained.1.next
    refine Or.inr ⟨more, rest, rfl, settledRest, startsRest, ?_⟩
    rw [linkTo, absorbTotal, if_pos continues, isSize, isNext, absorbTotal,
      if_neg (link_stops startsRest chained.2), headerSize,
      add32_eq (show 20 + more < 4294967296 by omega), add32_eq (by omega)]

theorem unlinkFree_spec {request : Option Nat}
    (tiled : Tiled arena h (front ++ ⟨size, request⟩ :: ⟨more, none⟩ :: back))
    (starts : StartsUsed back) :
    unlinkFree (rowEnd 20 arena.base front) walkLimit h.mem
        (getField h.mem (rowEnd 20 arena.base front) .next) =
      .ok (setField h.mem (rowEnd 20 arena.base front) .next
        (linkTo (rowEnd 20 arena.base front + 20 + size + 20 + more) 0 back)) := by
  obtain ⟨-, header, next, chained⟩ := chained_append.mp tiled.chained
  have continues : rowEnd 20 arena.base front + 20 + size ≠ 0 ∧
      getField h.mem (rowEnd 20 arena.base front + 20 + size) .magic = heapMagicFree :=
    ⟨by omega, next.free rfl⟩
  have isNext : getField h.mem (rowEnd 20 arena.base front + 20 + size) .next =
      linkTo (rowEnd 20 arena.base front + 20 + size + 20 + more) 0 back := next.next
  have unlinked : Chained (setField h.mem (rowEnd 20 arena.base front) .next
      (linkTo (rowEnd 20 arena.base front + 20 + size + 20 + more) 0 back)) 0
      (rowEnd 20 arena.base front + 20 + size + 20 + more) back :=
    chained.congr fun i above _ => setField_other (by omega)
  rw [header.next, show walkLimit = 4294967294 + 1 + 1 from rfl, linkTo, unlinkFree,
    if_pos continues, isNext]
  simp only [getField_setField_self next.link_lt]
  rw [unlinkFree, if_neg (link_stops starts unlinked)]

theorem grow_spec (sound : Sound arena h (front ++ ⟨size, some old⟩ :: ⟨more, none⟩ :: back))
    (fits : want ≤ size + (20 + more)) (enough : requested < want) :
    ∃ mem' row' capacity,
      growBlock h.mem (rowEnd 20 arena.base front) want (size + (20 + more)) = .ok mem' ∧
      Changed arena (rowEnd 20 arena.base front + 20) h
        (front ++ ⟨size, some old⟩ :: ⟨more, none⟩ :: back)
        { h with mem := resize mem' (rowEnd 20 arena.base front) requested } row'
        [⟨rowEnd 20 arena.base front + 20, old, size⟩]
        [⟨rowEnd 20 arena.base front + 20, requested, capacity⟩] := by
  have whole : Sound arena h (front ++ ([⟨size, some old⟩, ⟨more, none⟩] ++ back)) := sound
  obtain ⟨positive, high⟩ := whole.tiled.bounds
  simp only [rowEnd_cons, rowEnd_nil] at high
  obtain ⟨settledFront, settledBack⟩ := settled_used.mp sound.settled
  obtain ⟨settledRest, starts⟩ := settled_cons_free.mp settledBack
  have unlinked := unlinkFree_spec sound.tiled starts
  have isPassed : ∀ payload ∈ [Payload.mk (rowEnd 20 arena.base front + 20) old size],
      payload.ptr = rowEnd 20 arena.base front + 20 := by
    intro payload member
    obtain rfl := mem_singleton.mp member
    rfl
  by_cases splits : size + (20 + more) - want ≥ headerSize + heapSplitMin
  · have isSplit := splits
    rw [headerSize, heapSplitMin] at isSplit
    have shifted := sound.tiled.shift (show want + 20 < size + (20 + more) by omega)
    refine ⟨_, front ++ ([⟨want, some requested⟩, ⟨size + (20 + more) - want - 20, none⟩] ++ back),
      want, ?_, Changed.ofEdit whole (shifted.keepFor enough) ?_ ?_ rfl rfl ?_ isPassed ?_⟩
    · simp only [growBlock, unlinked, ok_bind, if_pos splits]
    · exact settled_used.mpr ⟨settledFront, settled_cons_free.mpr ⟨settledRest, starts⟩⟩
    · simp only [rowEnd_cons, rowEnd_nil]
      omega
    · intro i outside
      simp only [rowEnd_cons, rowEnd_nil] at outside
      refine (resize_other (by omega) (by omega) (by omega)).trans ?_
      refine (setField_other (by omega)).trans ?_
      rw [splitTail_other (by omega) (by omega), setField_other (by omega)]
    · intro payload member
      obtain rfl := mem_singleton.mp member
      exact enough
  · have widened := sound.tiled.widen
    refine ⟨_, front ++ ([⟨size + (20 + more), some requested⟩] ++ back), size + (20 + more), ?_,
      Changed.ofEdit whole (widened.keepFor (show requested < size + (20 + more) by omega))
        ?_ ?_ rfl rfl ?_ isPassed ?_⟩
    · simp only [growBlock, unlinked, ok_bind, if_neg splits]
    · exact settled_used.mpr ⟨settledFront, settledRest⟩
    · simp only [rowEnd_cons, rowEnd_nil]
      omega
    · intro i outside
      simp only [rowEnd_cons, rowEnd_nil] at outside
      refine (resize_other (by omega) (by omega) (by omega)).trans ?_
      exact (setField_other (by omega)).trans (setField_other (by omega))
    · intro payload member
      obtain rfl := mem_singleton.mp member
      show requested < size + (20 + more)
      omega

theorem Changed.moved {h₁ h₂ : Heap} {row₁ row₂ : List RowBlock} {new : Payload}
    (gained : Changed arena 0 h row h₁ row₁ [] [new])
    (lost : Changed arena payload.ptr h₁ row₁ h₂ row₂ [payload] [])
    (handed : payload ∈ payloads 20 arena.base row) :
    Changed arena payload.ptr h row h₂ row₂ [payload] [new] := by
  obtain ⟨rest₁, before, middle⟩ := gained.handed
  obtain ⟨rest₂, middle', after⟩ := lost.handed
  refine ⟨lost.sound, ?_, ?_⟩
  · have old := perm_cons_erase handed
    refine ⟨(payloads 20 arena.base row).erase payload, old, after.trans ?_⟩
    have both : (payload :: rest₂).Perm
        (payload :: new :: (payloads 20 arena.base row).erase payload) :=
      calc payload :: rest₂
        _ |>.Perm (payloads 20 arena.base row₁) := middle'.symm
        _ |>.Perm (new :: rest₁) := middle
        _ |>.Perm (new :: payload :: (payloads 20 arena.base row).erase payload) :=
            (before.symm.trans old).cons new
        _ |>.Perm (payload :: new :: (payloads 20 arena.base row).erase payload) := .swap _ _ _
    exact both.cons_inv
  · intro other isHanded notPassed i low high
    have kept := (gained.fresh.2 other isHanded).1
    rw [lost.spares other kept notPassed i low high,
      gained.spares other isHanded (ptr_ne_zero isHanded) i low high]

theorem move_spec (sound : Sound arena h row) (handed : payload ∈ payloads 20 arena.base row)
    (size : Nat) :
    moveBlock arena h payload.ptr size = .ok (h, 0) ∨
    ∃ h' row' new, moveBlock arena h payload.ptr size = .ok (h', new.ptr) ∧ new.requested = size ∧
      Changed arena payload.ptr h row h' row' [payload] [new] := by
  rcases malloc_spec sound size with refused | ⟨h₁, row₁, new, served, isSize, gained⟩
  · exact Or.inl (by simp [moveBlock, refused])
  · have isNew := gained.fresh.1
    have notNull : new.ptr ≠ 0 := ptr_ne_zero isNew
    have roomy := gained.sound.roomy new isNew
    let copy := if getField h.mem (payload.ptr - headerSize) .reqSize < size then
      getField h.mem (payload.ptr - headerSize) .reqSize else size
    have short : copy ≤ size := by
      simp only [copy]
      split
      · omega
      · exact Nat.le_refl _
    have copied : Changed arena 0 h row
        { h₁ with mem := copyBytes copy h₁.mem new.ptr payload.ptr } row₁ [] [new] :=
      gained.write fun i outside => copyBytes_other (by omega)
    have kept := (copied.fresh.2 payload handed).1
    obtain ⟨h₂, row₂, freed, lost⟩ := free_spec copied.sound kept
    refine Or.inr ⟨h₂, row₂, new, ?_, isSize, copied.moved lost handed⟩
    simp only [moveBlock, served, ok_bind, if_pos notNull]
    simp only [copy] at freed
    simp only [freed, ok_bind]

/-- A `realloc` fails, frees, or exchanges the payload for one of the new size. -/
theorem realloc_spec (sound : Sound arena h row) (handed : payload ∈ payloads 20 arena.base row)
    (size : Nat) :
    (size ≠ 0 ∧ realloc arena h payload.ptr size = .ok (h, 0)) ∨
    (size = 0 ∧ ∃ h' row', realloc arena h payload.ptr size = .ok (h', 0) ∧
      Changed arena payload.ptr h row h' row' [payload] []) ∨
    ∃ h' row' new, realloc arena h payload.ptr size = .ok (h', new.ptr) ∧ new.requested = size ∧
      Changed arena payload.ptr h row h' row' [payload] [new] := by
  have notNull := ptr_ne_zero handed
  rw [realloc, if_neg notNull]
  by_cases nothing : size = 0
  · obtain ⟨h', row', freed, lost⟩ := free_spec sound handed
    refine Or.inr (Or.inl ⟨nothing, h', row', ?_, lost⟩)
    rw [if_pos nothing, freed, ok_bind]
  rw [if_neg nothing]
  have moves := move_spec sound handed size
  obtain ⟨front, back, rfl, isPtr⟩ := exists_block handed
  rcases payload with ⟨ptr, old, capacity⟩
  simp only at isPtr sound moves ⊢
  obtain ⟨-, header, -⟩ := chained_append.mp sound.tiled.chained
  have isBlock : ptr - headerSize = rowEnd 20 arena.base front := by
    rw [isPtr, headerSize, Nat.add_sub_cancel]
  have enough : size < capacityFor size := by
    rw [capacityFor]
    omega
  simp only [isBlock, (header.used old rfl).1, header.size]
  rw [if_neg (by decide)]
  by_cases large : size > heapSize
  · exact Or.inl ⟨nothing, if_pos large⟩
  rw [if_neg large]
  by_cases shrinks : capacity ≥ capacityFor size
  · obtain ⟨mem', row', capacity', shrunk, changed⟩ := shrink_spec sound shrinks enough
    rw [← isPtr] at changed
    refine Or.inr (Or.inr ⟨_, row', _, ?_, rfl, changed⟩)
    rw [if_pos shrinks, shrunk, ok_bind]
  rw [if_neg shrinks]
  have settledBack := (settled_used.mp sound.settled).2
  rcases absorbTotal_spec sound.tiled settledBack with total | ⟨more, rest, rfl, -, -, total⟩
  · rw [total, ok_bind, if_neg shrinks]
    rcases moves with refused | moved
    · exact Or.inl ⟨nothing, refused⟩
    · exact Or.inr (Or.inr moved)
  · rw [total, ok_bind]
    by_cases grows : capacity + (20 + more) ≥ capacityFor size
    · obtain ⟨mem', row', capacity', grown, changed⟩ := grow_spec sound grows enough
      rw [← isPtr] at changed
      refine Or.inr (Or.inr ⟨_, row', _, ?_, rfl, changed⟩)
      rw [if_pos grows, grown, ok_bind]
    · rw [if_neg grows]
      rcases moves with refused | moved
      · exact Or.inl ⟨nothing, refused⟩
      · exact Or.inr (Or.inr moved)

end M4KK1.Libc
