import M4KK1.Libc.HeapSessions

/-!
# What `realloc` does to the bytes

A block that moves is copied before it is freed, in runs with `SparesHeaders`.
-/

namespace M4KK1.Libc

open M4KK1.Lib List

variable {arena : Arena} {h h' : Heap} {mem mem' : ByteMemory} {row front back : List RowBlock}
  {payload : Payload} {address block want total next ptr size q i fuel : Nat}

theorem coalesceForward_other (outside : i < address ∨ address + 20 ≤ i) :
    ∀ {fuel : Nat} {mem : ByteMemory} {next : Nat},
      coalesceForward address fuel mem next = .ok mem' → mem' i = mem i := by
  intro fuel
  induction fuel with
  | zero =>
    intro mem next done
    rw [coalesceForward] at done
    cases done
  | succ fuel ih =>
    intro mem next done
    rw [coalesceForward] at done
    split at done
    · exact (ih done).trans (absorb_other outside)
    · exact congrFun (Except.ok.inj done).symm i

theorem unlinkFree_other (outside : i < address ∨ address + 20 ≤ i) :
    ∀ {fuel : Nat} {mem : ByteMemory} {it : Nat},
      unlinkFree address fuel mem it = .ok mem' → mem' i = mem i := by
  intro fuel
  induction fuel with
  | zero =>
    intro mem it done
    rw [unlinkFree] at done
    cases done
  | succ fuel ih =>
    intro mem it done
    rw [unlinkFree] at done
    split at done
    · exact (ih done).trans (setField_other outside)
    · exact congrFun (Except.ok.inj done).symm i

theorem shrinkBlock_keeps (cut : shrinkBlock mem address want = .ok mem')
    (low : address + 20 ≤ i) (high : i < address + 20 + want) : mem' i = mem i := by
  rw [shrinkBlock] at cut
  split at cut
  · rw [headerSize] at cut
    refine (coalesceForward_other (Or.inl high) cut).trans ?_
    rw [setField_other (Or.inr low), splitTail_other (Or.inr low) (Or.inl high)]
  · exact congrFun (Except.ok.inj cut).symm i

theorem growBlock_keeps (grown : growBlock mem address want total = .ok mem')
    (low : address + 20 ≤ i) (high : i < address + 20 + want) : mem' i = mem i := by
  rw [growBlock] at grown
  cases unlinked : unlinkFree address walkLimit mem (getField mem address .next) with
  | error fault =>
    rw [unlinked] at grown
    cases grown
  | ok middle =>
    rw [unlinked, ok_bind] at grown
    refine Eq.trans ?_ (unlinkFree_other (Or.inr low) unlinked)
    simp only at grown
    split at grown
    · rw [← Except.ok.inj grown, setField_other (Or.inr low),
        splitTail_other (Or.inr low) (Or.inl high)]
    · rw [← Except.ok.inj grown, setField_other (Or.inr low)]

theorem resize_keeps (small : size < 4294967296) (low : address + 20 ≤ i)
    (high : i < address + 20 + size) : resize mem address size i = mem i :=
  resize_other (Or.inr low) (by omega) small

theorem payloads_apart {other : Payload} (handed : payload ∈ payloads 20 arena.base row)
    (handed' : other ∈ payloads 20 arena.base row) (different : payload.ptr ≠ other.ptr) :
    payload.ptr + payload.capacity ≤ other.ptr ∨ other.ptr + other.capacity ≤ payload.ptr := by
  let Apart (left right : Payload) : Prop :=
    left.ptr + left.capacity ≤ right.ptr ∨ right.ptr + right.capacity ≤ left.ptr
  have symmetric : Std.Symm Apart := ⟨fun _ _ apart => apart.symm⟩
  have separate : (payloads 20 arena.base row).Pairwise Apart :=
    payloads_pairwise.imp fun before => Or.inl (by omega)
  exact separate.forall handed handed' fun same => different (congrArg Payload.ptr same)

theorem moveBlock_keeps (sound : Sound arena h row) (handed : payload ∈ payloads 20 arena.base row)
    (moved : moveBlock arena h payload.ptr size = .ok (h', q)) (granted : q ≠ 0)
    (within : i < min payload.requested size) : h'.mem (q + i) = h.mem (payload.ptr + i) := by
  obtain ⟨front, back, isRow, isPtr⟩ := exists_block handed
  have asked : getField h.mem (payload.ptr - headerSize) .reqSize = payload.requested := by
    have chained := sound.tiled.chained
    rw [isRow] at chained
    obtain ⟨-, header, -⟩ := chained_append.mp chained
    rw [isPtr, headerSize, Nat.add_sub_cancel]
    exact (header.used payload.requested rfl).2
  have count : (if payload.requested < size then payload.requested else size) =
      min payload.requested size := by
    rw [Nat.min_def]
    split <;> split <;> omega
  rw [moveBlock, asked, count] at moved
  rcases malloc_spec sound size with refused | ⟨h₁, row₁, new, served, isSize, gained⟩
  · rw [refused, ok_bind] at moved
    simp only [ne_eq, not_true_eq_false, if_false, Except.ok.injEq, Prod.mk.injEq] at moved
    exact absurd moved.2.symm granted
  obtain ⟨isNew, others⟩ := gained.fresh
  obtain ⟨isKept, isOther⟩ := others payload handed
  have roomy := gained.sound.roomy new isNew
  have roomyOld := sound.roomy payload handed
  have apart := payloads_apart isNew isKept isOther.symm
  have copied : Changed arena 0 h row
      { h₁ with mem := copyBytes (min payload.requested size) h₁.mem new.ptr payload.ptr } row₁
      [] [new] :=
    gained.write fun i outside => copyBytes_other (by omega)
  obtain ⟨h₂, row₂, freed, lost⟩ := free_spec copied.sound isKept
  rw [served, ok_bind] at moved
  simp only [if_pos (ptr_ne_zero isNew), freed, ok_bind, Except.ok.injEq, Prod.mk.injEq] at moved
  obtain ⟨rfl, rfl⟩ := moved
  calc h₂.mem (new.ptr + i)
    _ = copyBytes (min payload.requested size) h₁.mem new.ptr payload.ptr (new.ptr + i) :=
        lost.spares new isNew isOther.symm _ (by omega) (by omega)
    _ = h₁.mem (payload.ptr + i) := copyBytes_self (by omega) within
    _ = h.mem (payload.ptr + i) :=
        gained.spares payload handed (ptr_ne_zero handed) _ (by omega) (by omega)

theorem realloc_keeps (sound : Sound arena h row)
    (handed : payload ∈ payloads 20 arena.base row) (asked : size ≠ 0)
    (returned : realloc arena h payload.ptr size = .ok (h', q)) (granted : q ≠ 0)
    (within : i < min payload.requested size) : h'.mem (q + i) = h.mem (payload.ptr + i) := by
  have bounds := payload_bounds handed
  have isBlock : payload.ptr - headerSize + 20 = payload.ptr := by
    rw [headerSize]
    omega
  have enough : size < capacityFor size := by
    rw [capacityFor]
    omega
  have low : payload.ptr - headerSize + 20 ≤ payload.ptr + i := by omega
  have high : payload.ptr + i < payload.ptr - headerSize + 20 + size := by omega
  rw [realloc, if_neg (ptr_ne_zero handed), if_neg asked] at returned
  simp only at returned
  split at returned
  · exact absurd (congrArg Prod.snd (Except.ok.inj returned)).symm granted
  split at returned
  · exact absurd (congrArg Prod.snd (Except.ok.inj returned)).symm granted
  rename_i small
  have fits : size < 4294967296 := by
    rw [heapSize] at small
    omega
  split at returned
  · cases cut : shrinkBlock h.mem (payload.ptr - headerSize) (capacityFor size) with
    | error fault =>
      rw [cut] at returned
      cases returned
    | ok middle =>
      rw [cut, ok_bind] at returned
      obtain ⟨rfl, rfl⟩ := Prod.mk.inj (Except.ok.inj returned)
      exact (resize_keeps fits low high).trans (shrinkBlock_keeps cut low (by omega))
  cases summed : absorbTotal h.mem walkLimit (getField h.mem (payload.ptr - headerSize) .next)
      (getField h.mem (payload.ptr - headerSize) .size) with
  | error fault =>
    rw [summed] at returned
    cases returned
  | ok total =>
    rw [summed, ok_bind] at returned
    split at returned
    · cases grown : growBlock h.mem (payload.ptr - headerSize) (capacityFor size) total with
      | error fault =>
        rw [grown] at returned
        cases returned
      | ok middle =>
        rw [grown, ok_bind] at returned
        obtain ⟨rfl, rfl⟩ := Prod.mk.inj (Except.ok.inj returned)
        exact (resize_keeps fits low high).trans (growBlock_keeps grown low (by omega))
    · exact moveBlock_keeps sound handed returned granted within

/-- The header that a pointer would have lies in the bytes of one block. -/
def LiesInBlock (arena : Arena) (row : List RowBlock) (ptr : Nat) : Prop :=
  ∃ front block back, row = front ++ block :: back ∧
    rowEnd 20 arena.base front + 20 ≤ ptr - headerSize ∧
    ptr ≤ rowEnd 20 arena.base front + 20 + block.size

/-- A pointer freed once more has no mark of a block in use in front of it, or one in a block's
bytes. -/
def SparesHeaders (arena : Arena) (session : Session) : Action → Prop
  | .free ptr => FreesKnownBlock session (.free ptr) ∨
    ∀ row, Tiled arena session.heap row → LiesInBlock arena row ptr
  | _ => True

theorem SparesHeaders.ofKnown {session : Session} {action : Action}
    (known : FreesKnownBlock session action) : SparesHeaders arena session action := by
  cases action with
  | free ptr => exact Or.inl known
  | malloc | calloc | realloc | store => exact trivial

theorem Sound.writeBlock {block : RowBlock} (sound : Sound arena h (front ++ block :: back))
    (outside : ∀ i, i < rowEnd 20 arena.base front + 20 ∨
      rowEnd 20 arena.base front + 20 + block.size ≤ i → mem' i = h.mem i) :
    Sound arena { h with mem := mem' } (front ++ block :: back) := by
  have whole : Tiled arena h (front ++ ([block] ++ back)) := sound.tiled
  obtain ⟨-, header, -⟩ := chained_append.mp sound.tiled.chained
  refine ⟨whole.edit (by simp) (by simp) rfl ?_ ⟨header.congr ?_, trivial⟩, sound.settled,
    sound.roomy⟩
  · intro i away
    simp only [rowEnd_cons, rowEnd_nil] at away
    exact outside i (by omega)
  · intro i _ below
    exact outside i (Or.inl below)

theorem LiesInBlock.notStart (lies : LiesInBlock arena row ptr) :
    ∀ front block back, row = front ++ block :: back →
      rowEnd 20 arena.base front ≠ ptr - headerSize := by
  obtain ⟨front, block, back, rfl, low, high⟩ := lies
  rw [headerSize] at low ⊢
  intro front' block' back' same isStart
  rcases append_eq_append_iff.mp same with ⟨between, rfl, split⟩ | ⟨between, rfl, -⟩
  · cases between with
    | nil =>
      rw [append_nil] at isStart
      omega
    | cons first between =>
      obtain rfl : block = first := (List.cons.inj split).1
      rw [rowEnd_append, rowEnd_cons] at isStart
      have behind : rowEnd 20 arena.base front + 20 + block.size ≤
          rowEnd 20 (rowEnd 20 arena.base front + 20 + block.size) between := start_le_rowEnd
      omega
  · rw [rowEnd_append] at low
    have behind : rowEnd 20 arena.base front' ≤
        rowEnd 20 (rowEnd 20 arena.base front') between := start_le_rowEnd
    omega

theorem findPredecessor_none {mem : ByteMemory} {target : Nat} (notNull : target ≠ 0) :
    ∀ {row : List RowBlock} {start fuel p : Nat}, Chained mem 0 start row →
      (∀ front block back, row = front ++ block :: back → rowEnd 20 start front ≠ target) →
      findPredecessor mem target fuel (linkTo start 0 row) = .ok p → p = 0 := by
  intro row
  induction row with
  | nil =>
    intro start fuel p _ _ found
    cases fuel with
    | zero => cases found
    | succ fuel =>
      rw [linkTo, findPredecessor, if_neg (by simp)] at found
      exact (Except.ok.inj found).symm
  | cons block row ih =>
    intro start fuel p chained notStart found
    cases fuel with
    | zero => cases found
    | succ fuel =>
      have isNext : getField mem start .next = linkTo (start + 20 + block.size) 0 row :=
        chained.1.next
      have notNext : linkTo (start + 20 + block.size) 0 row ≠ target := by
        cases row with
        | nil => exact notNull.symm
        | cons second row => exact notStart [block] second row rfl
      rw [linkTo, findPredecessor, isNext] at found
      split at found
      · exact ih chained.2 (fun front _ _ split =>
          notStart (block :: front) _ _ (by rw [split]; rfl)) found
      · rename_i stopped
        rw [← Except.ok.inj found]
        by_contra isStart
        exact stopped ⟨isStart, notNext⟩

theorem free_inside (sound : Sound arena h row) (lies : LiesInBlock arena row ptr)
    (freed : free h ptr = .ok h') : Sound arena h' row := by
  have notStart := lies.notStart
  obtain ⟨front, block, back, rfl, low, high⟩ := lies
  have above : 0 < rowEnd 20 arena.base front :=
    lt_of_lt_of_le arena.notNull start_le_rowEnd
  have isSize : headerSize = 20 := rfl
  by_cases marked : getField h.mem (ptr - headerSize) .magic = heapMagicUsed
  swap
  · obtain ⟨badFree, doubleFree, ignored⟩ := free_ignored (Or.inr marked)
    rw [← Except.ok.inj (ignored.symm.trans freed)]
    exact ⟨{ sound.tiled with }, sound.settled, sound.roomy⟩
  have notFree : getField h.mem (ptr - headerSize) .magic ≠ heapMagicFree := by
    rw [marked]
    decide
  rw [free, if_neg (by omega)] at freed
  simp only at freed
  rw [if_neg (fun wild => wild.1 marked), if_neg notFree] at freed
  cases forward : coalesceForward (ptr - headerSize) walkLimit
      (setField h.mem (ptr - headerSize) .magic heapMagicFree)
      (getField (setField h.mem (ptr - headerSize) .magic heapMagicFree) (ptr - headerSize)
        .next) with
  | error fault =>
    rw [forward] at freed
    cases freed
  | ok merged =>
    have written : Sound arena { h with mem := merged } (front ++ block :: back) := by
      refine sound.writeBlock fun i outside => ?_
      rw [coalesceForward_other (by omega) forward, setField_other (by omega)]
    -- What the free takes for a block is in no link, so that nothing is merged with it from behind.
    have alone : ∀ {mem'}, coalesceBackward merged h.heapStart (ptr - headerSize) = .ok mem' →
        mem' = merged := by
      intro mem' backward
      rw [coalesceBackward] at backward
      split at backward
      · rw [sound.tiled.started] at backward
        cases walked : findPredecessor merged (ptr - headerSize) walkLimit
            (linkTo arena.base 0 (front ++ block :: back)) with
        | error fault =>
          rw [walked] at backward
          cases backward
        | ok p =>
          obtain rfl := findPredecessor_none (by omega) written.tiled.chained notStart walked
          rw [walked, ok_bind, if_neg (by simp)] at backward
          exact (Except.ok.inj backward).symm
      · exact (Except.ok.inj backward).symm
    rw [forward, ok_bind] at freed
    cases backward : coalesceBackward merged h.heapStart (ptr - headerSize) with
    | error fault =>
      rw [backward] at freed
      cases freed
    | ok final =>
      rw [backward, ok_bind] at freed
      obtain rfl := alone backward
      rw [← Except.ok.inj freed]
      exact ⟨{ written.tiled with }, written.settled, written.roomy⟩

variable {session next final : Session} {actions : List Action} {p old n : Nat}

theorem SessionInv.step {action : Action} (inv : SessionInv arena session)
    (spares : SparesHeaders arena session action) (stepped : HeapStep arena session action next) :
    SessionInv arena next := by
  obtain ⟨permitted, performed⟩ := stepped
  have known : FreesKnownBlock session action → SessionInv arena next := by
    intro known
    obtain ⟨next', performed', inv', -⟩ := perform_spec inv permitted known
    obtain rfl := Except.ok.inj (performed'.symm.trans performed)
    exact inv'
  cases action with
  | malloc | calloc | realloc | store => exact known trivial
  | free ptr =>
    rcases spares with isKnown | lies
    · exact known isKnown
    by_cases held : ptr ∈ session.live.map Prod.fst
    · exact known (Or.inr (Or.inl held))
    obtain ⟨row, sound, holds⟩ := inv
    rw [perform] at performed
    cases freed : free session.heap ptr with
    | error fault =>
      rw [freed] at performed
      cases performed
    | ok heap =>
      rw [freed, ok_bind, release_eq_self held] at performed
      rw [← Except.ok.inj performed]
      exact ⟨row, free_inside sound (lies row sound.tiled) freed, holds⟩

/-- `realloc` of live memory keeps the contents, as many as both have, or returns null. -/
theorem realloc_keeps_contents
    (run : Steps (Guarded (HeapStep arena) (SparesHeaders arena)) (Session.start mem) actions final)
    (live : (p, old) ∈ final.live) (asked : 0 < n) :
    ∃ heap q next, realloc arena final.heap p n = .ok (heap, q) ∧
      perform arena final (.realloc p n) = .ok next ∧ next.heap = heap ∧
      SoundSession arena next ∧
      (q ≠ 0 → (∀ i < min old n, heap.mem (q + i) = final.heap.mem (p + i)) ∧
        (q, n) ∈ next.live ∧ n ≤ next.capacity q) ∧
      (q = 0 → heap = final.heap ∧ next.live = final.live) := by
  have inv : SessionInv arena final :=
    run.invariant (SessionInv arena) (fun _ _ _ inv step => inv.step step.1 step.2)
      (SessionInv.start arena mem)
  obtain ⟨next, performed, inv', -⟩ :=
    @perform_realloc _ _ _ n inv (Or.inr (mem_map_of_mem live))
  have soundNext := inv'.soundSession
  obtain ⟨row, sound, holds⟩ := inv
  obtain ⟨payload, handed, isEntry⟩ := mem_map.mp (holds.mem_iff.mp live)
  obtain ⟨rfl, rfl⟩ := Prod.mk.inj isEntry
  rcases realloc_spec sound handed n with ⟨-, refused⟩ | ⟨nothing, -⟩ |
    ⟨heap, row', new, granted, rfl, changed⟩
  · have isNext := performed
    simp only [perform, refused, ok_bind] at isNext
    rw [if_pos ⟨trivial, asked.ne'⟩] at isNext
    obtain rfl := Except.ok.inj isNext
    exact ⟨_, _, _, refused, performed, rfl, soundNext, fun notNull => absurd rfl notNull,
      fun _ => ⟨rfl, rfl⟩⟩
  · omega
  · obtain ⟨rest, -, after⟩ := changed.handed
    have notNull : new.ptr ≠ 0 :=
      ptr_ne_zero (after.mem_iff.mpr (mem_append_left _ mem_cons_self))
    have isNext := performed
    simp only [perform, granted, ok_bind] at isNext
    rw [if_neg (fun failed => notNull failed.1), Session.take, if_neg notNull] at isNext
    obtain rfl := Except.ok.inj isNext
    refine ⟨_, _, _, granted, performed, rfl, soundNext, fun _ => ⟨?_, mem_cons_self, ?_⟩,
      fun isNull => absurd isNull notNull⟩
    · intro i within
      exact realloc_keeps sound handed asked.ne' granted notNull within
    · exact soundNext.large (new.ptr, new.requested) mem_cons_self

/-- A block that has to move takes the byte stored in it along. -/
theorem realloc_keeps_contents_moved :
    ∃ final, Steps (Guarded (HeapStep exampleArena) (SparesHeaders exampleArena))
        (Session.start fun _ => 0)
        [.malloc 3, .malloc 8, .malloc 8, .store 4116 2 90, .free 4180, .free 4180] final ∧
      ∃ heap q, realloc exampleArena final.heap 4116 100 = .ok (heap, q) ∧ q ≠ 4116 ∧ q ≠ 0 ∧
        heap.mem (q + 2) = 90 := by
  have facts : (performAll exampleArena (Session.start fun _ => 0)
      [.malloc 3, .malloc 8, .malloc 8, .store 4116 2 90, .free 4180, .free 4180]).map
        (fun final => (decide ((4116, 3) ∈ final.live), final.heap.mem 4118,
          (realloc exampleArena final.heap 4116 100).toOption.map Prod.snd)) =
      some (true, 90, some 4216) := by
    decide +kernel
  obtain ⟨final, done, found⟩ := Option.map_eq_some_iff.mp facts
  simp only [Prod.mk.injEq, decide_eq_true_eq] at found
  obtain ⟨isLive, isByte, moved⟩ := found
  have run : Steps (Guarded (HeapStep exampleArena) (SparesHeaders exampleArena)) _ _ final :=
    (performAll_steps done).mono fun _ _ _ step => ⟨.ofKnown step.1, step.2⟩
  obtain ⟨heap, q, next, returned, -, -, -, kept, -⟩ :=
    realloc_keeps_contents (n := 100) run isLive (by decide)
  rw [returned] at moved
  obtain rfl : q = 4216 := Option.some.inj moved
  exact ⟨final, run, heap, 4216, returned, by decide, by decide,
    ((kept (by decide)).1 2 (by decide)).trans isByte⟩

end M4KK1.Libc
