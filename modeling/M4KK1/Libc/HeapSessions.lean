import M4KK1.Lib.Run
import M4KK1.Libc.Realloc

/-!
# Programs that use the userland heap

Pointers may be freed again, and memory that is held is written (`FreesKnownBlock`).
-/

namespace M4KK1.Libc

open M4KK1.Lib List

/-- The heap, the pointers that the program holds, and every pointer it was ever given. -/
structure Session where
  heap : Heap
  live : List (Nat × Nat)
  issued : List Nat

/-- What a program does: the four calls, and a store of a byte into memory it holds. -/
inductive Action where
  | malloc (size : Nat)
  | calloc (nmemb size : Nat)
  | realloc (ptr size : Nat)
  | free (ptr : Nat)
  | store (ptr offset value : Nat)
deriving DecidableEq

/-- The pointer passed, null when there is none. -/
def Action.passed : Action → Nat
  | .malloc _ => 0
  | .calloc _ _ => 0
  | .realloc ptr _ => ptr
  | .free ptr => ptr
  | .store ptr _ _ => ptr

/-- The pointers held, without one. -/
def release (ptr : Nat) (live : List (Nat × Nat)) : List (Nat × Nat) :=
  live.filter fun entry => entry.1 ≠ ptr

/-- The program takes the pointer that an allocation for `size` bytes returned. -/
def Session.take (session : Session) (heap : Heap) (ptr size : Nat) : Session :=
  if ptr = 0 then { session with heap := heap }
  else ⟨heap, (ptr, size) :: session.live, ptr :: session.issued⟩

def perform (arena : Arena) (session : Session) : Action → Except Fault Session
  | .malloc size => do
    let (heap, ptr) ← malloc arena session.heap size
    .ok (session.take heap ptr size)
  | .calloc nmemb size => do
    let (heap, ptr) ← calloc arena session.heap nmemb size
    .ok (session.take heap ptr (nmemb * size))
  | .realloc ptr size => do
    let (heap, new) ← realloc arena session.heap ptr size
    -- A call that fails leaves the old memory to the program.
    if new = 0 ∧ size ≠ 0 then .ok { session with heap := heap }
    else .ok (Session.take { session with live := release ptr session.live } heap new size)
  | .free ptr => do
    let heap ← free session.heap ptr
    .ok { session with heap := heap, live := release ptr session.live }
  | .store ptr offset value =>
    .ok { session with
      heap := { session.heap with mem := write8 session.heap.mem (ptr + offset) value } }

/-- A program passes pointers it was given, and writes to the bytes it asked for. -/
def Permitted (session : Session) : Action → Prop
  | .malloc _ => True
  | .calloc _ _ => True
  | .realloc ptr _ => ptr = 0 ∨ ptr ∈ session.live.map Prod.fst
  | .free ptr => ptr = 0 ∨ ptr ∈ session.issued
  | .store ptr offset _ => ∃ entry ∈ session.live, entry.1 = ptr ∧ offset < entry.2

instance : (session : Session) → (action : Action) → Decidable (Permitted session action)
  | _, .malloc _ => .isTrue trivial
  | _, .calloc _ _ => .isTrue trivial
  | session, .realloc ptr _ =>
    inferInstanceAs (Decidable (ptr = 0 ∨ ptr ∈ session.live.map Prod.fst))
  | session, .free ptr => inferInstanceAs (Decidable (ptr = 0 ∨ ptr ∈ session.issued))
  | session, .store ptr offset _ =>
    inferInstanceAs (Decidable (∃ entry ∈ session.live, entry.1 = ptr ∧ offset < entry.2))

/-- The program does what it may, and the heap follows. -/
def HeapStep (arena : Arena) (session : Session) (action : Action) (next : Session) : Prop :=
  Permitted session action ∧ perform arena session action = .ok next

/-- Before the first call, `heap_ptr` and `heap_start` are zero. -/
def Session.start (mem : ByteMemory) : Session := ⟨⟨mem, 0, 0, 0, 0, 0⟩, [], []⟩

/-- A pointer that is freed once more does not find the mark of a block in use. -/
def FreesKnownBlock (session : Session) : Action → Prop
  | .free ptr => ptr = 0 ∨ ptr ∈ session.live.map Prod.fst ∨
    getField session.heap.mem (ptr - headerSize) .magic ≠ heapMagicUsed
  | _ => True

instance : (session : Session) → (action : Action) → Decidable (FreesKnownBlock session action)
  | session, .free ptr =>
    inferInstanceAs (Decidable (ptr = 0 ∨ ptr ∈ session.live.map Prod.fst ∨
      getField session.heap.mem (ptr - headerSize) .magic ≠ heapMagicUsed))
  | _, .malloc _ => .isTrue trivial
  | _, .calloc _ _ => .isTrue trivial
  | _, .realloc _ _ => .isTrue trivial
  | _, .store _ _ _ => .isTrue trivial

/-- `size` in the header in front of a pointer. -/
def Session.capacity (session : Session) (ptr : Nat) : Nat :=
  getField session.heap.mem (ptr - headerSize) .size

/-- A piece of memory as the program knows it. -/
def entryOf (payload : Payload) : Nat × Nat := (payload.ptr, payload.requested)

/-- The headers tile the arena, and the used blocks are those the program holds. -/
structure SoundSession (arena : Arena) (session : Session) : Prop where
  blocks : ∃ row, Tiled arena session.heap row ∧ Settled row ∧
    session.live.Perm ((payloads 20 arena.base row).map entryOf)
  large : ∀ entry ∈ session.live, entry.2 ≤ session.capacity entry.1
  apart : session.live.Pairwise fun left right =>
    left.1 + session.capacity left.1 ≤ right.1 ∨ right.1 + session.capacity right.1 ≤ left.1

/-- No byte of memory that a pointer other than the one passed holds has changed. -/
def KeepsOthers (before : Session) (action : Action) (after : Session) : Prop :=
  ∀ entry ∈ before.live, entry.1 ≠ action.passed →
    ∀ i, entry.1 ≤ i → i < entry.1 + before.capacity entry.1 →
      after.heap.mem i = before.heap.mem i

/-- The session's memory is sound and its pointers are what the blocks hand out. -/
def SessionInv (arena : Arena) (session : Session) : Prop :=
  ∃ row, Sound arena session.heap row ∧
    session.live.Perm ((payloads 20 arena.base row).map entryOf)

variable {arena : Arena} {mem : ByteMemory} {h h' : Heap} {session next : Session}
  {row row' : List RowBlock} {live : List (Nat × Nat)} {added rest : List Payload}
  {payload : Payload} {ptr size passed : Nat}

theorem Tiled.capacity_eq (tiled : Tiled arena h row)
    (handed : payload ∈ payloads 20 arena.base row) :
    getField h.mem (payload.ptr - headerSize) .size = payload.capacity := by
  obtain ⟨front, back, rfl, isPtr⟩ := exists_block handed
  obtain ⟨-, header, -⟩ := chained_append.mp tiled.chained
  rw [isPtr, headerSize, Nat.add_sub_cancel, header.size]

theorem release_eq_self (unheld : ptr ∉ live.map Prod.fst) : release ptr live = live := by
  apply filter_eq_self.mpr
  intro entry member
  simp only [decide_eq_true_eq]
  intro same
  exact unheld (same ▸ mem_map_of_mem member)

theorem entryOf_fst : (List.map entryOf rest).map Prod.fst = rest.map Payload.ptr := by
  rw [map_map]
  rfl

theorem Changed.live_added (changed : Changed arena passed h row h' row' [] added)
    (holds : live.Perm ((payloads 20 arena.base row).map entryOf)) :
    (added.map entryOf ++ live).Perm ((payloads 20 arena.base row').map entryOf) := by
  obtain ⟨rest, before, after⟩ := changed.handed
  have kept : live.Perm (rest.map entryOf) := holds.trans (before.map entryOf)
  have handed := after.map entryOf
  rw [map_append] at handed
  exact (kept.append_left _).trans handed.symm

theorem Changed.live_released (changed : Changed arena passed h row h' row' [payload] added)
    (holds : live.Perm ((payloads 20 arena.base row).map entryOf)) :
    (added.map entryOf ++ release payload.ptr live).Perm
    ((payloads 20 arena.base row').map entryOf) := by
  obtain ⟨rest, before, after⟩ := changed.handed
  have distinct := (before.map Payload.ptr).nodup_iff.mp (ptr_nodup row arena.base)
  rw [singleton_append, map_cons, nodup_cons] at distinct
  have unheld : release payload.ptr (rest.map entryOf) = rest.map entryOf :=
    release_eq_self (by rw [entryOf_fst]; exact distinct.1)
  have kept : (release payload.ptr live).Perm (rest.map entryOf) := by
    have filtered := (holds.trans (before.map entryOf)).filter fun entry => entry.1 ≠ payload.ptr
    rw [singleton_append, map_cons, filter_cons_of_neg (by simp [entryOf])] at filtered
    exact unheld ▸ filtered
  have handed := after.map entryOf
  rw [map_append] at handed
  exact (kept.append_left _).trans handed.symm

namespace SessionInv

theorem exists_payload (holds : live.Perm ((payloads 20 arena.base row).map entryOf))
    (held : ptr ∈ live.map Prod.fst) : ∃ payload ∈ payloads 20 arena.base row,
      payload.ptr = ptr := by
  obtain ⟨entry, member, rfl⟩ := mem_map.mp held
  obtain ⟨payload, handed, rfl⟩ := mem_map.mp (holds.mem_iff.mp member)
  exact ⟨payload, handed, rfl⟩

theorem zero_unheld (holds : live.Perm ((payloads 20 arena.base row).map entryOf)) :
    0 ∉ live.map Prod.fst := by
  intro held
  obtain ⟨payload, handed, isZero⟩ := exists_payload holds held
  exact ptr_ne_zero handed isZero

theorem keepsOthers {action : Action} (sound : Sound arena session.heap row)
    (holds : session.live.Perm ((payloads 20 arena.base row).map entryOf))
    (spares : Spares action.passed session.heap.mem next.heap.mem (payloads 20 arena.base row)) :
    KeepsOthers session action next := by
  intro entry member notPassed i low high
  obtain ⟨payload, handed, rfl⟩ := mem_map.mp (holds.mem_iff.mp member)
  rw [Session.capacity, entryOf, sound.tiled.capacity_eq handed] at high
  exact spares payload handed notPassed i low high

theorem soundSession (inv : SessionInv arena session) : SoundSession arena session := by
  obtain ⟨row, sound, holds⟩ := inv
  have isCapacity : ∀ payload ∈ payloads 20 arena.base row,
      session.capacity payload.ptr = payload.capacity :=
    fun payload handed => sound.tiled.capacity_eq handed
  refine ⟨⟨row, sound.tiled, sound.settled, holds⟩, ?_, ?_⟩
  · intro entry member
    obtain ⟨payload, handed, rfl⟩ := mem_map.mp (holds.mem_iff.mp member)
    rw [entryOf, isCapacity payload handed]
    exact (sound.roomy payload handed).le
  · have ordered : ((payloads 20 arena.base row).map entryOf).Pairwise fun left right =>
        left.1 + session.capacity left.1 ≤ right.1 ∨
        right.1 + session.capacity right.1 ≤ left.1 := by
      rw [pairwise_map]
      refine payloads_pairwise.imp_of_mem ?_
      intro left right leftIn _ before
      rw [entryOf, entryOf, isCapacity left leftIn]
      exact Or.inl (by omega)
    exact (holds.pairwise_iff fun separate => separate.symm).mpr ordered

theorem take {result : Except Fault (Heap × Nat)} (sound : Sound arena session.heap row)
    (holds : session.live.Perm ((payloads 20 arena.base row).map entryOf))
    (served : Serves arena session.heap row size result) :
    ∃ heap ptr, result = .ok (heap, ptr) ∧ SessionInv arena (session.take heap ptr size) ∧
      Spares 0 session.heap.mem heap.mem (payloads 20 arena.base row) := by
  rcases served with refused | ⟨h', row', payload, granted, rfl, changed⟩
  · exact ⟨_, _, refused, ⟨row, sound, holds⟩, fun _ _ _ _ _ _ => rfl⟩
  · refine ⟨h', payload.ptr, granted, ?_, changed.spares⟩
    rw [Session.take, if_neg (ptr_ne_zero changed.fresh.1)]
    exact ⟨row', changed.sound, changed.live_added holds⟩

end SessionInv

theorem Session.take_heap (session : Session) (heap : Heap) (ptr size : Nat) :
    (session.take heap ptr size).heap = heap := by
  rw [Session.take]
  split <;> rfl

theorem free_ignored
    (unmarked : ptr = 0 ∨ getField h.mem (ptr - headerSize) .magic ≠ heapMagicUsed) :
    ∃ badFree doubleFree,
      free h ptr = .ok { h with badFree := badFree, doubleFree := doubleFree } := by
  rw [free]
  by_cases isNull : ptr = 0
  · exact ⟨h.badFree, h.doubleFree, if_pos isNull⟩
  have notUsed := unmarked.resolve_left isNull
  rw [if_neg isNull]
  by_cases isFree : getField h.mem (ptr - headerSize) .magic = heapMagicFree
  · refine ⟨h.badFree, add32 h.doubleFree 1, ?_⟩
    exact (if_neg fun wild => wild.2 isFree).trans (if_pos isFree)
  · exact ⟨add32 h.badFree 1, h.doubleFree, if_pos ⟨notUsed, isFree⟩⟩

theorem perform_realloc (inv : SessionInv arena session)
    (permitted : Permitted session (.realloc ptr size)) :
    ∃ next, perform arena session (.realloc ptr size) = .ok next ∧ SessionInv arena next ∧
      KeepsOthers session (.realloc ptr size) next := by
  obtain ⟨row, sound, holds⟩ := inv
  rcases permitted with rfl | held
  · -- The call is an allocation, and nothing is held at the null pointer.
    obtain ⟨heap, new, returned, inv', spares⟩ :=
      SessionInv.take sound holds (malloc_spec sound size)
    have allocates : realloc arena session.heap 0 size = .ok (heap, new) := by
      rw [realloc, if_pos rfl, returned]
    have unheld := release_eq_self (SessionInv.zero_unheld holds)
    refine ⟨session.take heap new size, ?_, inv', SessionInv.keepsOthers sound holds ?_⟩
    · simp only [perform, allocates, ok_bind, unheld]
      split
      · rename_i failed
        rw [Session.take, if_pos failed.1]
      · rfl
    · rw [Session.take_heap]
      exact spares
  · obtain ⟨payload, handed, rfl⟩ := SessionInv.exists_payload holds held
    rcases realloc_spec sound handed size with ⟨asked, refused⟩ |
      ⟨rfl, heap, row', freed, changed⟩ | ⟨heap, row', new, granted, rfl, changed⟩
    · refine ⟨session, ?_, ⟨row, sound, holds⟩, fun _ _ _ _ _ _ => rfl⟩
      simp only [perform, refused, ok_bind]
      rw [if_pos ⟨trivial, asked⟩]
    · refine ⟨{ session with heap := heap, live := release payload.ptr session.live }, ?_,
        ⟨row', changed.sound, changed.live_released holds⟩,
        SessionInv.keepsOthers sound holds changed.spares⟩
      simp only [perform, freed, ok_bind]
      rw [if_neg (fun failed => failed.2 rfl), Session.take, if_pos rfl]
    · obtain ⟨rest, -, after⟩ := changed.handed
      have isNew : new ∈ payloads 20 arena.base row' :=
        after.mem_iff.mpr (mem_append_left _ mem_cons_self)
      have notNull : new.ptr ≠ 0 := ptr_ne_zero isNew
      refine ⟨⟨heap, entryOf new :: release payload.ptr session.live, new.ptr :: session.issued⟩,
        ?_,
        ⟨row', changed.sound, changed.live_released holds⟩,
        SessionInv.keepsOthers sound holds changed.spares⟩
      simp only [perform, granted, ok_bind]
      rw [if_neg (fun failed => notNull failed.1), Session.take, if_neg notNull]
      rfl

theorem perform_spec {action : Action} (inv : SessionInv arena session)
    (permitted : Permitted session action) (known : FreesKnownBlock session action) :
    ∃ next, perform arena session action = .ok next ∧ SessionInv arena next ∧
      KeepsOthers session action next := by
  obtain ⟨row, sound, holds⟩ := id inv
  cases action with
  | malloc size =>
    obtain ⟨heap, ptr, returned, inv', spares⟩ :=
      SessionInv.take sound holds (malloc_spec sound size)
    refine ⟨_, ?_, inv', SessionInv.keepsOthers sound holds ?_⟩
    · simp only [perform, returned, ok_bind]
    · rw [Session.take_heap]
      exact spares
  | calloc nmemb size =>
    obtain ⟨heap, ptr, returned, inv', spares⟩ :=
      SessionInv.take sound holds (calloc_spec sound nmemb size)
    refine ⟨_, ?_, inv', SessionInv.keepsOthers sound holds ?_⟩
    · simp only [perform, returned, ok_bind]
    · rw [Session.take_heap]
      exact spares
  | realloc ptr size => exact perform_realloc inv permitted
  | free ptr =>
    by_cases held : ptr ∈ session.live.map Prod.fst
    · obtain ⟨payload, handed, rfl⟩ := SessionInv.exists_payload holds held
      obtain ⟨heap, row', freed, changed⟩ := free_spec sound handed
      refine ⟨{ session with heap := heap, live := release payload.ptr session.live }, ?_, ?_, ?_⟩
      · simp only [perform, freed, ok_bind]
      · exact ⟨row', changed.sound, changed.live_released holds⟩
      · exact SessionInv.keepsOthers sound holds changed.spares
    · have unmarked : ptr = 0 ∨
          getField session.heap.mem (ptr - headerSize) .magic ≠ heapMagicUsed := by
        rcases known with isNull | isHeld | unmarked
        · exact Or.inl isNull
        · exact absurd isHeld held
        · exact Or.inr unmarked
      obtain ⟨badFree, doubleFree, ignored⟩ := free_ignored unmarked
      refine ⟨{ session with
        heap := { session.heap with badFree := badFree, doubleFree := doubleFree } }, ?_, ?_, ?_⟩
      · simp only [perform, ignored, ok_bind, release_eq_self held]
      · exact ⟨row, ⟨{ sound.tiled with }, sound.settled, sound.roomy⟩, holds⟩
      · exact fun _ _ _ _ _ _ => rfl
  | store ptr offset value =>
    obtain ⟨entry, member, rfl, within⟩ := permitted
    obtain ⟨payload, handed, rfl⟩ := mem_map.mp (holds.mem_iff.mp member)
    have roomy := sound.roomy payload handed
    have inside : offset < payload.requested := within
    have outside : ∀ i, i < payload.ptr ∨ payload.ptr + payload.capacity ≤ i →
        write8 session.heap.mem (payload.ptr + offset) value i = session.heap.mem i :=
      fun i away => write8_other (by omega)
    obtain ⟨sound', spares⟩ := sound.write handed outside
    exact ⟨_, rfl, ⟨row, sound', holds⟩, SessionInv.keepsOthers sound holds spares⟩

theorem SessionInv.start (arena : Arena) (mem : ByteMemory) :
    SessionInv arena (Session.start mem) :=
  ⟨[], ⟨⟨trivial, rfl, Nat.zero_le _, rfl⟩, .nil, fun _ member => absurd member not_mem_nil⟩,
    .refl _⟩

/-- The heap is sound in every run whose frees meet the condition, and what is held is left
alone. -/
theorem heap_sessions_sound {final : Session} {actions : List Action}
    (run : Steps (Guarded (HeapStep arena) FreesKnownBlock) (Session.start mem) actions final) :
    SoundSession arena final ∧
      ∀ action, Permitted final action → FreesKnownBlock final action →
        ∃ next, perform arena final action = .ok next ∧ KeepsOthers final action next := by
  have inv : SessionInv arena final := by
    refine run.invariant (SessionInv arena) ?_ (SessionInv.start arena mem)
    rintro session action next inv ⟨known, permitted, performed⟩
    obtain ⟨next', performed', inv', -⟩ := perform_spec inv permitted known
    obtain rfl := Except.ok.inj (performed'.symm.trans performed)
    exact inv'
  refine ⟨inv.soundSession, fun action permitted known => ?_⟩
  obtain ⟨next, performed, -, keeps⟩ := perform_spec inv permitted known
  exact ⟨next, performed, keeps⟩

/-- The session after a list of actions, if all of them are permitted, meet the condition and
return. -/
def performAll (arena : Arena) : Session → List Action → Option Session
  | session, [] => some session
  | session, action :: rest =>
    if Permitted session action ∧ FreesKnownBlock session action then
      match perform arena session action with
      | .ok next => performAll arena next rest
      | .error _ => none
    else none

theorem performAll_steps {actions : List Action} : ∀ {session final : Session},
    performAll arena session actions = some final →
    Steps (Guarded (HeapStep arena) FreesKnownBlock) session actions final := by
  induction actions with
  | nil =>
    rintro session final done
    obtain rfl := Option.some.inj done
    exact .refl
  | cons action rest ih =>
    intro session final done
    rw [performAll] at done
    split at done
    · rename_i meets
      cases performed : perform arena session action with
      | error fault => simp [performed] at done
      | ok next =>
        simp only [performed] at done
        have first : Steps (Guarded (HeapStep arena) FreesKnownBlock) session [action] next :=
          Steps.refl.step ⟨meets.2, meets.1, performed⟩
        exact first.trans (ih done)
    · exact absurd done (by simp)

def exampleArena : Arena := ⟨4096, by decide, by decide⟩

/-- A block that is freed twice while its neighbour stays live. -/
theorem heap_sessions_sound_double_free :
    ∃ final, Steps (Guarded (HeapStep exampleArena) FreesKnownBlock) (Session.start fun _ => 0)
        [.malloc 8, .malloc 8, .free 4116, .free 4116] final ∧
      final.live = [(4152, 8)] ∧ SoundSession exampleArena final := by
  have held : (performAll exampleArena (Session.start fun _ => 0)
      [.malloc 8, .malloc 8, .free 4116, .free 4116]).map (fun final => final.live) =
        some [(4152, 8)] := by
    decide +kernel
  obtain ⟨final, done, isLive⟩ := Option.map_eq_some_iff.mp held
  have run := performAll_steps done
  exact ⟨final, run, isLive, (heap_sessions_sound run).1⟩

/-- Leaves the mark of a block in use where a freed block had its header. -/
def staleMark : List Action :=
  [.malloc 1, .malloc 1, .malloc 100, .malloc 1, .malloc 16, .malloc 49, .free 4116, .free 4144,
    .free 4172, .free 4368, .realloc 4324 37, .realloc 4324 110]

/-- The third block is freed once more, and a byte of the block that now holds its memory
changes. -/
theorem stale_free_changes_block :
    ∃ before after, Steps (HeapStep exampleArena) (Session.start fun _ => 0) staleMark before ∧
      before.live = [(4116, 110), (4296, 1)] ∧ HeapStep exampleArena before (.free 4172) after ∧
      before.heap.mem 4152 = 0x31 ∧ after.heap.mem 4152 = 0x30 ∧
      ¬ KeepsOthers before (.free 4172) after := by
  have facts : (performAll exampleArena (Session.start fun _ => 0) staleMark).map (fun before =>
      (before.live, decide (4172 ∈ before.issued), before.capacity 4116, before.heap.mem 4152,
        (perform exampleArena before (.free 4172)).toOption.map fun after => after.heap.mem 4152)) =
      some ([(4116, 110), (4296, 1)], true, 112, 0x31, some 0x30) := by
    decide +kernel
  obtain ⟨before, done, found⟩ := Option.map_eq_some_iff.mp facts
  simp only [Prod.mk.injEq, decide_eq_true_eq] at found
  obtain ⟨isLive, issued, isCapacity, isUsed, freed⟩ := found
  obtain ⟨after, performed, isFree⟩ := Option.map_eq_some_iff.mp freed
  have performed' : perform exampleArena before (.free 4172) = .ok after := by
    cases result : perform exampleArena before (.free 4172) with
    | error fault => simp [result, Except.toOption] at performed
    | ok next => simpa [result, Except.toOption] using performed
  refine ⟨before, after, (performAll_steps done).mono fun _ _ _ step => step.2, isLive,
    ⟨Or.inr issued, performed'⟩, isUsed, isFree, ?_⟩
  intro keeps
  have same := keeps (4116, 110) (by rw [isLive]; exact mem_cons_self) (by decide) 4152
    (by decide) (by rw [isCapacity]; decide)
  rw [isUsed, isFree] at same
  exact absurd same (by decide)

end M4KK1.Libc
