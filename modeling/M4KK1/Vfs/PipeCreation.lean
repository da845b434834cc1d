import Mathlib.Algebra.Ring.Nat
import M4KK1.Vfs.Pipes

/-!
# Making a pipe

`mkrn_vfs_pipe` asks `vfs_alloc_fd` twice before it marks either descriptor.
-/

namespace M4KK1.Vfs

open Lib Function

/-- A descriptor that a pipe may take. -/
def FreeFd (s : FdState) (slot : Fin maxFds) : Prop :=
  3 ≤ slot.val ∧ (s.fdTable slot).inUse = false

/-- Two descriptors that were free stand for the ends of one pipe that was free. -/
structure PipeMade (s s' : FdState) (rfd wfd : Fin maxFds) : Prop where
  distinct : rfd ≠ wfd
  readFree : FreeFd s rfd
  writeFree : FreeFd s wfd
  pipe : ∃ p : Fin maxPipes, (s.pipes p).inUse = false ∧ (s'.fdTable rfd).offset = p.val ∧
    (s'.fdTable wfd).offset = p.val
  others : ∀ other, other ≠ rfd → other ≠ wfd → s'.fdTable other = s.fdTable other

/-- Neither a descriptor nor a pipe in use has changed. -/
structure PipeRefused (s s' : FdState) : Prop where
  table : s'.fdTable = s.fdTable
  pipes : ∀ p, (s.pipes p).inUse = true → s'.pipes p = s.pipes p

/-- `mkrn_vfs_pipe` makes a pipe, or refuses to and leaves everything in use alone. -/
structure PipeSound (s : FdState) : Prop where
  made : ∀ {s' rfd wfd}, vfsPipe s = (s', some (rfd, wfd)) → PipeMade s s' rfd wfd
  refused : ∀ {s'}, vfsPipe s = (s', none) → PipeRefused s s'

theorem FdState.cursor_lt (s : FdState) (step : Nat) : (s.fdSearchStart + step) % maxFds < maxFds :=
  Nat.mod_lt _ (by decide)

/-- The descriptor the search looks at in its step `step`. -/
def searched (s : FdState) (step : Nat) : Fin maxFds :=
  ⟨(s.fdSearchStart + step) % maxFds, s.cursor_lt step⟩

section Search

variable {s : FdState}

theorem scanFds_first (s : FdState) (steps : Nat) : ∀ n,
    (∃ k < steps, scanFds s 3 n steps = some (searched s (n + k)) ∧ FreeFd s (searched s (n + k)) ∧
      ∀ earlier < k, ¬ FreeFd s (searched s (n + earlier))) ∨
    (scanFds s 3 n steps = none ∧ ∀ k < steps, ¬ FreeFd s (searched s (n + k))) := by
  induction steps with
  | zero =>
    intro n
    exact .inr ⟨rfl, fun k below => absurd below (Nat.not_lt_zero k)⟩
  | succ steps ih =>
    intro n
    by_cases free : FreeFd s (searched s n)
    · have stops : ¬ ((searched s n).val < 3 ∨ (s.fdTable (searched s n)).inUse = true) := by
        obtain ⟨above, unused⟩ := free
        simp [unused, above]
      refine .inl ⟨0, Nat.succ_pos _, ?_, free,
        fun earlier below => absurd below (Nat.not_lt_zero _)⟩
      exact if_neg stops
    · have goesOn : (searched s n).val < 3 ∨ (s.fdTable (searched s n)).inUse = true := by
        by_contra stops
        simp only [not_or, Nat.not_lt, Bool.not_eq_true] at stops
        exact free stops
      have next : scanFds s 3 n (steps + 1) = scanFds s 3 (n + 1) steps := if_pos goesOn
      have shift : ∀ k, n + 1 + k = n + (k + 1) := fun k => by omega
      rw [next]
      obtain ⟨k, below, found, isFree, first⟩ | ⟨nothing, none⟩ := ih (n + 1)
      · refine .inl ⟨k + 1, by omega, shift k ▸ found, shift k ▸ isFree, ?_⟩
        intro earlier below
        cases earlier with
        | zero => exact free
        | succ earlier => exact shift earlier ▸ first earlier (by omega)
      · refine .inr ⟨nothing, ?_⟩
        intro k below
        cases k with
        | zero => exact free
        | succ k => exact shift k ▸ none k (by omega)

theorem searched_surjective (s : FdState) (slot : Fin maxFds) :
    ∃ k < maxFds, searched s k = slot := by
  have below : slot.val < 1024 := slot.isLt
  refine ⟨(slot.val + (1024 - s.fdSearchStart % 1024)) % 1024, Nat.mod_lt _ (by decide), ?_⟩
  apply Fin.ext
  show (s.fdSearchStart + (slot.val + (1024 - s.fdSearchStart % 1024)) % 1024) % 1024 = slot.val
  omega

theorem searched_behind {slot : Fin maxFds} (cursor : s.fdSearchStart = (slot.val + 1) % maxFds)
    {k : Nat} (below : k < maxFds) : searched s k = slot ↔ k = maxFds - 1 := by
  have inside : slot.val < 1024 := slot.isLt
  rw [Fin.ext_iff]
  show (s.fdSearchStart + k) % 1024 = slot.val ↔ k = 1024 - 1
  rw [cursor]
  simp only [maxFds] at below ⊢
  omega

theorem scanFds_eq_none : scanFds s 3 0 maxFds = none ↔ ∀ slot, ¬ FreeFd s slot := by
  constructor
  · intro nothing slot
    obtain ⟨k, below, rfl⟩ := searched_surjective s slot
    obtain ⟨_, _, found, _⟩ | ⟨_, none⟩ := scanFds_first s maxFds 0
    · rw [nothing] at found
      cases found
    · simpa using none k below
  · intro none
    obtain ⟨k, _, _, free, _⟩ | ⟨nothing, _⟩ := scanFds_first s maxFds 0
    · exact absurd free (none _)
    · exact nothing

theorem scanFds_behind {slot : Fin maxFds} (cursor : s.fdSearchStart = (slot.val + 1) % maxFds)
    (found : scanFds s 3 0 maxFds = some slot) {other : Fin maxFds} (free : FreeFd s other) :
    other = slot := by
  obtain ⟨last, below, isLast, _, first⟩ | ⟨nothing, _⟩ := scanFds_first s maxFds 0
  · simp only [Nat.zero_add] at isLast first
    have behind : searched s last = slot := Option.some.inj (isLast.symm.trans found)
    obtain rfl := (searched_behind cursor below).mp behind
    obtain ⟨k, inside, rfl⟩ := searched_surjective s other
    by_cases isEnd : k = maxFds - 1
    · exact (searched_behind cursor inside).mpr isEnd
    · exact absurd free (first k (by omega))
  · rw [nothing] at found
    cases found

end Search

section Call

variable {s : FdState}

variable {slot : Fin maxFds} {p : Fin maxPipes}

theorem scanFds_found (free : FreeFd s slot) :
    ∃ found, scanFds s 3 0 maxFds = some found ∧ FreeFd s found := by
  cases scanned : scanFds s 3 0 maxFds with
  | none => exact absurd free (scanFds_eq_none.mp scanned slot)
  | some found => exact ⟨found, rfl, scanFds_free _ _ scanned⟩

theorem vfsPipe_searches (noPipe : (s.pipes p).inUse = false)
    {rfd wfd : Fin maxFds} (first : scanFds s 3 0 maxFds = some rfd)
    (second : scanFds { s with fdSearchStart := (rfd.val + 1) % maxFds } 3 0 maxFds = some wfd) :
    ∃ s', vfsPipe s = (s', some (rfd, wfd)) := by
  obtain ⟨slot, found⟩ : ∃ slot, firstSlot s.pipes (fun pipe : PipeBuffer => pipe.inUse = false) =
      some slot :=
    firstSlot_of_wanted noPipe
  let claimed := s.setPipe slot { PipeBuffer.zero with inUse := true }
  have firstAlloc : vfsAllocFd claimed 3 =
      ({ claimed with fdSearchStart := (rfd.val + 1) % maxFds }, some rfd) := by
    have scanned : scanFds claimed 3 0 maxFds = some rfd := by
      rw [← first]
      apply scanFds_congr
      · rfl
      · rfl
    unfold vfsAllocFd
    rw [scanned]
  have secondAlloc : vfsAllocFd { claimed with fdSearchStart := (rfd.val + 1) % maxFds } 3 =
      ({ claimed with fdSearchStart := (wfd.val + 1) % maxFds }, some wfd) := by
    have scanned : scanFds { claimed with fdSearchStart := (rfd.val + 1) % maxFds } 3 0 maxFds =
        some wfd := by
      rw [← second]
      apply scanFds_congr
      · rfl
      · rfl
    unfold vfsAllocFd
    rw [scanned]
  unfold vfsPipe
  rw [found]
  dsimp only
  rw [firstAlloc]
  dsimp only
  rw [secondAlloc]
  exact ⟨_, rfl⟩

theorem vfsPipe_oneLeft (noPipe : (s.pipes p).inUse = false)
    (free : FreeFd s slot) (only : ∀ other, FreeFd s other → other = slot) :
    ∃ s', vfsPipe s = (s', some (slot, slot)) := by
  obtain ⟨rfd, first, rfdFree⟩ := scanFds_found free
  obtain rfl := only rfd rfdFree
  let moved : FdState := { s with fdSearchStart := (rfd.val + 1) % maxFds }
  have movedFree : FreeFd moved rfd := free
  obtain ⟨wfd, second, wfdFree⟩ := scanFds_found movedFree
  obtain rfl := only wfd wfdFree
  exact vfsPipe_searches noPipe first second

theorem not_pipeSound (noPipe : (s.pipes p).inUse = false)
    (free : FreeFd s slot) (only : ∀ other, FreeFd s other → other = slot) :
    ¬ PipeSound s := by
  obtain ⟨s', ran⟩ := vfsPipe_oneLeft noPipe free only
  intro sound
  exact (sound.made ran).distinct rfl

theorem vfsPipe_made {s' : FdState} {rfd wfd : Fin maxFds}
    (ran : vfsPipe s = (s', some (rfd, wfd))) :
    FreeFd s rfd ∧ FreeFd s wfd ∧ (wfd = rfd → ∀ other, FreeFd s other → other = rfd) ∧
      ∃ p, (s.pipes p).inUse = false ∧
        s'.fdTable = update (update s.fdTable rfd ⟨some 0, p, oRdonly, true, 0⟩) wfd
          ⟨some 0, p, oWronly, true, 0⟩ := by
  obtain ⟨impossible, -⟩ | ⟨impossible, -⟩ | ⟨p, r, w, results, noPipe, first, second, rfl⟩ :=
    vfsPipe_cases ran
  · cases impossible
  · cases impossible
  cases results
  have wfdFree : FreeFd { s with fdSearchStart := (rfd.val + 1) % maxFds } wfd :=
    scanFds_free _ _ second
  refine ⟨scanFds_free _ _ first, wfdFree, ?_, p, noPipe, rfl⟩
  rintro rfl other free
  have movedFree : FreeFd { s with fdSearchStart := (wfd.val + 1) % maxFds } other := free
  exact scanFds_behind rfl second movedFree

theorem vfsPipe_refused {s' : FdState} (ran : vfsPipe s = (s', none)) : PipeRefused s s' := by
  obtain ⟨-, rfl⟩ | ⟨-, p, cursor, noPipe, rfl⟩ | ⟨_, _, _, impossible, -⟩ := vfsPipe_cases ran
  · exact ⟨rfl, fun _ _ => rfl⟩
  · refine ⟨rfl, fun other used => ?_⟩
    have elsewhere : other ≠ p := by
      rintro rfl
      rw [noPipe] at used
      cases used
    exact update_of_ne elsewhere ..
  · cases impossible

/-- `mkrn_vfs_pipe` is right unless a pipe is free and exactly one descriptor is. -/
theorem pipe_creation_iff (s : FdState) :
    PipeSound s ↔ ¬ ((∃ p, (s.pipes p).inUse = false) ∧ ∃! slot, FreeFd s slot) := by
  constructor
  · rintro sound ⟨⟨p, noPipe⟩, slot, free, only⟩
    exact not_pipeSound noPipe free only sound
  · intro notOne
    refine ⟨?_, vfsPipe_refused⟩
    intro s' rfd wfd ran
    obtain ⟨readFree, writeFree, alone, p, noPipe, table⟩ := vfsPipe_made ran
    have distinct : rfd ≠ wfd := by
      rintro rfl
      exact notOne ⟨⟨p, noPipe⟩, rfd, readFree, alone rfl⟩
    refine ⟨distinct, readFree, writeFree, ⟨p, noPipe, ?_, ?_⟩, ?_⟩
    · rw [table, update_of_ne distinct, update_self]
    · rw [table, update_self]
    · intro other notRead notWrite
      rw [table, update_of_ne notWrite, update_of_ne notRead]

/-- A table in use up to its last descriptor, and no pipe. -/
def crowdedFds : FdState :=
  { initialFds ⟨⟨⟨fun _ => .zero, 0, 0⟩, 0⟩, 0, true⟩ with
    fdTable :=
      fun slot => if slot.val = 1023 then FileDesc.zero else ⟨some 0, 0, oRdonly, true, 1⟩ }

/-- The pipe gets the last descriptor twice. -/
theorem not_pipe_creation : ¬ ∀ s : FdState, PipeSound s := by
  intro sound
  have free : FreeFd crowdedFds ⟨1023, by decide⟩ := ⟨by decide, rfl⟩
  have only : ∀ other, FreeFd crowdedFds other → other = ⟨1023, by decide⟩ := by
    rintro other ⟨-, unused⟩
    by_contra elsewhere
    have notLast : other.val ≠ 1023 := fun last => elsewhere (Fin.ext last)
    simp [crowdedFds, notLast] at unused
  have noPipe : (crowdedFds.pipes 0).inUse = false := rfl
  exact not_pipeSound noPipe free only (sound _)

end Call

end M4KK1.Vfs
