import M4KK1.Devfs.Confinement

/-!
# Which opened nodes are confined

The partition must not start behind the drive's end, and no other record answer to the number.
-/

namespace M4KK1.Devfs

open Lib Yafs Function
open Vfs (skipSlashes devfsParsePath writingFlags startsWith)

/-- The states of the filesystem after `mkrn_devfs_init`. -/
inductive Reachable : State → Prop
  | init (drives : Nat → AtaDrive) (boot : Nat → Option ByteMemory) :
      Reachable (devfsInit drives boot)
  | opened {st : State} (euid : Nat) (path : CString) (flags : Nat) (before : Reachable st) :
      Reachable (devfsOpen st euid path flags).1
  | closed {st : State} (fd : Nat) (before : Reachable st) : Reachable (devfsClose st fd).1
  | called {σ : Type} {st : State} (ata : SectorDriver σ) (s : σ) (call : Call)
      (before : Reachable st) : Reachable (call.run ata st s).1

/-- The first sectors of records and table entries are 32-bit numbers. -/
structure State.Bounded (st : State) : Prop where
  files : ∀ k, (st.files k).startLba < 4294967296
  parts : ∀ drive part, (st.parts drive part).lbaStart < 4294967296

namespace State

variable {st st' : State} {isDir : Bool} {drive start size fd : Nat} {n : Node}

section

variable (bounded : st.Bounded)

include bounded

theorem Bounded.update {k : Fin 64} {f : DevfsFile} {nextFd : Nat}
    (fits : f.startLba < 4294967296) :
    { st with files := update st.files k f, nextFd := nextFd : State }.Bounded where
  files i := by
    by_cases same : i = k
    · subst same
      simpa using fits
    · simpa [same] using bounded.files i
  parts := bounded.parts

theorem Bounded.allocFile (fits : start < 4294967296) :
    (st.allocFile isDir drive start size).1.Bounded := by
  unfold State.allocFile
  split
  · exact bounded
  · exact bounded.update fits

theorem Bounded.devfsOpen (euid : Nat) (path : CString) (flags : Nat) :
    (devfsOpen st euid path flags).1.Bounded := by
  simp only [Devfs.devfsOpen]
  split
  · exact bounded.allocFile (by decide)
  · split
    · exact bounded
    · split
      · exact bounded
      · split
        · exact bounded
        · split
          · exact bounded.allocFile (by decide)
          · split
            · exact bounded
            · exact bounded.allocFile (bounded.parts _ _)

theorem Bounded.file {f : DevfsFile} (found : st.file fd = some f) : f.startLba < 4294967296 := by
  obtain ⟨k, -, rfl⟩ := Option.map_eq_some_iff.mp found
  exact bounded.files k

theorem Bounded.devfsClose (fd : Nat) : (devfsClose st fd).1.Bounded := by
  unfold Devfs.devfsClose
  split
  · exact bounded
  · next f found =>
    simp only [setFile]
    split
    · exact bounded
    · exact bounded.update (show f.startLba < 4294967296 from bounded.file found)

theorem Bounded.moved (moved : Moved st st') : st'.Bounded := by
  obtain ⟨offsets, rfl⟩ := moved
  exact ⟨bounded.files, bounded.parts⟩

end

end State

theorem Reachable.bounded {st : State} (reached : Reachable st) : st.Bounded := by
  induction reached with
  | init drives boot =>
    refine ⟨fun _ => Nat.zero_lt_succ _, fun drive part => ?_⟩
    simp only [devfsInit]
    split
    · exact Nat.zero_lt_succ _
    · exact readMbr_lbaStart_lt ..
  | opened euid path flags _ ih => exact ih.devfsOpen euid path flags
  | closed fd _ ih => exact ih.devfsClose fd
  | called ata s call _ ih => exact ih.moved (call.moved ata _ s)

section Open

variable {st st' : State} {isDir : Bool} {drive start size fd euid flags : Nat} {path : CString}
  {n : Node}

/-- The record that will answer to the number: the first that is free or has it already. -/
def State.answering (st : State) (fd : Nat) : Option (Fin 64) :=
  firstSlot st.files fun f => f.inUse = false ∨ f.fd = fd

theorem file_allocFile (opened : st.allocFile isDir drive start size = (st', some fd)) :
    fd = st.nextFd ∧ ∃ k, st.answering fd = some k ∧
      st'.file fd = some (if (st.files k).inUse = false then
        ⟨fd, drive, start, size, 0, isDir, true⟩ else st.files k) := by
  unfold State.allocFile at opened
  cases free : firstSlot st.files fun f => f.inUse = false with
  | none => simp [free] at opened
  | some slot =>
    rw [free] at opened
    simp only [Prod.mk.injEq, Option.some.injEq] at opened
    obtain ⟨rfl, rfl⟩ := opened
    obtain ⟨unused, before⟩ := firstSlot_eq_some_iff.mp free
    obtain ⟨k, first⟩ : ∃ k, st.answering st.nextFd = some k := firstSlot_of_wanted (.inl unused)
    obtain ⟨answers, earlier⟩ := firstSlot_eq_some_iff.mp first
    refine ⟨rfl, k, first, ?_⟩
    have le : k ≤ slot := by
      by_contra above
      exact earlier slot (by omega) (.inl unused)
    -- below the slot found nothing changed and nothing matches
    have found : State.findByFd { st with
        files := update st.files slot ⟨st.nextFd, drive, start, size, 0, isDir, true⟩
        nextFd := if st.nextFd + 1 ≥ 1024 then 1000 else st.nextFd + 1 } st.nextFd = some k := by
      refine firstSlot_eq_some_iff.mpr ⟨?_, fun other below => ?_⟩
      · by_cases same : k = slot
        · subst same
          simp
        · simp only [update_of_ne same]
          have used := before k (by omega)
          exact ⟨by simpa using used, answers.resolve_left used⟩
      · have apart : other ≠ slot := by omega
        simp only [update_of_ne apart]
        exact fun both => earlier other below (.inr both.2)
    rw [State.file, found, Option.map_some]
    by_cases same : k = slot
    · subst same
      simp [unused]
    · have used := before k (by omega)
      rw [if_neg used]
      exact congrArg some (update_of_ne same ..)

theorem devfsOpen_node (opened : devfsOpen st euid path flags = (st', some fd))
    (named : st.node path = some n) :
    st.allocFile false n.drive n.start (State.partSectors n.sectors n.start n.count) =
      (st', some fd) := by
  obtain ⟨⟨drive, part⟩, parsed, rfl⟩ := Option.map_eq_some_iff.mp named
  have notListing : ¬ (skipSlashes path = cstr "dev" ∨ skipSlashes path = cstr "dev/") := by
    intro listing
    have nothing : devfsParsePath path = none := by
      simp only [devfsParsePath]
      rcases listing with listing | listing
      · rw [listing]
        decide
      · rw [listing]
        decide
    rw [nothing] at parsed
    cases parsed
  simp only [devfsOpen, if_neg notListing, parsed] at opened
  split at opened
  · simp at opened
  · split at opened
    · simp at opened
    · cases part with
      | none => simpa [State.partSectors] using opened
      | some part =>
        dsimp only at opened
        split at opened
        · simp at opened
        · exact opened

theorem serves_new_iff (bounded : n.start < 4294967296) :
    DevfsFile.Serves ⟨fd, n.drive, n.start, State.partSectors n.sectors n.start n.count, 0, false,
      true⟩ n ↔ n.start ≤ n.sectors := by
  have drive := n.bounded
  have size : (DevfsFile.sizeBytes ⟨fd, n.drive, n.start,
      State.partSectors n.sectors n.start n.count, 0, false, true⟩ = n.size) ↔
      n.start ≤ n.sectors := by
    simp only [DevfsFile.sizeBytes, State.partSectors, Node.size, Node.extent, wrap64, sectorSize]
    split
    · omega
    · omega
  exact ⟨fun serves => size.mp serves.size, fun inside =>
    ⟨rfl, size.mpr inside, fun _ => ⟨rfl, rfl⟩⟩⟩

theorem sectors_allocFile (opened : st.allocFile isDir drive start size = (st', some fd)) :
    st'.sectors = st.sectors := by
  unfold State.allocFile at opened
  split at opened
  · simp at opened
  · simp only [Prod.mk.injEq] at opened
    rw [← opened.1]
    rfl

theorem node_facts (bounded : st.Bounded) (named : st.node path = some n) :
    n.start < 4294967296 ∧ n.sectors = st.sectors n.drive := by
  obtain ⟨⟨drive, part⟩, -, rfl⟩ := Option.map_eq_some_iff.mp named
  cases part with
  | none => exact ⟨Nat.zero_lt_succ _, rfl⟩
  | some part => exact ⟨bounded.parts _ _, rfl⟩

/-- The record that answers is new and the partition starts on the drive, or it is for the same
part. -/
def Answers (st : State) (n : Node) : Prop :=
  ∀ k, st.answering st.nextFd = some k →
    if (st.files k).inUse = false then n.start ≤ n.sectors else (st.files k).Serves n

theorem answers_iff (bounded : st.Bounded) (named : st.node path = some n)
    (opened : devfsOpen st euid path flags = (st', some fd)) :
    Answers st n ↔ ∃ f, st'.file fd = some f ∧ f.Serves n := by
  obtain ⟨rfl, k, first, found⟩ := file_allocFile (devfsOpen_node opened named)
  have one : Answers st n ↔
      if (st.files k).inUse = false then n.start ≤ n.sectors else (st.files k).Serves n := by
    constructor
    · exact fun answers => answers k first
    · intro holds other alsoFirst
      rw [first] at alsoFirst
      cases alsoFirst
      exact holds
  rw [one, found]
  simp only [Option.some.injEq, exists_eq_left']
  split
  · exact (serves_new_iff (node_facts bounded named).1).symm
  · rfl

end Open

/-- An opened node keeps its promise exactly when the record that answers stands for it. -/
theorem devfsOpen_confined_iff {st st' : State} {euid flags fd : Nat} {path : CString} {n : Node}
    (reached : Reachable st) (opened : devfsOpen st euid path flags = (st', some fd))
    (named : st.node path = some n) : Confined st' fd n ↔ Answers st n := by
  have bounded := reached.bounded
  have after : st'.Bounded := by
    have next := bounded.devfsOpen euid path flags
    rwa [opened] at next
  rw [answers_iff bounded named opened]
  constructor
  · intro confined
    obtain ⟨-, k, -, found⟩ := file_allocFile (devfsOpen_node opened named)
    exact ⟨_, found, confined.serves found (after.file found)⟩
  · rintro ⟨f, found, serves⟩
    refine serves.confined found ?_
    rw [sectors_allocFile (devfsOpen_node opened named)]
    exact (node_facts bounded named).2

/-- A boot sector whose first entry is a partition with these bytes as first sector and count. -/
def bootSector (start count : UInt8) : ByteMemory := fun i =>
  if i = 450 then 0x83 else if i = 454 then start else if i = 458 then count
  else if i = 510 then 0x55 else if i = 511 then 0xAA else 0

def oneDrive (start count : UInt8) : State :=
  devfsInit (fun d => ⟨d = 0, 100, 0⟩) fun _ => some (bootSector start count)

/-- A partition that the disk cuts short: ten of its twenty sectors are there. -/
theorem devfsOpen_confined_clipped :
    Confined (devfsOpen (oneDrive 90 20) 0 (cstr "/dev/hda1") 4).1 1000
      ⟨0, 90, 20, 100, by decide⟩ := by
  have opened : devfsOpen (oneDrive 90 20) 0 (cstr "/dev/hda1") 4 =
      ((devfsOpen (oneDrive 90 20) 0 (cstr "/dev/hda1") 4).1, some 1000) :=
    Prod.ext rfl (by decide +kernel)
  refine (devfsOpen_confined_iff (.init ..) opened (by decide +kernel)).mpr ?_
  intro k first
  have slot : k = 0 := by
    have zero : (oneDrive 90 20).answering (oneDrive 90 20).nextFd = some 0 := by decide +kernel
    exact Option.some.inj (first.symm.trans zero)
  subst slot
  exact (by decide : 90 ≤ 100)

/-- A partition that starts behind the drive is not confined to it. -/
theorem not_devfsOpen_confined :
    ¬ ∀ (st st' : State) (euid flags fd : Nat) (path : CString) (n : Node), Reachable st →
      devfsOpen st euid path flags = (st', some fd) → st.node path = some n →
      Confined st' fd n := by
  intro all
  have opened : devfsOpen (oneDrive 200 10) 0 (cstr "/dev/hda1") 1 =
      ((devfsOpen (oneDrive 200 10) 0 (cstr "/dev/hda1") 1).1, some 1000) :=
    Prod.ext rfl (by decide +kernel)
  have confined := all _ _ 0 1 1000 _ ⟨0, 200, 10, 100, by decide⟩ (.init ..) opened
    (by decide +kernel)
  have asked : ⟨0, 200, 1, false⟩ ∈ requests (.ofBytes sectorSize)
      (devfsOpen (oneDrive 200 10) 0 (cstr "/dev/hda1") 1).1 (fun _ _ => 0)
      (.read 1000 (some fun _ => 0) 512) := by decide +kernel
  obtain ⟨-, covers⟩ := confined.inside (.ofBytes sectorSize) (fun _ _ => 0) [] _ rfl _ asked
  exact absurd (covers 200 le_rfl (by decide)).2.2 (by decide)

end M4KK1.Devfs
