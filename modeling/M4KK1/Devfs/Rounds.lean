import M4KK1.Devfs.Nodes

/-!
# What the loops ask of the driver and what they move

Requests start in the sector of a position below the size; on a true record all bytes are moved.
-/

namespace M4KK1.Devfs

open Lib Function

variable {σ : Type} {ata : SectorDriver σ}

def DevfsFile.at (f : DevfsFile) (offset : Nat) : DevfsFile := { f with offset := offset }

@[simp] theorem DevfsFile.at_at (f : DevfsFile) (first second : Nat) :
    (f.at first).at second = f.at second := rfl

@[simp] theorem DevfsFile.at_offset (f : DevfsFile) (offset : Nat) :
    (f.at offset).offset = offset :=
  rfl

@[simp] theorem DevfsFile.at_drive (f : DevfsFile) (offset : Nat) : (f.at offset).drive = f.drive :=
  rfl

@[simp] theorem DevfsFile.at_sizeBytes (f : DevfsFile) (offset : Nat) :
    (f.at offset).sizeBytes = f.sizeBytes := rfl

@[simp] theorem DevfsFile.at_isDir (f : DevfsFile) (offset : Nat) : (f.at offset).isDir = f.isDir :=
  rfl

theorem DevfsFile.at_self (f : DevfsFile) : f.at f.offset = f := rfl

@[simp] theorem DevfsFile.advance_eq (f : DevfsFile) (offset bytes : Nat) :
    (f.at offset).advance bytes = f.at (wrap64 (offset + bytes)) := rfl

/-- Records that differ in positions at most. -/
def Moved (before after : State) : Prop :=
  ∃ offsets : Fin 64 → Nat,
    after = { before with files := fun k => (before.files k).at (offsets k) }

theorem Moved.refl (st : State) : Moved st st := ⟨fun k => (st.files k).offset, rfl⟩

theorem Moved.trans {first second third : State} (left : Moved first second)
    (right : Moved second third) : Moved first third := by
  obtain ⟨_, rfl⟩ := left
  obtain ⟨offsets, rfl⟩ := right
  exact ⟨offsets, rfl⟩

theorem Moved.findByFd {before after : State} (moved : Moved before after) (fd : Nat) :
    after.findByFd fd = before.findByFd fd := by
  obtain ⟨offsets, rfl⟩ := moved
  exact firstSlot_congr fun _ => Iff.rfl

variable {f : DevfsFile} {Keep : σ → Prop}

theorem Moved.file {before after : State} {fd : Nat} (moved : Moved before after)
    (found : before.file fd = some f) : ∃ offset, after.file fd = some (f.at offset) := by
  obtain ⟨k, slot, rfl⟩ := Option.map_eq_some_iff.mp found
  have same := moved.findByFd fd
  obtain ⟨offsets, rfl⟩ := moved
  refine ⟨offsets k, ?_⟩
  rw [State.file, same, slot]
  rfl

theorem moved_setFile {st : State} {fd : Nat} (found : st.file fd = some f)
    (offset : Nat) : Moved st (st.setFile fd (f.at offset)) := by
  obtain ⟨k, slot, rfl⟩ := Option.map_eq_some_iff.mp found
  refine ⟨fun i => if i = k then offset else (st.files i).offset, ?_⟩
  simp only [State.setFile, slot]
  congr 1
  funext i
  by_cases same : i = k
  · subst same
    rw [update_self, if_pos rfl]
  · rw [update_of_ne same, if_neg same, DevfsFile.at_self]

theorem file_setFile {st : State} {fd : Nat} (found : st.file fd = some f)
    (offset : Nat) : (st.setFile fd (f.at offset)).file fd = some (f.at offset) := by
  have same := (moved_setFile found offset).findByFd fd
  obtain ⟨k, slot, rfl⟩ := Option.map_eq_some_iff.mp found
  rw [State.file, same, slot, Option.map_some, State.setFile, slot]
  exact congrArg some (update_self ..)

theorem readLoop_at (ata : SectorDriver σ) (count : Nat) (f : DevfsFile) (rounds : Nat) :
    ∀ (s : σ) (offset total : Nat) (out : ByteMemory),
      ∃ last, (readLoop ata count rounds s (f.at offset) total out).2.1 = f.at last := by
  induction rounds with
  | zero => exact fun _ offset _ _ => ⟨offset, rfl⟩
  | succ rounds ih =>
    intro s offset total out
    rw [readLoop]
    split
    · split
      · split
        · exact ⟨offset, rfl⟩
        · exact ih ..
      · split
        · exact ⟨offset, rfl⟩
        · exact ih ..
    · exact ⟨offset, rfl⟩

theorem writeLoop_at (ata : SectorDriver σ) (count : Nat) (input : ByteMemory) (f : DevfsFile)
    (rounds : Nat) :
    ∀ (s : σ) (offset total : Nat),
      ∃ last, (writeLoop ata count input rounds s (f.at offset) total).2.1 = f.at last := by
  induction rounds with
  | zero => exact fun _ offset _ => ⟨offset, rfl⟩
  | succ rounds ih =>
    intro s offset total
    simp only [writeLoop]
    split
    · split
      · exact ⟨offset, rfl⟩
      · exact ih ..
    · exact ⟨offset, rfl⟩

theorem Call.moved (ata : SectorDriver σ) (call : Call) (st : State) (s : σ) :
    Moved st (call.run ata st s).1 := by
  cases call with
  | lseek fd offset whence =>
    simp only [Call.run, devfsLseek]
    split
    · exact .refl st
    · next f found =>
      split
      · exact .refl st
      · split
        · exact .refl st
        · exact moved_setFile found _
  | read fd buf count =>
    simp only [Call.run, devfsRead]
    split
    · next f out found =>
      split
      · exact .refl st
      · split
        · exact .refl st
        · obtain ⟨last, moved⟩ := readLoop_at ata count.toNat f count.toNat s f.offset 0 out
          rw [DevfsFile.at_self] at moved
          simp only [moved]
          exact moved_setFile found last
    · exact .refl st
  | write fd buf count =>
    simp only [Call.run, devfsWrite]
    split
    · next f input found =>
      split
      · exact .refl st
      · split
        · exact .refl st
        · obtain ⟨last, moved⟩ := writeLoop_at ata count.toNat input f count.toNat s f.offset 0
          rw [DevfsFile.at_self] at moved
          simp only [moved]
          exact moved_setFile found last
    · exact .refl st

theorem runCalls_moved (ata : SectorDriver σ) (calls : List Call) : ∀ (st : State) (s : σ),
    Moved st (runCalls ata st s calls).1 := by
  induction calls with
  | nil => exact fun st _ => .refl st
  | cons call calls ih => exact fun st s => (call.moved ata st s).trans (ih ..)

/-- The requests that the loops make for a file: these many sectors from this one on. -/
def DevfsFile.Asks (f : DevfsFile) (first count : Nat) : Prop :=
  ∃ offset, offset < f.sizeBytes ∧ first = (f.at offset).sector ∧
    (count = 1 ∨
      0 < count ∧ (f.at offset).offInSec = 0 ∧ count * sectorSize ≤ f.sizeBytes - offset)

theorem readLoop_keeps {count : Nat} (kept : ∀ s first sectors, f.Asks first sectors → Keep s →
      Keep (ata.readSectors s f.drive first sectors).1) (rounds : Nat) :
    ∀ (s : σ) (offset total : Nat) (out : ByteMemory), Keep s →
      Keep (readLoop ata count rounds s (f.at offset) total out).1 := by
  induction rounds with
  | zero => exact fun _ _ _ _ keep => keep
  | succ rounds ih =>
    intro s offset total out keep
    rw [readLoop, DevfsFile.at_drive]
    split
    · next going =>
      split
      · next aligned =>
        have left : (f.at offset).batch (count - total) ≤ (f.sizeBytes - offset) / sectorSize :=
          Nat.min_le_right ..
        have after := kept s _ _ ⟨offset, going.2, rfl,
          .inr ⟨aligned.2.2, aligned.1, (Nat.le_div_iff_mul_le (by decide)).mp left⟩⟩ keep
        split
        · next failed => rwa [failed] at after
        · next read =>
          rw [read] at after
          exact ih _ _ _ _ after
      · have after := kept s _ 1 ⟨offset, going.2, rfl, .inl rfl⟩ keep
        split
        · next failed => rwa [failed] at after
        · next read =>
          rw [read] at after
          exact ih _ _ _ _ after
    · exact keep

theorem writeRound_keeps (keptRead : ∀ s first sectors, f.Asks first sectors → Keep s →
      Keep (ata.readSectors s f.drive first sectors).1)
    (keptWrite : ∀ s first sectors data, f.Asks first sectors → Keep s →
      Keep (ata.writeSectors s f.drive first sectors data).1)
    {s : σ} {offset chunk : Nat} (input : ByteMemory) (below : offset < f.sizeBytes)
    (left : chunk ≤ f.sizeBytes - offset) (keep : Keep s) :
    Keep (writeRound ata s (f.at offset) chunk input).1 := by
  have one : f.Asks (f.at offset).sector 1 := ⟨offset, below, rfl, .inl rfl⟩
  rw [writeRound, DevfsFile.at_drive]
  split
  · next aligned =>
    have whole : 0 < chunk / sectorSize := Nat.div_pos aligned.2.1 (by decide)
    have within : chunk / sectorSize * sectorSize ≤ f.sizeBytes - offset :=
      (Nat.div_mul_le_self ..).trans left
    exact keptWrite s _ _ _ ⟨offset, below, rfl, .inr ⟨whole, aligned.1, within⟩⟩ keep
  · split
    · have after := keptRead s _ 1 one keep
      split
      · next failed => rwa [failed] at after
      · next read =>
        rw [read] at after
        exact keptWrite _ _ _ _ one after
    · exact keptWrite s _ _ _ one keep

theorem writeLoop_keeps {count : Nat} {input : ByteMemory}
    (keptRead : ∀ s first sectors, f.Asks first sectors → Keep s →
      Keep (ata.readSectors s f.drive first sectors).1)
    (keptWrite : ∀ s first sectors data, f.Asks first sectors → Keep s →
      Keep (ata.writeSectors s f.drive first sectors data).1) (rounds : Nat) :
    ∀ (s : σ) (offset total : Nat), Keep s →
      Keep (writeLoop ata count input rounds s (f.at offset) total).1 := by
  induction rounds with
  | zero => exact fun _ _ _ keep => keep
  | succ rounds ih =>
    intro s offset total keep
    simp only [writeLoop]
    split
    · next going =>
      rw [DevfsFile.at_offset, DevfsFile.at_sizeBytes] at going
      have left : (f.at offset).chunk (count - total) ≤ f.sizeBytes - offset := Nat.min_le_right ..
      have after :=
        writeRound_keeps keptRead keptWrite (fun i => input (total + i)) going.2 left keep
      split
      · next failed => rwa [failed] at after
      · next done =>
        rw [done] at after
        exact ih _ _ _ after
    · exact keep

/-- What every request to the driver keeps, a call keeps. -/
theorem Call.keeps (Keep : σ → Prop) {st : State} (call : Call) (found : st.file call.fd = some f)
    (keptRead : ∀ s first sectors, f.Asks first sectors → Keep s →
      Keep (ata.readSectors s f.drive first sectors).1)
    (keptWrite : call.IsWrite → ∀ s first sectors data, f.Asks first sectors → Keep s →
      Keep (ata.writeSectors s f.drive first sectors data).1) {s : σ} (keep : Keep s) :
    Keep (call.run ata st s).2 := by
  cases call with
  | lseek fd offset whence => exact keep
  | read fd buf count =>
    simp only [Call.run, devfsRead]
    rw [Call.fd] at found
    rw [found]
    cases buf with
    | none => exact keep
    | some out =>
      dsimp only
      split
      · exact keep
      · split
        · exact keep
        · exact readLoop_keeps keptRead _ s f.offset 0 out keep
  | write fd buf count =>
    simp only [Call.run, devfsWrite]
    rw [Call.fd] at found
    rw [found]
    cases buf with
    | none => exact keep
    | some input =>
      dsimp only
      split
      · exact keep
      · split
        · exact keep
        · exact writeLoop_keeps keptRead (keptWrite trivial) _ s f.offset 0 keep

/-- Sectors of a drive, from an entry of its partition table, and how many the drive has. -/
structure Node where
  drive : Nat
  start : Nat
  count : Nat
  sectors : Nat
  bounded : sectors < 4294967296
deriving DecidableEq

namespace Node

/-- A sector of the partition and of the drive. -/
def Covers (n : Node) (sector : Nat) : Prop :=
  n.start ≤ sector ∧ sector < n.start + n.count ∧ sector < n.sectors

def extent (n : Node) : Nat := min n.count (n.sectors - n.start)

def size (n : Node) : Nat := n.extent * sectorSize

/-- The first byte of the node on the drive. -/
def base (n : Node) : Nat := n.start * sectorSize

end Node

/-- The record stands for the part of the drive that the node names. -/
structure DevfsFile.Serves (f : DevfsFile) (n : Node) : Prop where
  isFile : f.isDir = false
  size : f.sizeBytes = n.size
  place : n.extent ≠ 0 → f.drive = n.drive ∧ f.startLba = n.start

namespace DevfsFile.Serves

variable {f : DevfsFile} {n : Node} {offset : Nat}

theorem located (serves : f.Serves n) (below : offset < f.sizeBytes) :
    f.drive = n.drive ∧ (f.at offset).sector = n.start + offset / sectorSize ∧
      (f.at offset).offInSec = offset % sectorSize ∧ n.start + n.extent ≤ n.sectors := by
  have bounded := n.bounded
  rw [serves.size] at below
  simp only [Node.size, Node.extent, sectorSize] at below
  obtain ⟨drive, start⟩ := serves.place (by unfold Node.extent; omega)
  have absByte : (f.at offset).absByte = n.start * sectorSize + offset := by
    rw [absByte, DevfsFile.at, start]
    exact wrap64_eq (by simp only [sectorSize]; omega)
  refine ⟨drive, ?_, ?_, ?_⟩
  · simp only [sector, absByte, sectorSize]
    omega
  · simp only [offInSec, absByte, sectorSize]
    omega
  · unfold Node.extent
    omega

theorem asks {first count : Nat} (serves : f.Serves n) (asked : f.Asks first count) :
    f.drive = n.drive ∧ 0 < count ∧ n.start ≤ first ∧ first + count ≤ n.start + n.extent ∧
      n.start + n.extent ≤ n.sectors := by
  obtain ⟨offset, below, rfl, shape⟩ := asked
  obtain ⟨drive, sector, aligned, inside⟩ := serves.located below
  rw [serves.size] at below shape
  rw [aligned] at shape
  simp only [Node.size, sectorSize] at below shape sector
  rw [sector]
  omega

end DevfsFile.Serves

end M4KK1.Devfs
