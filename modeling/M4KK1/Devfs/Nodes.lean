import M4KK1.Lib.SectorStore
import M4KK1.Lib.Word32
import M4KK1.Vfs.Special

/-!
# Block device nodes

`fs/devfs/mkrn_devfs.c` up to `lseek`, with what it asks of `ata.c`.
-/

namespace M4KK1.Devfs

open Lib Yafs
open Vfs (skipSlashes devfsParsePath writingFlags)

def sectorSize : Nat := 512

/-- `mkrn_ata_drive_t`; the drive tells its sectors in two words. -/
structure AtaDrive where
  present : Bool
  word60 : UInt16
  word61 : UInt16

/-- `sectors` of a drive, from `ata_identify`. -/
def AtaDrive.sectors (drive : AtaDrive) : Nat := drive.word60.toNat ||| (drive.word61.toNat <<< 16)

theorem AtaDrive.sectors_lt (drive : AtaDrive) : drive.sectors < 4294967296 := by
  have low := drive.word60.toNat_lt
  have high := drive.word61.toNat_lt
  refine Nat.or_lt_two_pow (n := 32) (by omega) ?_
  rw [Nat.shiftLeft_eq]
  omega

variable (drives : Nat → AtaDrive)

/-- `mkrn_ata_get_sectors`, for the `M4K_ATA_MAX_DRIVES` drives. -/
def getSectors (drive : Nat) : Nat :=
  if 2 ≤ drive ∨ (drives drive).present = false then 0 else (drives drive).sectors

theorem getSectors_lt (drive : Nat) : getSectors drives drive < 4294967296 := by
  unfold getSectors
  split
  · decide
  · exact AtaDrive.sectors_lt _

/-- `mkrn_mbr_partition_t` -/
structure MbrPartition where
  lbaStart : Nat
  lbaCount : Nat
  valid : Bool
deriving DecidableEq, Repr

/-- The entry that `memset` leaves. -/
def MbrPartition.zero : MbrPartition := ⟨0, 0, false⟩

def mbrEntry (sector : ByteMemory) (i : Nat) : MbrPartition :=
  let e := 446 + i * 16
  if sector (e + 4) = 0 then .zero else ⟨read32 sector (e + 8), read32 sector (e + 12), true⟩

/-- `mkrn_ata_read_mbr` on the boot sector, if it could be read. -/
def readMbr : Option ByteMemory → Int × (Nat → MbrPartition)
  | none => (-1, fun _ => .zero)
  | some sector =>
    if (sector 510).toNat ||| ((sector 511).toNat <<< 8) ≠ 0xAA55 then (0, fun _ => .zero)
    else
      (((List.range 4).countP fun i => (mbrEntry sector i).valid : Nat),
        fun i => if i < 4 then mbrEntry sector i else .zero)

theorem readMbr_lbaStart_lt (sector : Option ByteMemory) (i : Nat) :
    ((readMbr sector).2 i).lbaStart < 4294967296 := by
  cases sector with
  | none => exact Nat.zero_lt_succ _
  | some sector =>
    simp only [readMbr]
    split
    · exact Nat.zero_lt_succ _
    · simp only [mbrEntry]
      split
      · split
        · exact Nat.zero_lt_succ _
        · exact read32_lt _ _
      · exact Nat.zero_lt_succ _

/-- `devfs_file_t` -/
structure DevfsFile where
  fd : Nat
  drive : Nat
  startLba : Nat
  sizeSectors : Nat
  offset : Nat
  isDir : Bool
  inUse : Bool
deriving DecidableEq, Repr

def DevfsFile.sizeBytes (f : DevfsFile) : Nat := wrap64 (f.sizeSectors * sectorSize)

/-- The globals of the filesystem, and the drives behind it. -/
structure State where
  files : Fin 64 → DevfsFile
  nextFd : Nat
  drives : Nat → AtaDrive
  parts : Nat → Nat → MbrPartition
  nparts : Nat → Int

/-- `mkrn_devfs_init`, when reading the boot sectors gives `boot`. -/
def devfsInit (boot : Nat → Option ByteMemory) : State where
  files _ := ⟨0, 0, 0, 0, 0, false, false⟩
  nextFd := 1000
  drives := drives
  parts d := if getSectors drives d = 0 then fun _ => .zero else (readMbr (boot d)).2
  nparts d :=
    if getSectors drives d = 0 then 0
    else if (readMbr (boot d)).1 > 0 then (readMbr (boot d)).1 else 0

namespace State

def sectors (st : State) (drive : Nat) : Nat := getSectors st.drives drive

def findByFd (st : State) (fd : Nat) : Option (Fin 64) :=
  firstSlot st.files fun f => f.inUse = true ∧ f.fd = fd

/-- The record that `devfs_find_by_fd` points to. -/
def file (st : State) (fd : Nat) : Option DevfsFile := (st.findByFd fd).map st.files

/-- A store through the pointer that `devfs_find_by_fd` returned. -/
def setFile (st : State) (fd : Nat) (f : DevfsFile) : State :=
  match st.findByFd fd with
  | none => st
  | some k => { st with files := Function.update st.files k f }

/-- `devfs_alloc_file` and the fields that `mkrn_devfs_open` fills in. -/
def allocFile (st : State) (isDir : Bool) (drive startLba sizeSectors : Nat) : State × Option Nat :=
  match firstSlot st.files fun f => f.inUse = false with
  | none => (st, none)
  | some k =>
    ({ st with
        files := Function.update st.files k
          ⟨st.nextFd, drive, startLba, sizeSectors, 0, isDir, true⟩
        nextFd := if st.nextFd + 1 ≥ 1024 then 1000 else st.nextFd + 1 },
      some st.nextFd)

/-- `size_sectors` of a partition: `drive_sectors - start_lba` is a `uint64_t`. -/
def partSectors (driveSectors start count : Nat) : Nat :=
  if start + count > driveSectors then wrap64 (driveSectors + (18446744073709551616 - start))
  else count

end State

/-- `mkrn_devfs_open` by a process with this effective user: the descriptor, or `none` for -1. -/
def devfsOpen (st : State) (euid : Nat) (path : CString) (flags : Nat) : State × Option Nat :=
  let p := skipSlashes path
  if p = cstr "dev" ∨ p = cstr "dev/" then st.allocFile true 0 0 0
  else if flags &&& writingFlags ≠ 0 ∧ euid ≠ 0 then (st, none)
  else
    match devfsParsePath path with
    | none => (st, none)
    | some (drive, part) =>
      if st.sectors drive = 0 then (st, none)
      else
        match part with
        | none => st.allocFile false drive 0 (st.sectors drive)
        | some part =>
          if st.nparts drive ≤ part ∨ (st.parts drive part).valid = false then (st, none)
          else
            st.allocFile false drive (st.parts drive part).lbaStart
              (State.partSectors (st.sectors drive) (st.parts drive part).lbaStart
                (st.parts drive part).lbaCount)

def devfsClose (st : State) (fd : Nat) : State × Int :=
  match st.file fd with
  | none => (st, -1)
  | some f => (st.setFile fd { f with inUse := false }, 0)

/-- The position that `mkrn_devfs_lseek` moves a file to. -/
def DevfsFile.target (f : DevfsFile) (offset : Int) (whence : Nat) : Option Nat :=
  let aim : Option Int :=
    match whence with
    | 0 => some offset
    | 1 => some (signed64 (signed64 f.offset + offset))
    | 2 => some (signed64 (signed64 f.sizeBytes + offset))
    | _ => none
  aim.map fun newOffset => if newOffset.toNat > f.sizeBytes then f.sizeBytes else newOffset.toNat

def devfsLseek (st : State) (fd : Nat) (offset : Int) (whence : Nat) : State × Int :=
  match st.file fd with
  | none => (st, -1)
  | some f =>
    if f.isDir = true then (st, -1)
    else
      match f.target offset whence with
      | none => (st, -1)
      | some newOffset => (st.setFile fd { f with offset := newOffset }, signed32 newOffset)

end M4KK1.Devfs

/-!
## Reading and writing block device nodes

`mkrn_devfs_read` and `mkrn_devfs_write` over the two calls of a sector driver. A buffer is
the memory from its first byte on, and a null pointer is `none`. Every round of a loop moves at
least one byte or ends it, so that `count` rounds are enough.
-/

namespace M4KK1.Devfs

open Lib

variable {σ : Type}

def DevfsFile.absByte (f : DevfsFile) : Nat := wrap64 (f.startLba * sectorSize + f.offset)

/-- `sector`, cut to 32 bits. -/
def DevfsFile.sector (f : DevfsFile) : Nat := f.absByte / sectorSize % 4294967296

def DevfsFile.offInSec (f : DevfsFile) : Nat := f.absByte % sectorSize

/-- `df->offset += bytes` -/
def DevfsFile.advance (f : DevfsFile) (bytes : Nat) : DevfsFile :=
  { f with offset := wrap64 (f.offset + bytes) }

/-- `batch`, the whole sectors that are wanted and left. -/
def DevfsFile.batch (f : DevfsFile) (wanted : Nat) : Nat :=
  min (wanted / sectorSize) ((f.sizeBytes - f.offset) / sectorSize)

/-- `chunk`, the bytes that are wanted and left in the sector and in the node. -/
def DevfsFile.chunk (f : DevfsFile) (wanted : Nat) : Nat :=
  min (min (sectorSize - f.offInSec) wanted) (f.sizeBytes - f.offset)

/-- The loop of `mkrn_devfs_read`: the file, `total` and the buffer when it ends. -/
def readLoop (ata : SectorDriver σ) (count : Nat) :
    Nat → σ → DevfsFile → Nat → ByteMemory → σ × DevfsFile × Nat × ByteMemory
  | 0, s, f, total, out => (s, f, total, out)
  | rounds + 1, s, f, total, out =>
    if total < count ∧ f.offset < f.sizeBytes then
      if f.offInSec = 0 ∧ count - total ≥ sectorSize ∧ f.batch (count - total) > 0 then
        match ata.readSectors s f.drive f.sector (f.batch (count - total)) with
        | (s, none) => (s, f, total, out)
        | (s, some data) =>
          let bytes := f.batch (count - total) * sectorSize
          readLoop ata count rounds s (f.advance bytes) (total + bytes)
            (splice out total bytes data)
      else
        match ata.readSectors s f.drive f.sector 1 with
        | (s, none) => (s, f, total, out)
        | (s, some secbuf) =>
          let chunk := f.chunk (count - total)
          readLoop ata count rounds s (f.advance chunk) (total + chunk)
            (splice out total chunk fun i => secbuf (f.offInSec + i))
    else (s, f, total, out)

variable (ata : SectorDriver σ)

/-- One round of `mkrn_devfs_write`: whole sectors at once, part of one by read and write. -/
def writeRound (s : σ) (f : DevfsFile) (chunk : Nat) (input : ByteMemory) :
    σ × Bool :=
  if f.offInSec = 0 ∧ chunk ≥ sectorSize ∧ chunk - chunk % sectorSize > 0 then
    ata.writeSectors s f.drive f.sector (chunk / sectorSize) input
  else if f.offInSec ≠ 0 ∨ chunk < sectorSize then
    match ata.readSectors s f.drive f.sector 1 with
    | (s, none) => (s, false)
    | (s, some secbuf) =>
      ata.writeSectors s f.drive f.sector 1 (splice secbuf f.offInSec chunk input)
  else ata.writeSectors s f.drive f.sector 1 input

/-- The loop of `mkrn_devfs_write`: the file and `total` when it ends. -/
def writeLoop (ata : SectorDriver σ) (count : Nat) (input : ByteMemory) :
    Nat → σ → DevfsFile → Nat → σ × DevfsFile × Nat
  | 0, s, f, total => (s, f, total)
  | rounds + 1, s, f, total =>
    if total < count ∧ f.offset < f.sizeBytes then
      let chunk := f.chunk (count - total)
      match writeRound ata s f chunk fun i => input (total + i) with
      | (s, false) => (s, f, total)
      | (s, true) => writeLoop ata count input rounds s (f.advance chunk) (total + chunk)
    else (s, f, total)

/-- `mkrn_devfs_read`: the number returned and the buffer. -/
def devfsRead (st : State) (s : σ) (fd : Nat) (buf : Option ByteMemory)
    (count : UInt32) : State × σ × Int × Option ByteMemory :=
  match st.file fd, buf with
  | some f, some out =>
    if f.isDir = true then (st, s, -1, buf)
    else if f.offset ≥ f.sizeBytes then (st, s, 0, buf)
    else
      let (s, f, total, out) := readLoop ata count.toNat count.toNat s f 0 out
      (st.setFile fd f, s, signed32 total, some out)
  | _, _ => (st, s, -1, buf)

def devfsWrite (st : State) (s : σ) (fd : Nat) (buf : Option ByteMemory)
    (count : UInt32) : State × σ × Int :=
  match st.file fd, buf with
  | some f, some input =>
    if f.isDir = true then (st, s, -1)
    else if f.offset ≥ f.sizeBytes then (st, s, 0)
    else
      let (s, f, total) := writeLoop ata count.toNat input count.toNat s f 0
      (st.setFile fd f, s, signed32 total)
  | _, _ => (st, s, -1)

inductive Call where
  | lseek (fd : Nat) (offset : Int) (whence : Nat)
  | read (fd : Nat) (buf : Option ByteMemory) (count : UInt32)
  | write (fd : Nat) (buf : Option ByteMemory) (count : UInt32)

def Call.fd : Call → Nat
  | .lseek fd _ _ => fd
  | .read fd _ _ => fd
  | .write fd _ _ => fd

/-- A call of `mkrn_devfs_write`. -/
def Call.IsWrite : Call → Prop
  | .lseek _ _ _ => False
  | .read _ _ _ => False
  | .write _ _ _ => True

def Call.run (st : State) (s : σ) : Call → State × σ
  | .lseek fd offset whence => ((devfsLseek st fd offset whence).1, s)
  | .read fd buf count =>
    let (st, s, _) := devfsRead ata st s fd buf count
    (st, s)
  | .write fd buf count =>
    let (st, s, _) := devfsWrite ata st s fd buf count
    (st, s)

def runCalls (st : State) (s : σ) (calls : List Call) : State × σ :=
  calls.foldl (fun now call => call.run ata now.1 now.2) (st, s)

/-- A run of calls is the run of its front and then that of the rest. -/
theorem runCalls_append (st : State) (s : σ) (first second : List Call) :
    runCalls ata st s (first ++ second) =
      runCalls ata (runCalls ata st s first).1 (runCalls ata st s first).2 second :=
  List.foldl_append

end M4KK1.Devfs
