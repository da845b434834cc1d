import M4KK1.Lib.Run
import M4KK1.Lib.Word32
import M4KK1.Yafs.Btree

/-!
# The free space that is reported

`mkrn_yafs_fs_stats` takes 4096 blocks for 1024 and counts freed ones as free.
-/

namespace M4KK1.Yafs

open Lib

/-- `YAFS_RAMDISK_BLOCKS` of `yafs_vfs.c`. -/
def yafsRamdiskBlocks : Nat := 1024

/-- What `mkrn_yafs_fs_stats` writes. -/
structure FsStats where
  blockSize : Nat
  totalBlocks : Nat
  freeBlocks : Nat
  usedBlocks : Nat

def yafsFsStats (device : Device) : FsStats :=
  let used := device.totalAllocated % 4294967296
  ⟨4096, yafsRamdiskBlocks, sub32 yafsRamdiskBlocks used, used⟩

inductive DeviceCall where
  | alloc
  | free (lba : Nat)
  | write (lba : Nat) (block : Block)

def DeviceCall.run (device : Device) : DeviceCall → Device
  | .alloc => (devAllocBlock device).1
  | .free lba => devFreeBlock device lba
  | .write lba block => (devWrite device lba block).1

def DeviceStep (before : Device) (call : DeviceCall) (after : Device) : Prop :=
  after = call.run before

/-- The device before its first use. -/
structure FreshDevice (device : Device) : Prop where
  next : device.nextFreeBlock = 3
  none : device.totalAllocated = 0

/-- How many of so many further calls of `mkrn_yafs_dev_alloc_block` succeed. -/
def furtherAllocs : Nat → Device → Nat
  | 0, _ => 0
  | calls + 1, device =>
    furtherAllocs calls (devAllocBlock device).1 + if (devAllocBlock device).2 = 0 then 0 else 1

/-- The report adds up, and as many further blocks can be had as it says are free. -/
structure ReportsFreeSpace (device : Device) : Prop where
  sum : (yafsFsStats device).usedBlocks + (yafsFsStats device).freeBlocks =
      (yafsFsStats device).totalBlocks
  used_le : (yafsFsStats device).usedBlocks ≤ (yafsFsStats device).totalBlocks
  free : ∀ calls, furtherAllocs calls device = min calls (yafsFsStats device).freeBlocks

/-- The counters of a device in use: what is counted as allocated has been handed out. -/
structure Counted (device : Device) : Prop where
  low : device.totalAllocated + 3 ≤ device.nextFreeBlock
  high : device.nextFreeBlock ≤ ramdiskBlocks

variable {device : Device}

theorem FreshDevice.counted (fresh : FreshDevice device) : Counted device := by
  constructor
  · exact Nat.le_of_eq (by rw [fresh.next, fresh.none])
  · exact Nat.le_trans (Nat.le_of_eq fresh.next) (by decide)

theorem Counted.run (counted : Counted device) (call : DeviceCall) : Counted (call.run device) := by
  obtain ⟨low, high⟩ := counted
  cases call with
  | alloc =>
    show Counted (devAllocBlock device).1
    by_cases full : device.nextFreeBlock ≥ ramdiskBlocks
    · rw [devAllocBlock, if_pos full]
      exact ⟨low, high⟩
    · rw [devAllocBlock, if_neg full]
      exact ⟨Nat.add_le_add_right low 1, Nat.lt_of_not_le full⟩
  | free lba =>
    show Counted (devFreeBlock device lba)
    by_cases some : device.totalAllocated > 0
    · rw [devFreeBlock, if_pos some]
      exact ⟨Nat.le_trans (Nat.add_le_add_right (Nat.sub_le _ _) _) low, high⟩
    · rw [devFreeBlock, if_neg some]
      exact ⟨low, high⟩
  | write lba block =>
    show Counted (devWrite device lba block).1
    by_cases outside : lba ≥ ramdiskBlocks
    · rw [devWrite, if_pos outside]
      exact ⟨low, high⟩
    · rw [devWrite, if_neg outside]
      exact ⟨low, high⟩

theorem furtherAllocs_eq (calls : Nat) (used : 0 < device.nextFreeBlock) :
    furtherAllocs calls device = min calls (ramdiskBlocks - device.nextFreeBlock) := by
  induction calls generalizing device with
  | zero => exact (Nat.zero_min _).symm
  | succ calls ih =>
    rw [furtherAllocs, devAllocBlock]
    by_cases full : device.nextFreeBlock ≥ ramdiskBlocks
    · rw [if_pos full, if_pos rfl, ih used]
      omega
    · rw [if_neg full, if_neg (Nat.ne_of_gt used), ih (Nat.succ_pos _)]
      dsimp only
      omega

/-- The report is right exactly when 3072 more blocks are handed out than counted. -/
theorem free_space_report_iff {start device : Device} {calls : List DeviceCall}
    (fresh : FreshDevice start)
    (run : Steps DeviceStep start calls device) :
    ReportsFreeSpace device ↔ device.nextFreeBlock = device.totalAllocated + 3072 := by
  obtain ⟨low, high⟩ : Counted device :=
    run.invariant Counted (fun _ call _ counted step => step ▸ counted.run call) fresh.counted
  have small : ramdiskBlocks = 4096 := rfl
  have used : (yafsFsStats device).usedBlocks = device.totalAllocated := Nat.mod_eq_of_lt (by omega)
  have total : (yafsFsStats device).totalBlocks = 1024 := rfl
  have further (calls : Nat) := furtherAllocs_eq calls (show 0 < device.nextFreeBlock by omega)
  constructor
  · rintro ⟨sum, used_le, free⟩
    have all := (further ramdiskBlocks).symm.trans (free ramdiskBlocks)
    rw [used, total] at sum
    omega
  · intro offset
    have free : (yafsFsStats device).freeBlocks = ramdiskBlocks - device.nextFreeBlock := by
      have isFree : (yafsFsStats device).freeBlocks = sub32 1024 device.totalAllocated := by
        rw [← used]
        rfl
      rw [isFree, sub32_eq (by omega) (by decide)]
      omega
    refine ⟨?_, ?_, fun calls => ?_⟩
    · rw [used, total, free]
      omega
    · rw [used, total]
      omega
    · rw [free, further]

theorem churned (blocks : Nat) (few : blocks ≤ 4093) : ∃ calls device,
    Steps DeviceStep ⟨fun _ => .zero, 3, 0⟩ calls device ∧
      device.nextFreeBlock = blocks + 3 ∧ device.totalAllocated = 0 := by
  induction blocks with
  | zero => exact ⟨[], _, .refl, rfl, rfl⟩
  | succ blocks ih =>
    obtain ⟨calls, device, run, next, none⟩ := ih (by omega)
    have room : ¬device.nextFreeBlock ≥ ramdiskBlocks := by
      rw [next, ramdiskBlocks]
      omega
    have alloc : DeviceStep device .alloc _ := rfl
    have free : DeviceStep (DeviceCall.alloc.run device) (.free 3) _ := rfl
    refine ⟨_, _, (run.step alloc).step free, ?_, ?_⟩
    · show (devFreeBlock (devAllocBlock device).1 3).nextFreeBlock = _
      rw [devAllocBlock, if_neg room, devFreeBlock, if_pos (Nat.succ_pos _)]
      exact congrArg (· + 1) next
    · show (devFreeBlock (devAllocBlock device).1 3).totalAllocated = _
      rw [devAllocBlock, if_neg room, devFreeBlock, if_pos (Nat.succ_pos _)]
      exact none

/-- Blocks that were allocated and freed in between. -/
theorem free_space_report_churned : ∃ calls device,
    Steps DeviceStep ⟨fun _ => .zero, 3, 0⟩ calls device ∧ ReportsFreeSpace device := by
  obtain ⟨calls, device, run, next, none⟩ := churned 3069 (by decide)
  exact ⟨calls, device, run, (free_space_report_iff ⟨rfl, rfl⟩ run).mpr (by rw [next, none])⟩

/-- After the first insert 1023 blocks are reported free, and 4092 can be had. -/
theorem not_reports_free_space : ¬∀ (start device : Device) (calls : List DeviceCall),
    FreshDevice start → Steps DeviceStep start calls device → ReportsFreeSpace device := by
  intro reports
  have fresh : FreshDevice ⟨fun _ => .zero, 3, 0⟩ := ⟨rfl, rfl⟩
  have first : DeviceStep ⟨fun _ => .zero, 3, 0⟩ .alloc (devAllocBlock ⟨fun _ => .zero, 3, 0⟩).1 :=
    rfl
  have free := (reports _ _ _ fresh (Steps.refl.step first)).free 1024
  rw [furtherAllocs_eq 1024 (by decide)] at free
  exact absurd free (by decide)

end M4KK1.Yafs
