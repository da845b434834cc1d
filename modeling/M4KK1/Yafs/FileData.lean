import M4KK1.Yafs.Namespace

/-!
# File contents in `yafs_vfs.c`

`yafs_vfs.c`: one extent key for each block of 4 KB.
-/

namespace M4KK1.Yafs

open Lib

def dataBlockSize : Nat := 4096

def maxFileBlocks : Nat := 0x10000

def blocksPerExtent : Nat := 1

def Block.asData : Block → Except Fault (Nat → UInt8)
  | .data bytes => .ok bytes
  | .zero => .ok fun _ => 0
  | .node _ | .inode _ => .error .badImage

/-- `mkrn_yafs_dev_read` into a data buffer. -/
def dataRead (device : Device) (lba : Nat) : Except Fault (Option (Nat → UInt8)) :=
  match devRead device lba with
  | none => .ok none
  | some block => do
    let bytes ← block.asData
    return some bytes

/-- The local variables of `mkrn_yafs_read_file_data`. -/
structure ReadCursor where
  remaining : Nat
  blockIdx : Nat
  blockOff : Nat
  out : List UInt8

/-- One block of `mkrn_yafs_read_file_data`: its bytes from `blockOff` on. -/
def ReadCursor.take (cursor : ReadCursor) (bytes : Nat → UInt8) : ReadCursor :=
  let copy := min (dataBlockSize - cursor.blockOff) cursor.remaining
  ⟨cursor.remaining - copy, cursor.blockIdx + 1, 0,
    cursor.out ++ (List.range copy).map fun i => bytes (cursor.blockOff + i)⟩

/-- The inner loop of `mkrn_yafs_read_file_data`; `false`: a block cannot be read. -/
def readExtent (device : Device) (lba : Nat) :
    Nat → Nat → ReadCursor → Except Fault (ReadCursor × Bool)
  | 0, _, cursor => return (cursor, true)
  | left + 1, bi, cursor =>
    if cursor.remaining = 0 then return (cursor, true)
    else do
      match ← dataRead device (lba + bi) with
      | none => return (cursor, false)
      | some bytes => readExtent device lba left (bi + 1) (cursor.take bytes)

/-- The outer loop of `mkrn_yafs_read_file_data`. -/
def readLoop (state : BtreeState) (inode : Nat) :
    Nat → ReadCursor → Except Fault (ReadCursor × Bool)
  | 0, _ => .error .outOfFuel
  | fuel + 1, cursor =>
    if cursor.remaining = 0 then return (cursor, true)
    else do
      match ← btreeLookup state.device state.rootLba (extentKey inode cursor.blockIdx) with
      | none => return (cursor, true)
      | some extent =>
        if extentLength extent = 0 then return (cursor, true)
        else do
          let (cursor, ok) ←
            readExtent state.device (extentLba extent) (extentLength extent) 0 cursor
          if ok = false then return (cursor, false) else readLoop state inode fuel cursor

variable (state : BtreeState)

/-- `mkrn_yafs_read_file_data`: the bytes read, and whether it returned 0. -/
def readFileData (inode offset size : Nat) :
    Except Fault (List UInt8 × Bool) :=
  if size = 0 then return ([], true)
  else if offset / dataBlockSize ≥ maxFileBlocks then return ([], true)
  else do
    let (cursor, ok) ← readLoop state inode (size + 1)
      ⟨size, offset / dataBlockSize, offset % dataBlockSize, []⟩
    return (cursor.out, ok)

/-- `mkrn_memcpy(block_buf + offset, chunk, ...)`. -/
def overlay (bytes : Nat → UInt8) (offset : Nat) (chunk : List UInt8) (index : Nat) : UInt8 :=
  if offset ≤ index ∧ index < offset + chunk.length then chunk.getD (index - offset) 0
  else bytes index

/-- What `mkrn_yafs_write_file_data` leaves behind: whether it returned 0, and
`*pWritten`. -/
structure WriteOut where
  state : BtreeState
  ok : Bool
  written : Nat

def extentBlock (found : Option Nat) : Option Nat :=
  match found with
  | some extent => if extentLength extent = 0 then none else some (extentLba extent)
  | none => none

/-- One chunk of `mkrn_yafs_write_file_data`; `true` when the loop goes on. -/
def writeChunk (inode blockIdx blockOff : Nat) (chunk : List UInt8) :
    Except Fault (BtreeState × Bool) := do
  let found ← btreeLookup state.device state.rootLba (extentKey inode blockIdx)
  match extentBlock found with
  | some lba =>
    -- A chunk that covers the block is written without reading it first.
    if blockOff = 0 ∧ chunk.length = dataBlockSize then
      let (device, written) := devWrite state.device lba (.data (overlay (fun _ => 0) 0 chunk))
      return (⟨device, state.rootLba⟩, written)
    else do
      match ← dataRead state.device lba with
      | none => return (state, false)
      | some bytes =>
        let (device, written) := devWrite state.device lba (.data (overlay bytes blockOff chunk))
        return (⟨device, state.rootLba⟩, written)
  | none =>
    let (device, lba) := devAllocBlock state.device
    if lba = 0 then return (⟨device, state.rootLba⟩, false)
    else
      match devWrite device lba (.data (overlay (fun _ => 0) blockOff chunk)) with
      | (device, false) => return (⟨devFreeBlock device lba, state.rootLba⟩, false)
      | (device, true) => do
        let out ← btreeInsert ⟨device, state.rootLba⟩ (extentKey inode blockIdx)
          (extentPack lba blocksPerExtent)
        if out.ok then return (out.state, true)
        else return (⟨devFreeBlock out.state.device lba, out.state.rootLba⟩, false)

/-- The loop of `mkrn_yafs_write_file_data`; `buf` is what is left to write. -/
def writeLoop (inode : Nat) : Nat → BtreeState → Nat → Nat → List UInt8 → Nat →
    Except Fault WriteOut
  | 0, _, _, _, _, _ => .error .outOfFuel
  | fuel + 1, state, blockIdx, blockOff, buf, written =>
    if buf.length = 0 then return ⟨state, true, written⟩
    else do
      let copy := min (dataBlockSize - blockOff) buf.length
      let (state, stored) ← writeChunk state inode blockIdx blockOff (buf.take copy)
      if stored = false then return ⟨state, false, written⟩
      else writeLoop inode fuel state (blockIdx + 1) 0 (buf.drop copy) (written + copy)

/-- The update of the inode record at the end of `mkrn_yafs_write_file_data`. -/
def growInode (inode newSize : Nat) : Except Fault BtreeState := do
  match ← btreeLookup state.device state.rootLba (inodeKey inode) with
  | none => return state
  | some lba =>
    match ← inodeRead state.device lba with
    | none => return state
    | some value =>
      let blocksNeeded := (newSize + dataBlockSize - 1) % 2 ^ 64 / dataBlockSize
      let value := { value with
        size := if newSize > value.size then newSize else value.size
        blocks := if blocksNeeded > value.blocks then blocksNeeded else value.blocks }
      let (device, _) := devWrite state.device lba (.inode value)
      return ⟨device, state.rootLba⟩

/-- `mkrn_yafs_write_file_data`; `u32Size` is the length of `buf`. -/
def writeFileData (inode : Nat) (buf : List UInt8) (offset : Nat) :
    Except Fault WriteOut :=
  if buf.length = 0 then return ⟨state, true, 0⟩
  else if offset / dataBlockSize ≥ maxFileBlocks then return ⟨state, true, 0⟩
  else do
    let out ← writeLoop inode (buf.length + 1) state (offset / dataBlockSize)
      (offset % dataBlockSize) buf 0
    if out.ok = false then return out
    else do
      let state ← growInode out.state inode ((offset + out.written) % 2 ^ 64)
      return ⟨state, true, out.written⟩

/-- The loop of `mkrn_yafs_truncate_inode` from block `blockIdx`. -/
def truncateLoop (inode : Nat) : Nat → BtreeState → Nat → Except Fault BtreeState
  | 0, state, _ => return state
  | remaining + 1, state, blockIdx => do
    match ← btreeLookup state.device state.rootLba (extentKey inode blockIdx) with
    | none => truncateLoop inode remaining state (blockIdx + 1)
    | some extent => do
      let device := devFreeBlock state.device (extentLba extent)
      let out ← btreeDelete ⟨device, state.rootLba⟩ (extentKey inode blockIdx)
      truncateLoop inode remaining out.state (blockIdx + 1)

def truncateInode (inode : Nat) : Except Fault (BtreeState × Bool) :=
  if inode = 0 then return (state, false)
  else do
    match ← btreeLookup state.device state.rootLba (inodeKey inode) with
    | none => return (state, false)
    | some lba =>
      match ← inodeRead state.device lba with
      | none => return (state, false)
      | some value =>
        if value.fileType ≠ ftRegFile then return (state, false)
        else do
          let state ← truncateLoop inode (min value.blocks maxFileBlocks) state 0
          let (device, written) :=
            devWrite state.device lba (.inode { value with size := 0, blocks := 0 })
          return (⟨device, state.rootLba⟩, written)

end M4KK1.Yafs
