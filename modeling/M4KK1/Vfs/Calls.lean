import M4KK1.Yafs.FileData
import M4KK1.Yafs.BtreeRuns

/-!
# The YAFS calls of `vfs.c`

Each call splits its path at the last slash, and a NULL path is `none`.
-/

namespace M4KK1.Vfs

open Lib Yafs

/-- `root_yafs_tree`, `u64VfsNextIno`, `bVfsInitialized` and the device behind them. -/
structure State where
  yafs : BtreeState
  nextIno : Nat
  initialized : Bool

/-- `split_parent_name` with a parent buffer of 256 bytes; `none` is -1. -/
def splitParentName (path : CString) : Option (CString × CString) :=
  if path = [] then none
  else
    match strrchrY slash path with
    | none => some (cstr "/", path)
    | some rest =>
      let plen := path.length - rest.length
      if plen = 0 then some (cstr "/", rest.drop 1)
      else if plen ≥ 256 then none
      else some (path.take plen, rest.drop 1)

variable (state : State) (path : Option CString)

/-- The directory's inode number and the name, or `none` for a return of -1 here. -/
def parentOf : Except Fault (Option (Nat × CString)) :=
  match path with
  | none => return none
  | some path =>
    if state.initialized = false ∨ state.yafs.rootLba = 0 then return none
    else
      match splitParentName path with
      | none => return none
      | some (parentPath, name) => do
        let parent ← lookupPath state.yafs.device state.yafs.rootLba parentPath
        if parent = 0 then return none else return some (parent, name)

/-- `u64VfsNextIno++`. -/
def State.takeIno : State := { state with nextIno := (state.nextIno + 1) % 2 ^ 64 }

/-- `mkrn_vfs_mkdir`. The existence check passes NULL for the inode number it asks
for. -/
def mkdir : Except Fault (State × Bool) := do
  match ← parentOf state path with
  | none => return (state, false)
  | some (parent, name) =>
    match ← yafsLookupName state.yafs.device state.yafs.rootLba parent name false with
    | some _ => return (state, false)
    | none => do
      let (yafs, made) ← yafsMkdir state.yafs parent name state.nextIno
      return ({ state.takeIno with yafs }, made)

def unlink : Except Fault (State × Bool) := do
  match ← parentOf state path with
  | none => return (state, false)
  | some (parent, name) => do
    let (yafs, removed) ← yafsUnlink state.yafs parent name
    return ({ state with yafs }, removed)

def rmdir : Except Fault (State × Bool) :=
  unlink state path

def rename (oldPath newPath : Option CString) : Except Fault (State × Bool) := do
  match ← parentOf state oldPath, ← parentOf state newPath with
  | some (oldParent, oldName), some (newParent, newName) => do
    let (yafs, renamed) ← yafsRename state.yafs oldParent oldName newParent newName
    return ({ state with yafs }, renamed)
  | _, _ => return (state, false)

/-- `M4K_IRUSR | M4K_IWUSR | M4K_IRGRP | M4K_IROTH`. -/
def newFileMode : Nat := 0x0100 ||| 0x0080 ||| 0x0020 ||| 0x0004

/-- The part of `mkrn_vfs_create_file_yafs` after the checks. -/
def storeNewFile (yafs : BtreeState) (parent : Nat) (name : CString) (ino : Nat) :
    Except Fault (BtreeState × Bool) :=
  let (device, lba) := devAllocBlock yafs.device
  if lba = 0 then return (⟨device, yafs.rootLba⟩, false)
  else
    match devWrite device lba (.inode ⟨0, 0, 0, 0, newFileMode, ftRegFile, 1, inodeName name⟩) with
    | (device, false) => return (⟨device, yafs.rootLba⟩, false)
    | (device, true) => do
      let out ← btreeInsert ⟨device, yafs.rootLba⟩ (inodeKey ino) lba
      if out.ok = false then
        return (⟨devFreeBlock out.state.device lba, out.state.rootLba⟩, false)
      else do
        let out ← btreeInsert out.state (dirEntryKey parent name) ino
        if out.ok = false ∨ out.flag ≠ some true then do
          let out ← btreeDelete out.state (inodeKey ino)
          return (⟨devFreeBlock out.state.device lba, out.state.rootLba⟩, false)
        else return (out.state, true)

def createFileYafs : Except Fault (State × Bool) := do
  match ← parentOf state path with
  | none => return (state, false)
  | some (parent, name) =>
    match ← yafsLookupName state.yafs.device state.yafs.rootLba parent name true with
    | some _ => return (state, false)
    | none => do
      let (yafs, made) ← storeNewFile state.yafs parent name state.nextIno
      return ({ state.takeIno with yafs }, made)

/-- The YAFS branch of `mkrn_vfs_write` on a descriptor of `inode` at `offset`. -/
def writeFile (inode : Nat) (buf : List UInt8) (offset : Nat) :
    Except Fault (State × Bool) :=
  if state.initialized = false ∨ inode = 0 ∨ state.yafs.rootLba = 0 then return (state, false)
  else do
    let out ← writeFileData state.yafs inode buf offset
    return ({ state with yafs := out.state }, out.ok)

/-- The `M4K_O_TRUNC` branch of `mkrn_vfs_open` on an existing path. -/
def truncate (inode : Nat) : Except Fault (State × Bool) :=
  if state.initialized = false ∨ state.yafs.rootLba = 0 then return (state, false)
  else do
    let (yafs, truncated) ← truncateInode state.yafs inode
    return ({ state with yafs }, truncated)

/-- `read_inode_raw`: the block of the record with what it holds. -/
def readInodeRaw (yafs : BtreeState) (inodeNr : Nat) : Except Fault (Option (Nat × InodeValue)) :=
  do
  match ← btreeLookup yafs.device yafs.rootLba (inodeKey inodeNr) with
  | none => return none
  | some lba =>
    match ← inodeRead yafs.device lba with
    | none => return none
    | some value => return some (lba, value)

/-- `read_inode_raw`, a check, and `write_inode_raw` of the edited record. -/
def editInode (allowed : InodeValue → Bool)
    (edit : InodeValue → InodeValue) : Except Fault (State × Bool) :=
  match path with
  | none => return (state, false)
  | some path =>
    if state.yafs.rootLba = 0 then return (state, false)
    else do
      let inodeNr ← lookupPath state.yafs.device state.yafs.rootLba path
      if inodeNr = 0 then return (state, false)
      else do
        match ← readInodeRaw state.yafs inodeNr with
        | none => return (state, false)
        | some (lba, value) =>
          if allowed value = false then return (state, false)
          else
            let (device, written) := devWrite state.yafs.device lba (.inode (edit value))
            return ({ state with yafs := ⟨device, state.yafs.rootLba⟩ }, written)

/-- `mkrn_vfs_chmod`; `euid` is that of the current process, if there is one. -/
def chmod (euid : Option Nat) (path : Option CString) (mode : Nat) :
    Except Fault (State × Bool) :=
  editInode state path
    (fun value => euid.all fun euid => euid = 0 ∨ euid = value.uid)
    (fun value => { value with mode := value.mode / 2 ^ 16 * 2 ^ 16 ||| (mode &&& 0xFFFF) })

/-- `mkrn_vfs_chown`: only root may change the owner. -/
def chown (euid : Option Nat) (path : Option CString) (uid gid : Nat) :
    Except Fault (State × Bool) :=
  editInode state path (fun _ => euid.all fun euid => euid = 0)
    (fun value => { value with uid, gid })

/-- The calls of `mkrn_yafs_test` on the tree. -/
def yafsTestOps : List Op :=
  let hello := dirEntryKey 1 (cstr "hello")
  let world := dirEntryKey 1 (cstr "world")
  let test := dirEntryKey 1 (cstr "test")
  [.insert hello 100, .insert world 200, .insert test 300, .insert (inodeKey 1) 0xABC0,
    .insert (extentKey 1 0) (extentPack 500 16), .insert hello 999, .delete world,
    .delete hello, .delete test, .delete (inodeKey 1), .delete (extentKey 1 0)]

/-- `mkrn_yafs_test` over a ramdisk of `blocks`. -/
def yafsTest (blocks : Nat → Block) : Except Fault BtreeState :=
  yafsTestOps.foldlM
    (fun state op => do
      let out ← runOp state op
      return out.state)
    ⟨⟨blocks, 3, 0⟩, 0⟩

/-- The mount of the root filesystem in `kmain`. -/
def boot (blocks : Nat → Block) : Except Fault State := do
  let yafs ← yafsTest blocks
  let (yafs, built) ← createFhs yafs
  if built then return ⟨yafs, 1000, true⟩
  else return ⟨⟨yafs.device, 0⟩, 1000, true⟩

end M4KK1.Vfs
