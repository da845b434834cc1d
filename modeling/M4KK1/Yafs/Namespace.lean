import M4KK1.Yafs.Keys
import M4KK1.Yafs.Walk

/-!
# Directories, paths and the initial tree of `yafs_vfs.c`

`false` is -1 and inode number 0 nothing; a step that fails leaves what the code would.
-/

namespace M4KK1.Yafs

open Lib

/-- The bytes of a C string before its NUL. -/
abbrev CString := List UInt8

def cstr (text : String) : CString := text.toList.map fun char => UInt8.ofNat char.toNat

def ftRegFile : Nat := 1

def ftDir : Nat := 2

def ftSymlink : Nat := 3

/-- What `mkrn_strncpy` and the terminating NUL leave in `name[128]`. -/
def inodeName (name : CString) : CString := name.take 127

/-- A block read as a `struct yafs_inode_value`. -/
def Block.asInode : Block → Except Fault InodeValue
  | .inode value => .ok value
  | .zero => .ok ⟨0, 0, 0, 0, 0, 0, 0, []⟩
  | .node _ | .data _ => .error .badImage

variable (device : Device)

/-- `mkrn_yafs_dev_read` into a buffer that is used as an inode record. -/
def inodeRead (lba : Nat) : Except Fault (Option InodeValue) :=
  match devRead device lba with
  | none => .ok none
  | some block => do
    let value ← block.asInode
    return some value

variable (state : BtreeState)

def createInode (inodeNr fileType : Nat) (name : CString) :
    Except Fault (BtreeState × Bool) :=
  let (device, lba) := devAllocBlock state.device
  if lba = 0 then return (⟨device, state.rootLba⟩, false)
  else
    match devWrite device lba (.inode ⟨0, 0, 0, 0, 0, fileType, 1, inodeName name⟩) with
    | (device, false) => return (⟨devFreeBlock device lba, state.rootLba⟩, false)
    | (device, true) => do
      let out ← btreeInsert ⟨device, state.rootLba⟩ (inodeKey inodeNr) lba
      if out.ok then return (out.state, true)
      else return (⟨devFreeBlock out.state.device lba, out.state.rootLba⟩, false)

variable (parent : Nat)

/-- `create_link`. The entry is written before `*pInserted` is looked at. -/
def createLink (name : CString) (child : Nat) :
    Except Fault (BtreeState × Bool) := do
  let out ← btreeInsert state (dirEntryKey parent name) child
  if out.ok = false then return (out.state, false)
  else if out.flag ≠ some true then return (out.state, false)
  else return (out.state, true)

/-- `parent_cb`; the context is `parent_inode`. -/
def parentCb (child : Nat) : WalkCallback Nat := fun key value parent =>
  if keyTag key ≠ ksDirEntry then (parent, false)
  else if value = child then (keyValue key >>> 16, true)
  else (parent, false)

def lookupParent (rootTree child : Nat) : Except Fault Nat :=
  if child = 0 then return 0
  else if child = 1 then return 1
  else do
    let (parent, _) ← btreeWalkRange device rootTree (makeKey ksDirEntry 0)
      (makeKey (ksDirEntry + 1) 0) (parentCb child) 0
    return parent

def lookupName (rootTree parent : Nat) (name : CString) : Except Fault Nat := do
  match ← btreeLookup device rootTree (dirEntryKey parent name) with
  | some value => return value
  | none => return 0

/-- `mkrn_yafs_lookup_name`; `wanted`: `pChildInode` is not NULL. -/
def yafsLookupName (rootTree dir : Nat) (name : CString) (wanted : Bool) :
    Except Fault (Option Nat) :=
  if wanted = false then return none
  else do
    let inode ← lookupName device rootTree dir name
    if inode = 0 then return none else return some inode

/-- The byte `'/'`. -/
def slash : UInt8 := 47

/-- `strchr_y`: the rest of the string from the first `c`, if there is one. -/
def strchrY (c : UInt8) : CString → Option CString
  | [] => none
  | byte :: rest => if byte = c then some (byte :: rest) else strchrY c rest

/-- The loop of `lookup_path` over the two lookups it makes; `p` is the unread rest. -/
def lookupPathLoop (name : Nat → CString → Except Fault Nat) (parent : Nat → Except Fault Nat) :
    Nat → Nat → CString → Except Fault Nat
  | 0, _, _ => .error .outOfFuel
  | fuel + 1, inode, p =>
    match strchrY slash p with
    | some rest =>
      let plen := p.length - rest.length
      if plen = 0 then lookupPathLoop name parent fuel inode (p.drop 1)
      else
        -- The component buffer holds 255 bytes and the NUL.
        let comp := p.take (min plen 255)
        if comp = cstr "." then lookupPathLoop name parent fuel inode (rest.drop 1)
        else if comp = cstr ".." then do
          let inode ← parent inode
          if inode = 0 then return 0
          else lookupPathLoop name parent fuel inode (rest.drop 1)
        else do
          let inode ← name inode comp
          if inode = 0 then return 0
          else lookupPathLoop name parent fuel inode (rest.drop 1)
    | none =>
      if p = [] then return inode
      else if p = cstr "." then return inode
      else if p = cstr ".." then parent inode
      else name inode p

def lookupPath (rootTree : Nat) (path : CString) : Except Fault Nat :=
  if path = [] then return 1
  else
    lookupPathLoop (lookupName device rootTree) (lookupParent device rootTree) (path.length + 1) 1
      path

/-- The record's block and the inode key go, whatever the delete returns. -/
def mkdirRollback (inodeNr : Nat) : Except Fault BtreeState := do
  let found ← btreeLookup state.device state.rootLba (inodeKey inodeNr)
  let device := match found with
    | some lba => devFreeBlock state.device lba
    | none => state.device
  let out ← btreeDelete ⟨device, state.rootLba⟩ (inodeKey inodeNr)
  return out.state

def yafsMkdir (name : CString) (inodeNr : Nat) :
    Except Fault (BtreeState × Bool) := do
  let (state, created) ← createInode state inodeNr ftDir name
  if created = false then return (state, false)
  else do
    let (state, linked) ← createLink state parent name inodeNr
    if linked then return (state, true)
    else do
      let state ← mkdirRollback state inodeNr
      return (state, false)

def yafsUnlink (name : CString) :
    Except Fault (BtreeState × Bool) := do
  let out ← btreeDelete state (dirEntryKey parent name)
  if out.ok = false then return (out.state, false)
  else return (out.state, out.flag = some true)

/-- The end of `mkrn_yafs_rename`: the name in the inode record. -/
def renameInode (child : Nat) (newName : CString) :
    Except Fault BtreeState := do
  match ← btreeLookup state.device state.rootLba (inodeKey child) with
  | none => return state
  | some lba =>
    match ← inodeRead state.device lba with
    | none => return state
    | some value =>
      let (device, _) := devWrite state.device lba (.inode { value with name := inodeName newName })
      return ⟨device, state.rootLba⟩

def yafsRename (oldParent : Nat) (oldName : CString) (newParent : Nat)
    (newName : CString) : Except Fault (BtreeState × Bool) := do
  let child ← lookupName state.device state.rootLba oldParent oldName
  if child = 0 then return (state, false)
  else do
    let out ← btreeInsert state (dirEntryKey newParent newName) child
    if out.ok = false then return (out.state, false)
    else if out.flag ≠ some true then return (out.state, false)
    else do
      let out ← btreeDelete out.state (dirEntryKey oldParent oldName)
      if out.ok = false ∨ out.flag ≠ some true then return (out.state, false)
      else do
        let state ← renameInode out.state child newName
        return (state, true)

structure FhsEntry where
  path : CString
  type : Nat
  target : Option CString

/-- A directory of the initial tree. -/
def fhsDir (path : String) : FhsEntry := ⟨cstr path, ftDir, none⟩

/-- A regular file of the initial tree. -/
def fhsFile (path : String) : FhsEntry := ⟨cstr path, ftRegFile, none⟩

/-- A symbolic link of the initial tree. -/
def fhsLink (path target : String) : FhsEntry := ⟨cstr path, ftSymlink, some (cstr target)⟩

def fhsTree : List FhsEntry :=
  [fhsLink "bin" "/usr/bin", fhsLink "boot" "/sys/boot", fhsDir "dev", fhsDir "devices",
    fhsDir "etc", fhsDir "export", fhsLink "home" "/export/home", fhsDir "lib", fhsDir "mnt",
    fhsDir "opt", fhsLink "root" "/export/root", fhsDir "sbin", fhsDir "sys", fhsDir "tmp",
    fhsDir "usr", fhsDir "var", fhsDir "dev/dsk", fhsDir "dev/rdsk", fhsDir "devices/fd",
    fhsDir "export/cfg", fhsDir "export/home", fhsDir "export/PATH", fhsDir "export/root",
    fhsDir "mnt/media", fhsDir "sys/proc", fhsDir "sys/srv", fhsDir "sys/boot",
    fhsDir "sys/boot/kernel", fhsDir "sys/boot/efi", fhsDir "sys/boot/grub",
    fhsDir "sys/boot/initrd", fhsDir "sys/boot/firmware", fhsFile "sys/boot/kernel/genunix",
    fhsDir "sys/boot/kernel/arch", fhsDir "sys/boot/kernel/fs", fhsDir "sys/boot/kernel/drv",
    fhsDir "sys/boot/kernel/misc", fhsDir "sys/boot/kernel/arch/amd64",
    fhsDir "sys/boot/kernel/arch/i386", fhsFile "sys/boot/kernel/fs/yafs.ko",
    fhsFile "sys/boot/kernel/fs/tmpfs.ko", fhsFile "sys/boot/kernel/drv/virtio_blk.ko",
    fhsFile "sys/boot/kernel/drv/e1000.ko", fhsFile "sys/boot/kernel/misc/aes_x86_64.ko",
    fhsFile "sys/boot/efi/bootx64.efi", fhsFile "sys/boot/efi/bootia32.efi",
    fhsDir "sys/boot/efi/fonts", fhsFile "sys/boot/grub/grub.cfg", fhsDir "sys/boot/grub/locale",
    fhsDir "sys/boot/grub/themes", fhsFile "sys/boot/initrd/initrd.img",
    fhsFile "sys/boot/firmware/intel-ucode.img", fhsDir "usr/bin", fhsDir "usr/include",
    fhsDir "usr/lib", fhsDir "usr/libexec", fhsDir "usr/local", fhsDir "usr/sbin",
    fhsDir "usr/share", fhsDir "var/run", fhsDir "var/tmp"]

/-- `strrchr_y`: the rest of the string from the last `c`, if there is one. -/
def strrchrY (c : UInt8) : CString → Option CString
  | [] => none
  | byte :: rest =>
    match strrchrY c rest with
    | some found => some found
    | none => if byte = c then some (byte :: rest) else none

/-- The text before the last slash, if any, and the name behind it. -/
def fhsSplit (path : CString) : CString × CString :=
  match strrchrY slash path with
  | some rest => (path.take (min (path.length - rest.length) 255), rest.drop 1)
  | none => ([], path)

/-- One round of the loop of `mkrn_yafs_create_fhs`. -/
def createFhsEntry (inode : Nat) (entry : FhsEntry) :
    Except Fault (BtreeState × Bool) := do
  let (parentPath, name) := fhsSplit entry.path
  -- The empty path resolves to the root, as `u64Parent = 1` does.
  let parent ← lookupPath state.device state.rootLba parentPath
  if parent = 0 then return (state, false)
  else do
    let label := if entry.type = ftSymlink then entry.target.getD name else name
    let (state, created) ← createInode state inode entry.type label
    if created = false then return (state, false)
    else createLink state parent name inode

/-- The loop of `mkrn_yafs_create_fhs`. -/
def createFhsLoop : BtreeState → Nat → List FhsEntry → Except Fault (BtreeState × Bool)
  | state, _, [] => return (state, true)
  | state, inode, entry :: rest => do
    let (state, added) ← createFhsEntry state inode entry
    if added = false then return (state, false)
    else createFhsLoop state (inode + 1) rest

/-- `mkrn_yafs_create_fhs`: on failure `*pRootLba` keeps its old value. -/
def createFhs : Except Fault (BtreeState × Bool) := do
  let (tree, created) ← createInode state 1 ftDir (cstr "/")
  if created = false then return (⟨tree.device, state.rootLba⟩, false)
  else do
    let (tree, built) ← createFhsLoop tree 2 fhsTree
    if built then return (tree, true)
    else return (⟨tree.device, state.rootLba⟩, false)

end M4KK1.Yafs
