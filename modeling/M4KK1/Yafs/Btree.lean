import M4KK1.Lib.CheckedArray

/-!
# The YAFS block device and its block images

`yafs_test.c` hands out no block twice; reading a block under another type is `badImage`.
-/

namespace M4KK1.Yafs

open Lib

def btreeMaxKeys : Nat := 248

def ramdiskBlocks : Nat := 4096

/-- `yafs_leaf_payload_t`, with one cell more for an entry before a split. -/
structure LeafPayload where
  keys : CArray Nat (btreeMaxKeys + 1)
  values : CArray Nat (btreeMaxKeys + 1)
  nextLeaf : Nat
  prevLeaf : Nat

/-- `yafs_internal_payload_t`. -/
structure InternalPayload where
  keys : CArray Nat (btreeMaxKeys + 1)
  children : CArray Nat (btreeMaxKeys + 2)

/-- The payload union of `yafs_node_t`, tagged by the `YAFS_NODE_LEAF` flag. -/
inductive Payload where
  | leaf (leaf : LeafPayload)
  | internal (internal : InternalPayload)

/-- `yafs_node_t`, with the header fields the B+tree code reads or copies. -/
structure Node where
  level : Nat
  entryCount : Nat
  payload : Payload

/-- `struct yafs_inode_value`; `name` is the C string held in `name[128]`. -/
structure InodeValue where
  size : Nat
  blocks : Nat
  uid : Nat
  gid : Nat
  mode : Nat
  fileType : Nat
  linkCount : Nat
  name : List UInt8
deriving DecidableEq

/-- The contents of one device block, under the type it was written with. -/
inductive Block where
  | zero
  | node (node : Node)
  | inode (value : InodeValue)
  | data (bytes : Nat → UInt8)

/-- The ramdisk with its bump allocator (`next_free_block`, `total_allocated`). -/
structure Device where
  blocks : Nat → Block
  nextFreeBlock : Nat
  totalAllocated : Nat

/-- `node_init` with the leaf flag: an empty leaf. -/
def emptyLeaf : LeafPayload := ⟨.fill 0, .fill 0, 0, 0⟩

/-- `node_init` without the leaf flag: an internal node with no separator. -/
def emptyInternal : InternalPayload := ⟨.fill 0, .fill 0⟩

/-- A block read as a `yafs_node_t`. The zero block has no leaf flag. -/
def Block.asNode : Block → Except Fault Node
  | .node image => .ok image
  | .zero => .ok ⟨0, 0, .internal emptyInternal⟩
  | .inode _ | .data _ => .error .badImage

/-- `mkrn_yafs_dev_read`: `none` is the return value -1. -/
def devRead (device : Device) (lba : Nat) : Option Block :=
  if lba ≥ ramdiskBlocks then none else some (device.blocks lba)

/-- `mkrn_yafs_dev_write`; the flag is `true` when the call returns 0. -/
def devWrite (device : Device) (lba : Nat) (block : Block) : Device × Bool :=
  if lba ≥ ramdiskBlocks then (device, false)
  else ({ device with blocks := Function.update device.blocks lba block }, true)

/-- `mkrn_yafs_dev_alloc_block`: the block number, or 0 when the ramdisk is used up. -/
def devAllocBlock (device : Device) : Device × Nat :=
  if device.nextFreeBlock ≥ ramdiskBlocks then (device, 0)
  else
    ({ blocks := Function.update device.blocks device.nextFreeBlock .zero
       nextFreeBlock := device.nextFreeBlock + 1
       totalAllocated := device.totalAllocated + 1 }, device.nextFreeBlock)

/-- `mkrn_yafs_dev_free_block`: the block itself is not made available again. -/
def devFreeBlock (device : Device) (_lba : Nat) : Device :=
  if device.totalAllocated > 0 then { device with totalAllocated := device.totalAllocated - 1 }
  else device

def nodeRead (device : Device) (lba : Nat) : Except Fault (Option Node) :=
  match devRead device lba with
  | none => .ok none
  | some block => do
    let node ← block.asNode
    return some node

/-- `mkrn_yafs_node_write`: the new block's number, or 0. -/
def nodeWrite (device : Device) (node : Node) : Device × Nat :=
  let (device, lba) := devAllocBlock device
  if lba = 0 then (device, 0)
  else
    match devWrite device lba (.node node) with
    | (device, true) => (device, lba)
    | (device, false) => (devFreeBlock device lba, 0)

end M4KK1.Yafs

/-!
## The copy-on-write B+tree of `btree.c`

The functions follow the C ones branch by branch. Array accesses go through
`CArray`, so an index past `keys[248]`, `values[248]` or `children[249]` ends the
call in `Fault.outOfBounds`. A node number 0 is the C code's failure value.

Recursions over the tree take an explicit bound. `btreeInsertNode` gets one more
than the number of device blocks; `Insert.lean` shows that the trees the code
builds never use it up.
-/

namespace M4KK1.Yafs

open Lib

/-- The loop of `key_search`. `lo` and `hi` are C `int`s; `hi` starts at -1 on an
empty node. -/
def keySearchLoop {size : Nat} (keys : CArray Nat size) (key : Nat) :
    Nat → Int → Int → Except Fault (Nat × Bool)
  | 0, _, _ => .error .outOfFuel
  | fuel + 1, lo, hi =>
    if lo ≤ hi then do
      let mid := lo + (hi - lo) / 2
      let probe ← keys.read mid.toNat
      if probe = key then return (mid.toNat, true)
      else if probe < key then keySearchLoop keys key fuel (mid + 1) hi
      else keySearchLoop keys key fuel lo (mid - 1)
    else return (lo.toNat, false)

/-- `key_search`: the position and the value left in `*pExact`. -/
def keySearch {size : Nat} (keys : CArray Nat size) (count key : Nat) :
    Except Fault (Nat × Bool) :=
  keySearchLoop keys key (count + 1) 0 ((count : Int) - 1)

def leafInsertAt (leaf : LeafPayload) (entryCount pos key value : Nat) :
    Except Fault LeafPayload := do
  let keys ← leaf.keys.shiftUp pos entryCount
  let values ← leaf.values.shiftUp pos entryCount
  let keys ← keys.write pos key
  let values ← values.write pos value
  return { leaf with keys, values }

/-- `internal_insert_at`: the child loop runs one cell above the key loop. -/
def internalInsertAt (internal : InternalPayload) (entryCount pos key child : Nat) :
    Except Fault InternalPayload := do
  let keys ← internal.keys.shiftUp pos entryCount
  let children ← internal.children.shiftUp (pos + 1) (entryCount + 1)
  let keys ← keys.write pos key
  let children ← children.write (pos + 1) child
  return { keys, children }

/-- The return value and the cells behind `pSplitKey`, `pSplitLba` and `pInserted`. -/
structure InsertOut where
  lba : Nat
  splitKey : Nat
  splitLba : Nat
  inserted : Bool
deriving DecidableEq

/-- The return value 0, on which every caller gives up. -/
def InsertOut.failed : InsertOut := ⟨0, 0, 0, false⟩

/-- The right node is written first, and given back when the left one cannot be written. -/
def writeHalves (device : Device) (left right : Node) (splitKey : Nat) (inserted : Bool) :
    Device × InsertOut :=
  let (device, rightLba) := nodeWrite device right
  if rightLba = 0 then (device, .failed)
  else
    let (device, leftLba) := nodeWrite device left
    if leftLba = 0 then (devFreeBlock device rightLba, .failed)
    else (device, ⟨leftLba, splitKey, rightLba, inserted⟩)

def writeWhole (device : Device) (node : Node) (inserted : Bool) : Device × InsertOut :=
  let (device, lba) := nodeWrite device node
  if lba = 0 then (device, .failed) else (device, ⟨lba, 0, 0, inserted⟩)

/-- The end of the leaf branch of `btree_insert_node`: split on overflow, or
write the one new leaf. -/
def leafStore (device : Device) (level : Nat) (leaf : LeafPayload) (entryCount : Nat)
    (inserted : Bool) : Except Fault (Device × InsertOut) :=
  if entryCount > btreeMaxKeys then do
    let mid := btreeMaxKeys / 2
    let moved := entryCount - mid
    let keys ← emptyLeaf.keys.copyFrom leaf.keys mid 0 moved
    let values ← emptyLeaf.values.copyFrom leaf.values mid 0 moved
    let splitKey ← keys.read 0
    return writeHalves device ⟨level, mid, .leaf leaf⟩
      ⟨0, moved, .leaf { emptyLeaf with keys, values }⟩ splitKey inserted
  else return writeWhole device ⟨level, entryCount, .leaf leaf⟩ inserted

/-- The end of the internal branch: the promoted separator leaves the node. -/
def internalStore (device : Device) (level : Nat) (internal : InternalPayload)
    (entryCount : Nat) (inserted : Bool) : Except Fault (Device × InsertOut) :=
  if entryCount > btreeMaxKeys then do
    let mid := btreeMaxKeys / 2
    let promoteKey ← internal.keys.read mid
    let moved := entryCount - mid - 1
    let keys ← emptyInternal.keys.copyFrom internal.keys (mid + 1) 0 moved
    let children ← emptyInternal.children.copyFrom internal.children (mid + 1) 0 (moved + 1)
    return writeHalves device ⟨level, mid, .internal internal⟩
      ⟨level, moved, .internal { keys, children }⟩ promoteKey inserted
  else return writeWhole device ⟨level, entryCount, .internal internal⟩ inserted

/-- `btree_insert_node`. An exact hit on a separator descends to its right. -/
def btreeInsertNode : Nat → Device → Nat → Nat → Nat → Except Fault (Device × InsertOut)
  | 0, _, _, _, _ => .error .outOfFuel
  | fuel + 1, device, nodeLba, key, value => do
    match ← nodeRead device nodeLba with
    | none => return (device, .failed)
    | some node =>
      match node.payload with
      | .leaf leaf => do
        let (pos, exact) ← keySearch leaf.keys node.entryCount key
        if exact then do
          let values ← leaf.values.write pos value
          leafStore device node.level { leaf with values } node.entryCount false
        else do
          let leaf ← leafInsertAt leaf node.entryCount pos key value
          leafStore device node.level leaf (node.entryCount + 1) true
      | .internal internal => do
        let (pos, exact) ← keySearch internal.keys node.entryCount key
        let ci := if exact then pos + 1 else pos
        let childLba ← internal.children.read ci
        let (device, child) ← btreeInsertNode fuel device childLba key value
        if child.lba = 0 then return (device, .failed)
        else do
          let children ← internal.children.write ci child.lba
          if child.splitLba ≠ 0 then do
            let internal ← internalInsertAt { internal with children } node.entryCount ci
              child.splitKey child.splitLba
            internalStore device node.level internal (node.entryCount + 1) child.inserted
          else
            internalStore device node.level { internal with children } node.entryCount
              child.inserted

/-- The loop of `mkrn_yafs_btree_lookup`; `seen` are the visited nodes, newest first; `none` is -1.
-/
def btreeLookupLoop (device : Device) (key : Nat) :
    Nat → List Nat → Nat → Except Fault (Option Nat)
  | 0, _, _ => .error .outOfFuel
  | fuel + 1, seen, current =>
    if current ∈ seen ∨ seen.length ≥ 64 then return none
    else do
      match ← nodeRead device current with
      | none => return none
      | some node =>
        match node.payload with
        | .leaf leaf => do
          let (pos, exact) ← keySearch leaf.keys node.entryCount key
          if exact then do
            let value ← leaf.values.read pos
            return some value
          else return none
        | .internal internal => do
          let (pos, exact) ← keySearch internal.keys node.entryCount key
          let child ← internal.children.read (if exact then pos + 1 else pos)
          btreeLookupLoop device key fuel (current :: seen) child

/-- `mkrn_yafs_btree_lookup`: the value, or `none` for the return value -1. -/
def btreeLookup (device : Device) (rootLba key : Nat) : Except Fault (Option Nat) :=
  if rootLba = 0 then return none
  else btreeLookupLoop device key 65 [] rootLba

/-- The state a caller of the B+tree owns: the device and `*pRootLba`. -/
structure BtreeState where
  device : Device
  rootLba : Nat

/-- Whether a call returned 0, and the value it stored in `*pInserted` or `*pDeleted`. -/
structure CallOut where
  state : BtreeState
  ok : Bool
  flag : Option Bool

def btreeInsert (state : BtreeState) (key value : Nat) : Except Fault CallOut :=
  if state.rootLba = 0 then do
    let keys ← emptyLeaf.keys.write 0 key
    let values ← emptyLeaf.values.write 0 value
    let (device, lba) := nodeWrite state.device ⟨0, 1, .leaf { emptyLeaf with keys, values }⟩
    if lba = 0 then return ⟨⟨device, 0⟩, false, none⟩
    else return ⟨⟨device, lba⟩, true, some true⟩
  else do
    let (device, out) ← btreeInsertNode (ramdiskBlocks + 1) state.device state.rootLba key value
    if out.lba = 0 then return ⟨⟨device, state.rootLba⟩, false, none⟩
    else if out.splitLba ≠ 0 then do
      let children ← emptyInternal.children.write 0 out.lba
      let keys ← emptyInternal.keys.write 0 out.splitKey
      let children ← children.write 1 out.splitLba
      let (device, superRoot) := nodeWrite device ⟨1, 1, .internal { keys, children }⟩
      if superRoot = 0 then
        return ⟨⟨devFreeBlock (devFreeBlock device out.lba) out.splitLba, state.rootLba⟩,
          false, none⟩
      else return ⟨⟨device, superRoot⟩, true, some out.inserted⟩
    else return ⟨⟨device, out.lba⟩, true, some out.inserted⟩

/-- `YAFS_BTREE_MAX_DEPTH`, the length of the `path` array of the delete. -/
def btreeMaxDepth : Nat := 32

/-- The descent of `mkrn_yafs_btree_delete`: the leaf and the `path` above it. -/
def deleteDescend (device : Device) (key : Nat) :
    Nat → List (Nat × Nat) → Nat → Except Fault (Option (Nat × List (Nat × Nat)))
  | 0, _, _ => .error .outOfFuel
  | fuel + 1, path, current => do
    match ← nodeRead device current with
    | none => return none
    | some node =>
      match node.payload with
      | .leaf _ => return some (current, path)
      | .internal internal => do
        let (pos, exact) ← keySearch internal.keys node.entryCount key
        let ci := if exact then pos + 1 else pos
        let child ← internal.children.read ci
        if path.length + 1 ≥ btreeMaxDepth then return none
        else deleteDescend device key fuel ((current, ci) :: path) child

/-- The climb of `mkrn_yafs_btree_delete`: the new root, 0 after a failed write. -/
def deleteClimb : Device → List (Nat × Nat) → Nat → Except Fault (Device × Nat)
  | device, [], childLba => return (device, childLba)
  | device, (lba, ci) :: path, childLba => do
    match ← nodeRead device lba with
    | none => return (devFreeBlock device childLba, 0)
    | some parent =>
      match parent.payload with
      | .leaf _ => .error .badImage
      | .internal internal => do
        let children ← internal.children.write ci childLba
        let (device, parentLba) :=
          nodeWrite device { parent with payload := .internal { internal with children } }
        if parentLba = 0 then return (devFreeBlock device childLba, 0)
        else deleteClimb device path parentLba

def btreeDelete (state : BtreeState) (key : Nat) : Except Fault CallOut :=
  if state.rootLba = 0 then return ⟨state, false, some false⟩
  else do
    match ← nodeRead state.device state.rootLba with
    | none => return ⟨state, false, some false⟩
    | some _ =>
      match ← deleteDescend state.device key (btreeMaxDepth + 1) [] state.rootLba with
      | none => return ⟨state, false, some false⟩
      | some (leafLba, path) =>
        match ← nodeRead state.device leafLba with
        | none => return ⟨state, false, some false⟩
        | some node =>
          match node.payload with
          | .internal _ => .error .badImage
          | .leaf leaf => do
            let (pos, exact) ← keySearch leaf.keys node.entryCount key
            if exact then do
              let keys ← leaf.keys.shiftDown pos (node.entryCount - 1 - pos)
              let values ← leaf.values.shiftDown pos (node.entryCount - 1 - pos)
              let (device, childLba) := nodeWrite state.device
                ⟨node.level, node.entryCount - 1, .leaf { leaf with keys, values }⟩
              if childLba = 0 then return ⟨⟨device, state.rootLba⟩, false, some false⟩
              else do
                let (device, newRoot) ← deleteClimb device path childLba
                if newRoot = 0 then return ⟨⟨device, state.rootLba⟩, false, some false⟩
                else return ⟨⟨device, newRoot⟩, true, some true⟩
            else return ⟨state, true, some false⟩

end M4KK1.Yafs
