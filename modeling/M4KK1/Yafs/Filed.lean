import M4KK1.Yafs.BtreeCalls
import M4KK1.Yafs.Keys

/-!
# What an insert costs

The number of blocks depends only on the nodes of the tree.
-/

namespace M4KK1.Yafs

open Function Lib

/-- The levels above the leaves of the tree at `lba`, read along its first children. -/
def treeHeight (device : Device) : Nat → Nat → Nat
  | 0, _ => 0
  | fuel + 1, lba =>
    match device.blocks lba with
    | .node ⟨_, _, .internal internal⟩ => treeHeight device fuel (internal.children.cell 0) + 1
    | _ => 0

def btreeHeight (state : BtreeState) : Nat :=
  if state.rootLba = 0 then 0 else treeHeight state.device btreeMaxDepth state.rootLba

/-- The blocks `mkrn_yafs_dev_alloc_block` can still hand out. -/
def freeBlocks (device : Device) : Nat := ramdiskBlocks - device.nextFreeBlock

variable {lba : Nat}

theorem IsTree.treeHeight_eq {device : Device} {height lo hi : Nat}
    (tree : IsTree device height lo hi lba) {fuel : Nat} (enough : height < fuel) :
    treeHeight device fuel lba = height := by
  induction tree generalizing fuel with
  | leaf image =>
    obtain ⟨fuel, rfl⟩ := Nat.exists_eq_succ_of_ne_zero (Nat.ne_zero_of_lt enough)
    simp [treeHeight, image]
  | internal image _ _ _ _ _ _ _ ih =>
    obtain ⟨fuel, rfl⟩ := Nat.exists_eq_succ_of_ne_zero (Nat.ne_zero_of_lt enough)
    simp only [treeHeight, image]
    rw [ih 0 (Nat.zero_le _) (Nat.lt_of_succ_lt_succ enough)]

theorem Represents.btreeHeight_eq {state : BtreeState} {height : Nat}
    {bindings : Nat → Option Nat} (rep : Represents state height bindings) :
    btreeHeight state = height := by
  have shallow := rep.shallow
  unfold btreeHeight
  cases rep.holds with
  | empty noRoot => rw [if_pos noRoot]
  | tree isTree filled =>
    rw [if_neg (Nat.ne_of_gt isTree.positive), isTree.treeHeight_eq shallow]

theorem IsTree.entryCountAt_frame {before after : Device} {height lo hi : Nat}
    (keeps : KeepsNodes before after) (tree : IsTree before height lo hi lba) :
    entryCountAt after lba = entryCountAt before lba := by
  cases tree with
  | leaf image _ allocated =>
    rw [entryCountAt_eq image, entryCountAt_eq (keeps.kept _ _ allocated image)]
  | internal image _ allocated =>
    rw [entryCountAt_eq image, entryCountAt_eq (keeps.kept _ _ allocated image)]

theorem IsTree.insert_frame {before after : Device} {height lo hi : Nat}
    (keeps : KeepsNodes before after) (tree : IsTree before height lo hi lba) (key : Nat) :
    insertCount after height lba key = insertCount before height lba key ∧
      insertWrites after height lba key = insertWrites before height lba key := by
  induction tree with
  | @leaf _ _ lba _ _ _ image positive allocated bounded sorted range =>
    have whole := IsTree.leaf image positive allocated bounded sorted range
    have counts : insertCount after 0 lba key = insertCount before 0 lba key := by
      simp only [insertCount, whole.treeGet_frame keeps key, whole.entryCountAt_frame keeps]
    exact ⟨counts, by simp only [insertWrites, counts]⟩
  | @internal height _ _ lba _ _ _ image positive allocated bounded sorted range ordered subtrees
      ih =>
    have whole := IsTree.internal image positive allocated bounded sorted range ordered subtrees
    have below := ih _ (isSlot_slotOf sorted key).le_count
    have child := (childFor_eq image key).symm
    have childAfter := (childFor_eq (keeps.kept _ _ allocated image) key).trans child
    rw [child] at below
    have counts : insertCount after (height + 1) lba key =
        insertCount before (height + 1) lba key := by
      simp only [insertCount, childAfter, below.1, whole.entryCountAt_frame keeps]
    exact ⟨counts, by simp only [insertWrites, childAfter, below.2, counts]⟩

theorem IsTree.insert_bound {device : Device} {height lo hi key : Nat}
    (tree : IsTree device height lo hi lba) (bound : treeGet device height lba key ≠ none) :
    insertCount device height lba key = entryCountAt device lba ∧
    entryCountAt device lba ≤ btreeMaxKeys ∧
      insertWrites device height lba key = height + 1 := by
  induction tree with
  | @leaf _ _ lba _ _ _ image positive allocated bounded sorted range =>
    have present := Option.isSome_iff_ne_none.mpr bound
    have fits := entryCountAt_eq image
    simp only at fits
    have counts : insertCount device 0 lba key = entryCountAt device lba := if_pos present
    refine ⟨counts, by omega, ?_⟩
    simp only [insertWrites, counts, storeWrites]
    exact if_neg (by omega)
  | @internal height _ _ lba _ _ _ image positive allocated bounded sorted range ordered subtrees
      ih =>
    rw [treeGet_internal image] at bound
    obtain ⟨childCount, childFits, childWrites⟩ :=
      ih _ (isSlot_slotOf sorted key).le_count bound
    rw [← childFor_eq image key] at childCount childFits childWrites
    have fits := entryCountAt_eq image
    simp only at fits
    have counts : insertCount device (height + 1) lba key = entryCountAt device lba :=
      if_neg (by omega)
    refine ⟨counts, by omega, ?_⟩
    simp only [insertWrites, counts, storeWrites, childWrites]
    rw [if_neg (by omega)]

variable {state : BtreeState} {height : Nat} {bindings : Nat → Option Nat}

theorem Represents.insertCost_frame {after : Device} (rep : Represents state height bindings)
    (keeps : KeepsNodes state.device after) (key : Nat) :
    insertCost ⟨after, state.rootLba⟩ height key = insertCost state height key ∧
      insertHeight ⟨after, state.rootLba⟩ height key = insertHeight state height key := by
  cases rep.holds with
  | empty noRoot => simp [insertCost, insertHeight, rootSplits, noRoot]
  | tree isTree filled =>
    obtain ⟨counts, writes⟩ := isTree.insert_frame keeps key
    simp only [insertCost, insertHeight, rootSplits, counts, writes]
    exact ⟨rfl, rfl⟩

theorem Represents.insertCost_bound {key : Nat} (rep : Represents state height bindings)
    (bound : bindings key ≠ none) :
    insertCost state height key = height + 1 ∧ insertHeight state height key = height := by
  cases rep.holds with
  | empty noRoot => exact absurd rfl bound
  | tree isTree filled =>
    obtain ⟨counts, fits, writes⟩ := isTree.insert_bound bound
    have whole : ¬ rootSplits state height key := by
      rintro ⟨_, splits⟩
      omega
    unfold insertCost insertHeight
    rw [if_neg whole, if_neg whole, if_neg (Nat.ne_of_gt isTree.positive), writes]
    exact ⟨rfl, rfl⟩

theorem Represents.insertCost_small (rep : Represents state 0 bindings)
    (few : state.device.nextFreeBlock ≤ btreeMaxKeys + 2) (key : Nat) :
    insertCost state 0 key = 1 ∧ insertHeight state 0 key = 0 := by
  cases rep.holds with
  | empty noRoot => simp [insertCost, insertHeight, rootSplits, noRoot]
  | tree isTree filled =>
    have room : insertCount state.device 0 state.rootLba key ≤ btreeMaxKeys := by
      simp only [insertCount]
      split <;> omega
    have whole : ¬ rootSplits state 0 key := by
      rintro ⟨_, splits⟩
      omega
    have oneWrite : insertWrites state.device 0 state.rootLba key = 1 := if_neg (by omega)
    unfold insertCost insertHeight
    simp only [whole, if_false, Nat.ne_of_gt isTree.positive, oneWrite, and_self]

end M4KK1.Yafs

/-!
## What the tree of a filesystem binds

Under each tag the tree binds a different kind of value: an inode number to the
block of its record, a name to an inode number, a block of a file to a data
block. `Filed` says that every binding has the right kind and that no two keys
share a block. It is kept by every change of the device that leaves each block
its kind, and by the inserts and deletes the filesystem makes.
-/

namespace M4KK1.Yafs

open Function Lib

/-- Every block handed out so far keeps its kind, and a tree node its contents. -/
structure KeepsKinds (before after : Device) : Prop where
  next_le : before.nextFreeBlock ≤ after.nextFreeBlock
  node : ∀ {lba : Nat} {node : Node}, lba < before.nextFreeBlock →
    before.blocks lba = .node node → after.blocks lba = .node node
  inode : ∀ {lba : Nat} {value : InodeValue}, lba < before.nextFreeBlock →
    before.blocks lba = .inode value → ∃ value, after.blocks lba = .inode value
  data : ∀ {lba : Nat} {bytes : Nat → UInt8}, lba < before.nextFreeBlock →
    before.blocks lba = .data bytes → ∃ bytes, after.blocks lba = .data bytes

theorem Extends.keepsKinds {before after : Device} (frame : Extends before after) :
    KeepsKinds before after where
  next_le := frame.next_le
  node allocated image := (frame.kept _ allocated).trans image
  inode allocated image := ⟨_, (frame.kept _ allocated).trans image⟩
  data allocated image := ⟨_, (frame.kept _ allocated).trans image⟩

theorem KeepsKinds.keepsNodes {before after : Device} (keeps : KeepsKinds before after) :
    KeepsNodes before after :=
  ⟨keeps.next_le, fun _ _ allocated image => keeps.node allocated image⟩

theorem KeepsKinds.refl (device : Device) : KeepsKinds device device :=
  (Extends.refl device).keepsKinds

theorem KeepsKinds.trans {first second third : Device} (left : KeepsKinds first second)
    (right : KeepsKinds second third) : KeepsKinds first third where
  next_le := Nat.le_trans left.next_le right.next_le
  node allocated image :=
    right.node (Nat.lt_of_lt_of_le allocated left.next_le) (left.node allocated image)
  inode allocated image :=
    have ⟨_, middle⟩ := left.inode allocated image
    right.inode (Nat.lt_of_lt_of_le allocated left.next_le) middle
  data allocated image :=
    have ⟨_, middle⟩ := left.data allocated image
    right.data (Nat.lt_of_lt_of_le allocated left.next_le) middle

variable {device : Device}

theorem keepsKinds_write {lba : Nat} {block : Block}
    (notNode : ∀ node, device.blocks lba ≠ .node node)
    (inode : ∀ value, device.blocks lba = .inode value → ∃ value, block = .inode value)
    (data : ∀ bytes, device.blocks lba = .data bytes → ∃ bytes, block = .data bytes) :
    KeepsKinds device { device with blocks := update device.blocks lba block } where
  next_le := Nat.le_refl _
  node {other node} _ image := by
    have apart : other ≠ lba := fun same => notNode node (same ▸ image)
    simpa [update_of_ne apart] using image
  inode {other value} _ image := by
    by_cases same : other = lba
    · subst same
      simpa using inode value image
    · exact ⟨value, by simpa [update_of_ne same] using image⟩
  data {other bytes} _ image := by
    by_cases same : other = lba
    · subst same
      simpa using data bytes image
    · exact ⟨bytes, by simpa [update_of_ne same] using image⟩

theorem keepsKinds_writeInode {lba : Nat} {old : InodeValue}
    (image : device.blocks lba = .inode old) (value : InodeValue) :
    KeepsKinds device { device with
      blocks := update device.blocks lba (.inode value) } := by
  apply keepsKinds_write <;> simp [image]

theorem keepsKinds_writeData {lba : Nat} {old : Nat → UInt8}
    (image : device.blocks lba = .data old) (bytes : Nat → UInt8) :
    KeepsKinds device { device with
      blocks := update device.blocks lba (.data bytes) } := by
  apply keepsKinds_write <;> simp [image]

/-- A bound of inode numbers: each number with a record takes a block. -/
def inodeLimit : Nat := 1000 + ramdiskBlocks

/-- The value bound to a key is of the kind the key's tag says. -/
inductive HasKind (device : Device) (key value : Nat) : Prop where
  | inode {record : InodeValue} (tag : keyTag key = ksInode) (small : key < inodeLimit)
      (allocated : value < device.nextFreeBlock) (image : device.blocks value = .inode record)
  | entry (tag : keyTag key = ksDirEntry) (positive : 0 < value) (small : value < inodeLimit)
  | extent {bytes : Nat → UInt8} (tag : keyTag key = ksExtent) (single : extentLength value = 1)
      (allocated : extentLba value < device.nextFreeBlock)
      (image : device.blocks (extentLba value) = .data bytes)

/-- The block that belongs to a binding, if it is one that has a block. -/
def ownedBlock (key value : Nat) : Option Nat :=
  if keyTag key = ksInode then some value
  else if keyTag key = ksExtent then some (extentLba value)
  else none

theorem HasKind.frame {before after : Device} {key value : Nat} (kind : HasKind before key value)
    (keeps : KeepsKinds before after) : HasKind after key value := by
  cases kind with
  | inode tag small allocated image =>
    obtain ⟨_, image⟩ := keeps.inode allocated image
    exact .inode tag small (Nat.lt_of_lt_of_le allocated keeps.next_le) image
  | entry tag positive small => exact .entry tag positive small
  | extent tag single allocated image =>
    obtain ⟨_, image⟩ := keeps.data allocated image
    exact .extent tag single (Nat.lt_of_lt_of_le allocated keeps.next_le) image

theorem HasKind.owned_lt {key value block : Nat}
    (kind : HasKind device key value) (owned : ownedBlock key value = some block) :
    block < device.nextFreeBlock := by
  cases kind with
  | inode tag _ allocated _ =>
    rw [ownedBlock, if_pos tag] at owned
    exact Option.some.inj owned ▸ allocated
  | entry tag _ _ => simp [ownedBlock, tag, ksDirEntry, ksInode, ksExtent] at owned
  | extent tag _ allocated _ =>
    simp [ownedBlock, tag, ksInode, ksExtent] at owned
    exact owned ▸ allocated

/-- Every binding is of its kind, and no two keys own the same block. -/
structure Filed (device : Device) (bindings : Nat → Option Nat) : Prop where
  kind : ∀ {key value : Nat}, bindings key = some value → HasKind device key value
  apart : ∀ {first second value value' block : Nat}, bindings first = some value →
    bindings second = some value' → ownedBlock first value = some block →
    ownedBlock second value' = some block → first = second

theorem filed_empty (device : Device) : Filed device fun _ => none where
  kind bound := absurd bound.symm (Option.some_ne_none _)
  apart bound := absurd bound.symm (Option.some_ne_none _)

namespace Filed

variable {before after : Device} {bindings : Nat → Option Nat}

variable {key : Nat}

section

variable (filed : Filed before bindings)

include filed

theorem inode {lba : Nat} (tag : keyTag key = ksInode) (bound : bindings key = some lba) :
    key < inodeLimit ∧ lba < before.nextFreeBlock ∧ ∃ record,
    before.blocks lba = .inode record := by
  cases filed.kind bound with
  | inode _ small allocated image => exact ⟨small, allocated, _, image⟩
  | entry other => exact absurd (tag.symm.trans other) (by decide)
  | extent other => exact absurd (tag.symm.trans other) (by decide)

theorem entry {inode : Nat} (tag : keyTag key = ksDirEntry)
    (bound : bindings key = some inode) : 0 < inode ∧ inode < inodeLimit := by
  cases filed.kind bound with
  | inode other => exact absurd (tag.symm.trans other) (by decide)
  | entry _ positive small => exact ⟨positive, small⟩
  | extent other => exact absurd (tag.symm.trans other) (by decide)

theorem extent {extent : Nat} (tag : keyTag key = ksExtent) (bound : bindings key = some extent) :
    extentLength extent = 1 ∧ extentLba extent < before.nextFreeBlock ∧
      ∃ bytes, before.blocks (extentLba extent) = .data bytes := by
  cases filed.kind bound with
  | inode other => exact absurd (tag.symm.trans other) (by decide)
  | entry other => exact absurd (tag.symm.trans other) (by decide)
  | extent _ single allocated image => exact ⟨single, allocated, _, image⟩

theorem frame (keeps : KeepsKinds before after) : Filed after bindings where
  kind bound := (filed.kind bound).frame keeps
  apart := filed.apart

theorem remove (key : Nat) : Filed before (update bindings key none) := by
  have kept : ∀ {probe value : Nat}, update bindings key none probe = some value →
      bindings probe = some value := by
    intro probe value bound
    by_cases same : probe = key
    · simp [same] at bound
    · rwa [update_of_ne same] at bound
  exact ⟨fun bound => filed.kind (kept bound), fun bound bound' =>
    filed.apart (kept bound) (kept bound')⟩

theorem add (keeps : KeepsKinds before after) {value : Nat} (kind : HasKind after key value)
    (fresh : ∀ {block : Nat}, ownedBlock key value = some block → before.nextFreeBlock ≤ block) :
    Filed after (update bindings key (some value)) := by
  have cases : ∀ {probe found : Nat}, update bindings key (some value) probe = some found →
      (probe = key ∧ found = value) ∨ bindings probe = some found := by
    intro probe found bound
    by_cases same : probe = key
    · subst same
      rw [update_self] at bound
      exact .inl ⟨rfl, (Option.some.inj bound).symm⟩
    · rw [update_of_ne same] at bound
      exact .inr bound
  constructor
  · intro probe found bound
    rcases cases bound with ⟨rfl, rfl⟩ | old
    · exact kind
    · exact (filed.kind old).frame keeps
  · intro first second found found' block bound bound' owned owned'
    rcases cases bound with ⟨rfl, rfl⟩ | old
    · rcases cases bound' with ⟨rfl, rfl⟩ | old'
      · rfl
      · have := (filed.kind old').owned_lt owned'
        have := fresh owned
        omega
    · rcases cases bound' with ⟨rfl, rfl⟩ | old'
      · have := (filed.kind old).owned_lt owned
        have := fresh owned'
        omega
      · exact filed.apart old old' owned owned'

theorem addEntry (keeps : KeepsKinds before after)
    {inode : Nat} (isEntry : keyTag key = ksDirEntry) (positive : 0 < inode)
    (small : inode < inodeLimit) : Filed after (update bindings key (some inode)) :=
  filed.add keeps (.entry isEntry positive small) fun owned => by
    simp [ownedBlock, isEntry, ksDirEntry, ksInode, ksExtent] at owned

theorem addInode (keeps : KeepsKinds before after)
    {lba : Nat} {record : InodeValue} (isInode : keyTag key = ksInode)
    (small : key < inodeLimit) (fresh : before.nextFreeBlock ≤ lba)
    (allocated : lba < after.nextFreeBlock) (image : after.blocks lba = .inode record) :
    Filed after (update bindings key (some lba)) :=
  filed.add keeps (.inode isInode small allocated image) fun owned => by
    rw [ownedBlock, if_pos isInode] at owned
    exact Option.some.inj owned ▸ fresh

theorem addExtent (keeps : KeepsKinds before after)
    {extent : Nat} {bytes : Nat → UInt8} (isExtent : keyTag key = ksExtent)
    (single : extentLength extent = 1) (fresh : before.nextFreeBlock ≤ extentLba extent)
    (allocated : extentLba extent < after.nextFreeBlock)
    (image : after.blocks (extentLba extent) = .data bytes) :
    Filed after (update bindings key (some extent)) :=
  filed.add keeps (.extent isExtent single allocated image) fun owned => by
    simp [ownedBlock, isExtent, ksInode, ksExtent] at owned
    exact owned ▸ fresh

end

end Filed

/-- The tree represents `bindings`, and every binding is of its kind. -/
structure YafsInv (state : BtreeState) (height : Nat) (bindings : Nat → Option Nat) : Prop where
  rep : Represents state height bindings
  filed : Filed state.device bindings

theorem YafsInv.frame {state : BtreeState} {height : Nat} {bindings : Nat → Option Nat}
    {after : Device} (inv : YafsInv state height bindings) (keeps : KeepsKinds state.device after)
    (limit : after.nextFreeBlock ≤ ramdiskBlocks) :
    YafsInv ⟨after, state.rootLba⟩ height bindings :=
  ⟨inv.rep.frame keeps.keepsNodes limit, inv.filed.frame keeps⟩

/-- How an allocation followed by a write to the new block ends. -/
inductive Stocked (device : Device) (block : Block) : Prop where
  | full (used : device.nextFreeBlock = ramdiskBlocks)
      (alloc : devAllocBlock device = (device, 0))
  | stored (taken after : Device) (room : device.nextFreeBlock < ramdiskBlocks)
      (alloc : devAllocBlock device = (taken, device.nextFreeBlock))
      (write : devWrite taken device.nextFreeBlock block = (after, true))
      (frame : Extends device after) (next : after.nextFreeBlock = device.nextFreeBlock + 1)
      (image : after.blocks device.nextFreeBlock = block)

/-- An allocation takes the next block or finds the device full. -/
theorem devAllocBlock_stocked (limit : device.nextFreeBlock ≤ ramdiskBlocks)
    (block : Block) : Stocked device block := by
  by_cases full : device.nextFreeBlock ≥ ramdiskBlocks
  · exact .full (by omega) (by simp [devAllocBlock, full])
  · have alloc : devAllocBlock device = (_, device.nextFreeBlock) := if_neg full
    refine .stored _ _ (by omega) alloc (if_neg full) ⟨by simp, fun lba allocated => ?_⟩ rfl
      (by simp)
    have other : lba ≠ device.nextFreeBlock := by omega
    simp [update_of_ne other]

end M4KK1.Yafs
