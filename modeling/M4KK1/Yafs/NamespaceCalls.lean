import M4KK1.Yafs.Filed
import M4KK1.Yafs.Paths

/-!
# What the calls of `yafs_vfs.c` do to the tree

One lemma for each function, with a constructor for every way it can end.
-/

namespace M4KK1.Yafs

open Lib Function

variable {state : BtreeState} {height : Nat} {bindings : Nat → Option Nat}

/-- The inode number a name has in a directory, 0 when there is none. -/
def entryIn (bindings : Nat → Option Nat) (parent : Nat) (name : CString) : Nat :=
  (bindings (dirEntryKey parent name)).getD 0

theorem Represents.lookupName_eq (rep : Represents state height bindings) (parent : Nat)
    (name : CString) :
    lookupName state.device state.rootLba parent name = .ok (entryIn bindings parent name) := by
  unfold lookupName entryIn
  rw [rep.lookup, ok_bind]
  cases bindings (dirEntryKey parent name) <;> rfl

theorem entryIn_bound {parent : Nat} {name : CString} (live : entryIn bindings parent name ≠ 0) :
    bindings (dirEntryKey parent name) = some (entryIn bindings parent name) := by
  unfold entryIn at live ⊢
  cases bound : bindings (dirEntryKey parent name) with
  | none => simp [bound] at live
  | some inode => rfl

theorem Filed.entryIn_eq_zero {device : Device} (filed : Filed device bindings) (parent : Nat)
    (name : CString) :
    entryIn bindings parent name = 0 ↔ bindings (dirEntryKey parent name) = none := by
  unfold entryIn
  cases bound : bindings (dirEntryKey parent name) with
  | none => simp
  | some inode =>
    have := (filed.entry (keyTag_dirEntryKey parent name) bound).1
    simp only [Option.getD_some, reduceCtorEq, iff_false]
    omega

def ParentOf (bindings : Nat → Option Nat) (child parent : Nat) : Prop :=
  parent = 0 ∨
    ∃ key, keyTag key = ksDirEntry ∧ bindings key = some child ∧ parent = keyParent key

variable {child key : Nat}

theorem parentCb_parentOf {value parent : Nat} (bound : bindings key = some value)
    (found : ParentOf bindings child parent) :
    ParentOf bindings child (parentCb child key value parent).1 := by
  unfold parentCb
  split
  next => exact found
  next tag =>
    split
    next same => exact .inr ⟨key, not_not.mp tag, by rw [bound, same], rfl⟩
    next => exact found

theorem Represents.lookupParent_spec (rep : Represents state height bindings) (child : Nat) :
    ∃ parent, lookupParent state.device state.rootLba child = .ok parent ∧
      ((child = 1 ∧ parent = 1) ∨ ParentOf bindings child parent) := by
  unfold lookupParent
  split
  next => exact ⟨_, rfl, .inr (.inl rfl)⟩
  next =>
    split
    next isRoot => exact ⟨_, rfl, .inl ⟨isRoot, rfl⟩⟩
    next =>
      have start : ParentOf bindings child 0 := .inl rfl
      obtain ⟨out, walked, found⟩ := rep.walk
        (show makeKey ksDirEntry 0 ≤ uint64Max by decide)
        (show makeKey (ksDirEntry + 1) 0 ≤ uint64Max by decide) (parentCb child)
          (fun _ _ _ bound found => parentCb_parentOf bound found) start
      rw [walked, ok_bind]
      exact ⟨_, rfl, .inr found⟩

theorem Represents.lookupPath_total (rep : Represents state height bindings) (path : CString) :
    ∃ inode, lookupPath state.device state.rootLba path = .ok inode := by
  rw [lookupPath_eq]
  exact foldPath_total (fun inode name => ⟨_, rep.lookupName_eq inode name⟩)
    (fun child => have ⟨parent, looked, _⟩ := rep.lookupParent_spec child; ⟨parent, looked⟩) 1
    (components path)

/-- How the allocation of a record and the insert of its key end. -/
inductive InodeOutcome (state : BtreeState) (height : Nat) (bindings : Nat → Option Nat)
    (inodeNr : Nat) : BtreeState × Bool → Prop where
  | full {after : Device} (frame : Extends state.device after)
      (used : after.nextFreeBlock = ramdiskBlocks)
      (short : ramdiskBlocks <
        state.device.nextFreeBlock + (1 + insertCost state height (inodeKey inodeNr))) :
      InodeOutcome state height bindings inodeNr (⟨after, state.rootLba⟩, false)
  | created {after : BtreeState} (frame : Extends state.device after.device)
      (next : after.device.nextFreeBlock =
        state.device.nextFreeBlock + (1 + insertCost state height (inodeKey inodeNr)))
      (rooted : after.rootLba ≠ 0)
      (inv : YafsInv after (insertHeight state height (inodeKey inodeNr))
        (update bindings (inodeKey inodeNr) (some state.device.nextFreeBlock))) :
      InodeOutcome state height bindings inodeNr (after, true)

theorem inodeKey_lt {inode limit : Nat} (small : inode < limit) : inodeKey inode < limit := by
  rw [inodeKey_eq]
  exact Nat.lt_of_le_of_lt (Nat.mod_le _ _) small

theorem inodeInsert_spec (inv : YafsInv state height bindings) {inodeNr : Nat}
    (small : inodeKey inodeNr < inodeLimit) {stored : Device} {record : InodeValue}
    (room : state.device.nextFreeBlock < ramdiskBlocks) (frame : Extends state.device stored)
    (next : stored.nextFreeBlock = state.device.nextFreeBlock + 1)
    (image : stored.blocks state.device.nextFreeBlock = .inode record) :
    ∃ out, btreeInsert ⟨stored, state.rootLba⟩ (inodeKey inodeNr) state.device.nextFreeBlock =
      .ok out ∧
      InodeOutcome state height bindings inodeNr (out.state, out.ok) := by
  have rep := inv.rep.frame frame.keepsNodes (by omega)
  obtain ⟨sameCost, sameHeight⟩ := inv.rep.insertCost_frame frame.keepsNodes (inodeKey inodeNr)
  obtain ⟨out, ran, outcome⟩ := btreeInsert_spec rep (inodeKey inodeNr) state.device.nextFreeBlock
  refine ⟨out, ran, ?_⟩
  cases outcome with
  | failed grown short used =>
    simp only [sameCost] at short
    exact .full (frame.trans grown) used (by omega)
  | inserted after grown taken newRep rooted =>
    simp only [sameCost, sameHeight] at taken newRep
    have allocated : state.device.nextFreeBlock < stored.nextFreeBlock := by omega
    refine .created (frame.trans grown) (by simp only; omega) rooted ⟨newRep, ?_⟩
    exact inv.filed.addInode (frame.trans grown).keepsKinds (keyTag_inodeKey inodeNr) small
      (Nat.le_refl _) (Nat.lt_of_lt_of_le allocated grown.next_le)
      ((grown.kept _ allocated).trans image)

theorem createInode_spec (inv : YafsInv state height bindings) {inodeNr : Nat}
    (small : state.device.nextFreeBlock < ramdiskBlocks → inodeKey inodeNr < inodeLimit)
    (fileType : Nat) (name : CString) :
    ∃ out, createInode state inodeNr fileType name = .ok out ∧
      InodeOutcome state height bindings inodeNr out := by
  have positive := inv.rep.positive
  unfold createInode
  cases devAllocBlock_stocked inv.rep.limit
      (.inode ⟨0, 0, 0, 0, 0, fileType, 1, inodeName name⟩) with
  | full used alloc =>
    rw [alloc]
    exact ⟨_, rfl, .full (.refl _) used (by omega)⟩
  | stored taken stored room alloc write frame next image =>
    obtain ⟨out, ran, outcome⟩ := inodeInsert_spec inv (small room) room frame next image
    simp only [alloc, write]
    rw [if_neg (by omega), ran, ok_bind]
    cases ok : out.ok with
    | true =>
      rw [ok] at outcome
      exact ⟨_, rfl, outcome⟩
    | false =>
      rw [ok] at outcome
      refine ⟨_, rfl, ?_⟩
      generalize whole : (out.state, false) = pair at outcome
      cases outcome with
      | full frame used short =>
        obtain ⟨same, -⟩ := Prod.mk.inj whole
        rw [same]
        exact .full (frame.trans (extends_devFreeBlock _ _)) (by simpa using used) short
      | created => cases whole

/-- How the insert of a directory entry ends. -/
inductive LinkOutcome (state : BtreeState) (height : Nat) (bindings : Nat → Option Nat)
    (key child : Nat) : BtreeState × Bool → Prop where
  | full {after : Device} (frame : Extends state.device after)
      (used : after.nextFreeBlock = ramdiskBlocks)
      (short : ramdiskBlocks < state.device.nextFreeBlock + insertCost state height key) :
      LinkOutcome state height bindings key child (⟨after, state.rootLba⟩, false)
  | overwritten {after : BtreeState} (bound : bindings key ≠ none)
      (frame : Extends state.device after.device)
      (next : after.device.nextFreeBlock = state.device.nextFreeBlock + (height + 1))
      (inv : YafsInv after height (update bindings key (some child))) :
      LinkOutcome state height bindings key child (after, false)
  | linked {after : BtreeState} (unbound : bindings key = none)
      (frame : Extends state.device after.device)
      (next : after.device.nextFreeBlock =
        state.device.nextFreeBlock + insertCost state height key)
      (rooted : after.rootLba ≠ 0)
      (inv : YafsInv after (insertHeight state height key)
        (update bindings key (some child))) :
      LinkOutcome state height bindings key child (after, true)

theorem entryInsert_spec (inv : YafsInv state height bindings) (isEntry : keyTag key = ksDirEntry)
    (positive : 0 < child) (small : child < inodeLimit) :
    ∃ out, btreeInsert state key child = .ok out ∧ LinkOutcome state height bindings key child
        (out.state, out.ok = true ∧ out.flag = some true) := by
  obtain ⟨out, ran, outcome⟩ := btreeInsert_spec inv.rep key child
  refine ⟨out, ran, ?_⟩
  cases outcome with
  | failed frame short used => exact .full frame used short
  | inserted after frame next newRep rooted =>
    have filed := inv.filed.addEntry frame.keepsKinds isEntry positive small
    cases bound : bindings key with
    | none =>
      simp only [Option.isNone_none, and_self, decide_true]
      exact .linked bound frame next rooted ⟨newRep, filed⟩
    | some old =>
      obtain ⟨cost, sameHeight⟩ := inv.rep.insertCost_bound
        (show bindings key ≠ none by rw [bound]; exact Option.some_ne_none old)
      rw [cost] at next
      rw [sameHeight] at newRep
      exact .overwritten (by rw [bound]; exact Option.some_ne_none old) frame next
        ⟨newRep, filed⟩

theorem createLink_spec (inv : YafsInv state height bindings) (parent : Nat) (name : CString)
    (positive : 0 < child) (small : child < inodeLimit) :
    ∃ out, createLink state parent name child = .ok out ∧
      LinkOutcome state height bindings (dirEntryKey parent name) child out := by
  obtain ⟨out, ran, outcome⟩ :=
    entryInsert_spec inv (keyTag_dirEntryKey parent name) positive small
  unfold createLink
  rw [ran, ok_bind]
  by_cases failed : out.ok = false
  · rw [if_pos failed]
    exact ⟨_, rfl, by simpa [failed] using outcome⟩
  · by_cases refused : out.flag ≠ some true
    · rw [if_neg failed, if_pos refused]
      exact ⟨_, rfl, by simpa [refused] using outcome⟩
    · rw [if_neg failed, if_neg refused]
      simp only [ne_eq, not_not] at refused
      exact ⟨_, rfl, by simpa [refused, Bool.eq_true_of_not_eq_false failed] using outcome⟩

/-- The blocks `mkrn_yafs_mkdir` takes to overwrite an entry that is already there. -/
def mkdirOverwriteCost (state : BtreeState) (height inodeNr : Nat) : Nat :=
  1 + insertCost state height (inodeKey inodeNr) +
    (insertHeight state height (inodeKey inodeNr) + 1)

/-- How `mkrn_yafs_mkdir` and `mkrn_vfs_create_file_yafs` end once they have taken an
inode number. -/
inductive MakeOutcome (state : BtreeState) (height : Nat) (bindings : Nat → Option Nat)
    (key inodeNr : Nat) : BtreeState × Bool → Prop where
  | full {after : BtreeState} {height' : Nat} {bindings' : Nat → Option Nat}
      (inv : YafsInv after height' bindings') (frame : Extends state.device after.device)
      (rooted : state.rootLba ≠ 0 → after.rootLba ≠ 0)
      (agrees : ∀ other, (state.device.nextFreeBlock < ramdiskBlocks →
        other ≠ inodeKey inodeNr) → bindings' other = bindings other)
      (used : after.device.nextFreeBlock = ramdiskBlocks)
      (short : bindings key ≠ none → ramdiskBlocks <
        state.device.nextFreeBlock + mkdirOverwriteCost state height inodeNr) :
      MakeOutcome state height bindings key inodeNr (after, false)
  | overwritten {after : BtreeState} {height' : Nat} {bindings' : Nat → Option Nat}
      (bound : bindings key ≠ none)
      (fits : state.device.nextFreeBlock + mkdirOverwriteCost state height inodeNr ≤ ramdiskBlocks)
      (inv : YafsInv after height' bindings') (frame : Extends state.device after.device)
      (rooted : after.rootLba ≠ 0)
      (grown : state.device.nextFreeBlock < after.device.nextFreeBlock)
      (entry : bindings' key = some inodeNr)
      (agrees : ∀ other, other ≠ inodeKey inodeNr → other ≠ key →
        bindings' other = bindings other) :
      MakeOutcome state height bindings key inodeNr (after, false)
  | made {after : BtreeState} {height' : Nat} (unbound : bindings key = none)
      (inv : YafsInv after height' (update
        (update bindings (inodeKey inodeNr) (some state.device.nextFreeBlock)) key
        (some inodeNr)))
      (frame : Extends state.device after.device) (rooted : after.rootLba ≠ 0)
      (grown : state.device.nextFreeBlock < after.device.nextFreeBlock) :
      MakeOutcome state height bindings key inodeNr (after, true)

theorem inodeDelete_spec (inv : YafsInv state height bindings) (rooted : state.rootLba ≠ 0)
    (inodeNr : Nat) :
    ∃ out bindings', btreeDelete state (inodeKey inodeNr) = .ok out ∧
      YafsInv out.state height bindings' ∧ Extends state.device out.state.device ∧
      out.state.rootLba ≠ 0 ∧
      ∀ other, other ≠ inodeKey inodeNr → bindings' other = bindings other := by
  obtain ⟨out, ran, outcome⟩ := btreeDelete_spec inv.rep (inodeKey inodeNr)
  cases outcome with
  | noTree noRoot unbound => exact absurd noRoot rooted
  | absent _ unbound => exact ⟨_, bindings, ran, inv, .refl _, rooted, fun _ _ => rfl⟩
  | failed _ bound frame short used =>
    exact ⟨_, bindings, ran, inv.frame frame.keepsKinds (Nat.le_of_eq used), frame, rooted,
      fun _ _ => rfl⟩
  | deleted after bound frame next rep newRooted =>
    exact ⟨_, _, ran, ⟨rep, (inv.filed.frame frame.keepsKinds).remove _⟩, frame, newRooted,
      fun other apart => update_of_ne apart _ _⟩

theorem YafsInv.freeBlock (inv : YafsInv state height bindings) (lba : Nat) :
    YafsInv ⟨devFreeBlock state.device lba, state.rootLba⟩ height bindings :=
  inv.frame (extends_devFreeBlock _ _).keepsKinds (by simpa using inv.rep.limit)

theorem Represents.rooted_of_bound (rep : Represents state height bindings) (key : Nat)
    (bound : bindings key ≠ none) : state.rootLba ≠ 0 := by
  cases rep.holds with
  | empty => exact absurd rfl bound
  | tree isTree => exact Nat.ne_of_gt isTree.positive

theorem mkdirRollback_spec (inv : YafsInv state height bindings) (rooted : state.rootLba ≠ 0)
    (inodeNr : Nat) :
    ∃ out bindings', mkdirRollback state inodeNr = .ok out ∧ YafsInv out height bindings' ∧
      Extends state.device out.device ∧ out.rootLba ≠ 0 ∧
      ∀ other, other ≠ inodeKey inodeNr → bindings' other = bindings other := by
  unfold mkdirRollback
  rw [inv.rep.lookup, ok_bind]
  cases bindings (inodeKey inodeNr) with
  | none =>
    obtain ⟨out, bindings', deleted, spec⟩ := inodeDelete_spec inv rooted inodeNr
    refine ⟨out.state, bindings', ?_, spec⟩
    simp only
    rw [deleted, ok_bind, pure_eq_ok]
  | some lba =>
    obtain ⟨out, bindings', deleted, outInv, frame, spec⟩ :=
      inodeDelete_spec (inv.freeBlock lba) rooted inodeNr
    refine ⟨out.state, bindings', ?_, outInv, (extends_devFreeBlock state.device lba).trans frame,
      spec⟩
    simp only
    rw [deleted, ok_bind, pure_eq_ok]

theorem yafsMkdir_spec (inv : YafsInv state height bindings) (parent : Nat) (name : CString)
    {inodeNr : Nat}
    (valid : state.device.nextFreeBlock < ramdiskBlocks → 0 < inodeNr ∧ inodeNr < inodeLimit) :
    ∃ out, yafsMkdir state parent name inodeNr = .ok out ∧
      MakeOutcome state height bindings (dirEntryKey parent name) inodeNr out := by
  obtain ⟨⟨middle, created⟩, ran, outcome⟩ :=
    createInode_spec inv (fun room => inodeKey_lt (valid room).2) ftDir name
  unfold yafsMkdir
  rw [ran, ok_bind]
  cases outcome with
  | full frame used short =>
    refine ⟨_, rfl, .full (inv.frame frame.keepsKinds (Nat.le_of_eq used)) frame id
      (fun _ _ => rfl) used fun _ => ?_⟩
    unfold mkdirOverwriteCost
    omega
  | created frame next rooted middleInv =>
    have middleLimit := middleInv.rep.limit
    obtain ⟨positive, small⟩ := valid (by omega)
    obtain ⟨⟨linked, flag⟩, linkRan, linkOutcome⟩ :=
      createLink_spec middleInv parent name positive small
    have sameEntry : update bindings (inodeKey inodeNr)
        (some state.device.nextFreeBlock) (dirEntryKey parent name) =
        bindings (dirEntryKey parent name) :=
      update_of_ne (dirEntryKey_ne_inodeKey _ _ _) _ _
    simp only [Bool.true_eq_false, if_false]
    rw [linkRan, ok_bind]
    cases linkOutcome with
    | full linkFrame used short =>
      have linkedInv := middleInv.frame linkFrame.keepsKinds (Nat.le_of_eq used)
      obtain ⟨out, final, rolled, outInv, outFrame, outRooted, agrees⟩ :=
        mkdirRollback_spec linkedInv rooted inodeNr
      refine ⟨(out, false), by simp [rolled], .full outInv (frame.trans (linkFrame.trans outFrame))
        (fun _ => outRooted) (fun other apart => ?_) (Nat.le_antisymm outInv.rep.limit ?_)
        fun bound => ?_⟩
      · have notThis := apart (by omega)
        rw [agrees other notThis, update_of_ne notThis]
      · rw [← used]
        exact outFrame.next_le
      · have cost := (middleInv.rep.insertCost_bound (sameEntry ▸ bound)).1
        unfold mkdirOverwriteCost
        omega
    | overwritten bound linkFrame linkNext linkedInv =>
      have linkedRooted : linked.rootLba ≠ 0 :=
        linkedInv.rep.rooted_of_bound (dirEntryKey parent name) (by simp)
      obtain ⟨out, final, rolled, outInv, outFrame, outRooted, agrees⟩ :=
        mkdirRollback_spec linkedInv linkedRooted inodeNr
      have limit := linkedInv.rep.limit
      refine ⟨(out, false), by simp [rolled], .overwritten (sameEntry ▸ bound) ?_ outInv
        (frame.trans (linkFrame.trans outFrame)) outRooted ?_ ?_ fun other apart apart' => ?_⟩
      · unfold mkdirOverwriteCost
        omega
      · have := outFrame.next_le
        omega
      · rw [agrees _ (dirEntryKey_ne_inodeKey _ _ _), update_self]
      · rw [agrees _ apart, update_of_ne apart', update_of_ne apart]
    | linked unbound linkFrame linkNext linkedRooted linkedInv =>
      exact ⟨_, rfl, .made (sameEntry ▸ unbound) linkedInv (frame.trans linkFrame) linkedRooted
        (by simp only; omega)⟩

/-- How `mkrn_yafs_unlink` ends. -/
inductive UnlinkOutcome (state : BtreeState) (height : Nat) (bindings : Nat → Option Nat)
    (key : Nat) : BtreeState × Bool → Prop where
  | missing (unbound : bindings key = none) :
      UnlinkOutcome state height bindings key (state, false)
  | full {after : Device} (bound : bindings key ≠ none) (frame : Extends state.device after)
      (used : after.nextFreeBlock = ramdiskBlocks)
      (short : ramdiskBlocks < state.device.nextFreeBlock + (height + 1)) :
      UnlinkOutcome state height bindings key (⟨after, state.rootLba⟩, false)
  | removed {after : BtreeState} (bound : bindings key ≠ none)
      (fits : state.device.nextFreeBlock + (height + 1) ≤ ramdiskBlocks)
      (frame : Extends state.device after.device) (rooted : after.rootLba ≠ 0)
      (inv : YafsInv after height (update bindings key none)) :
      UnlinkOutcome state height bindings key (after, true)

section

variable (inv : YafsInv state height bindings)

include inv

theorem yafsUnlink_spec (parent : Nat) (name : CString) :
    ∃ out, yafsUnlink state parent name = .ok out ∧
      UnlinkOutcome state height bindings (dirEntryKey parent name) out := by
  obtain ⟨out, ran, outcome⟩ := btreeDelete_spec inv.rep (dirEntryKey parent name)
  unfold yafsUnlink
  rw [ran, ok_bind]
  cases outcome with
  | noTree noRoot unbound => exact ⟨_, rfl, .missing unbound⟩
  | absent rooted unbound => exact ⟨_, rfl, .missing unbound⟩
  | failed rooted bound frame short used => exact ⟨_, rfl, .full bound frame used short⟩
  | deleted after bound frame next rep rooted =>
    have limit := rep.limit
    exact ⟨_, rfl, .removed bound (by omega) frame rooted
      ⟨rep, (inv.filed.frame frame.keepsKinds).remove _⟩⟩

theorem YafsInv.inodeRead_eq {lba : Nat} (tag : keyTag key = ksInode)
    (bound : bindings key = some lba) :
    ∃ record, state.device.blocks lba = .inode record ∧
      inodeRead state.device lba = .ok (some record) := by
  obtain ⟨_, allocated, record, image⟩ := inv.filed.inode tag bound
  have limit := inv.rep.limit
  have readable : ¬ lba ≥ ramdiskBlocks := by omega
  exact ⟨record, image, by simp [inodeRead, devRead, readable, image, Block.asInode]⟩

theorem YafsInv.writeInode {lba : Nat}
    (tag : keyTag key = ksInode) (bound : bindings key = some lba) (record : InodeValue) :
    ∃ after, devWrite state.device lba (.inode record) = (after, true) ∧
      KeepsKinds state.device after ∧ after.nextFreeBlock = state.device.nextFreeBlock ∧
      after.blocks = update state.device.blocks lba (.inode record) ∧
      YafsInv ⟨after, state.rootLba⟩ height bindings := by
  obtain ⟨_, allocated, old, image⟩ := inv.filed.inode tag bound
  have limit := inv.rep.limit
  have writable : ¬ lba ≥ ramdiskBlocks := by omega
  have keeps := keepsKinds_writeInode image record
  exact ⟨_, if_neg writable, keeps, rfl, rfl, inv.frame keeps limit⟩

theorem renameInode_spec (child : Nat) (newName : CString) :
    ∃ after, renameInode state child newName = .ok after ∧ YafsInv after height bindings ∧
      KeepsKinds state.device after.device ∧ after.rootLba = state.rootLba ∧
      after.device.nextFreeBlock = state.device.nextFreeBlock := by
  unfold renameInode
  rw [inv.rep.lookup, ok_bind]
  cases bound : bindings (inodeKey child) with
  | none => exact ⟨_, rfl, inv, .refl _, rfl, rfl⟩
  | some lba =>
    obtain ⟨record, _, read⟩ := inv.inodeRead_eq (keyTag_inodeKey child) bound
    obtain ⟨after, written, keeps, next, _, afterInv⟩ := inv.writeInode (keyTag_inodeKey child)
      bound { record with name := inodeName newName }
    simp only
    rw [read, ok_bind]
    simp only [written]
    exact ⟨_, rfl, afterInv, keeps, rfl, next⟩

end

/-- How `mkrn_yafs_rename` ends. -/
inductive RenameOutcome (state : BtreeState) (height : Nat) (bindings : Nat → Option Nat)
    (oldKey newKey : Nat) : BtreeState × Bool → Prop where
  | missing (unbound : bindings oldKey = none) :
      RenameOutcome state height bindings oldKey newKey (state, false)
  | full {after : Device} (bound : bindings oldKey ≠ none) (frame : Extends state.device after)
      (used : after.nextFreeBlock = ramdiskBlocks)
      (short : ramdiskBlocks < state.device.nextFreeBlock + insertCost state height newKey) :
      RenameOutcome state height bindings oldKey newKey (⟨after, state.rootLba⟩, false)
  | overwritten {after : BtreeState} {child old : Nat} (source : bindings oldKey = some child)
      (bound : bindings newKey = some old)
      (fits : state.device.nextFreeBlock + (height + 1) ≤ ramdiskBlocks)
      (frame : Extends state.device after.device) (rooted : after.rootLba ≠ 0)
      (inv : YafsInv after height (update bindings newKey (some child))) :
      RenameOutcome state height bindings oldKey newKey (after, false)
  | stuck {after : BtreeState} {height' child : Nat} (source : bindings oldKey = some child)
      (unbound : bindings newKey = none)
      (fits : state.device.nextFreeBlock + insertCost state height newKey ≤ ramdiskBlocks)
      (short : ramdiskBlocks < state.device.nextFreeBlock +
        (insertCost state height newKey + (insertHeight state height newKey + 1)))
      (frame : Extends state.device after.device) (rooted : after.rootLba ≠ 0)
      (used : after.device.nextFreeBlock = ramdiskBlocks)
      (inv : YafsInv after height' (update bindings newKey (some child))) :
      RenameOutcome state height bindings oldKey newKey (after, false)
  | moved {after : BtreeState} {height' child : Nat} (source : bindings oldKey = some child)
      (unbound : bindings newKey = none)
      (fits : state.device.nextFreeBlock +
        (insertCost state height newKey + (insertHeight state height newKey + 1)) ≤ ramdiskBlocks)
      (keeps : KeepsKinds state.device after.device) (rooted : after.rootLba ≠ 0)
      (inv : YafsInv after height'
        (update (update bindings newKey (some child)) oldKey none)) :
      RenameOutcome state height bindings oldKey newKey (after, true)

theorem RenameOutcome.of_refused {oldKey newKey : Nat} {after : BtreeState}
    (source : bindings oldKey = some child)
    (refused : LinkOutcome state height bindings newKey child (after, false)) :
    RenameOutcome state height bindings oldKey newKey (after, false) := by
  cases refused with
  | full frame used short => exact .full (by simp [source]) frame used short
  | overwritten bound frame next newInv =>
    obtain ⟨old, isOld⟩ := Option.ne_none_iff_exists'.mp bound
    have limit := newInv.rep.limit
    have rooted := newInv.rep.rooted_of_bound newKey (by simp)
    exact .overwritten source isOld (by omega) frame rooted newInv

/-- A rename ends in one of the listed ways. -/
theorem yafsRename_spec (inv : YafsInv state height bindings) (oldParent : Nat)
    (oldName : CString) (newParent : Nat) (newName : CString) :
    ∃ out, yafsRename state oldParent oldName newParent newName = .ok out ∧
      RenameOutcome state height bindings (dirEntryKey oldParent oldName)
        (dirEntryKey newParent newName) out := by
  unfold yafsRename
  rw [inv.rep.lookupName_eq, ok_bind]
  cases source : bindings (dirEntryKey oldParent oldName) with
  | none =>
    rw [if_pos ((inv.filed.entryIn_eq_zero oldParent oldName).mpr source)]
    exact ⟨_, rfl, .missing source⟩
  | some child =>
    have isChild : entryIn bindings oldParent oldName = child := by simp [entryIn, source]
    obtain ⟨positive, small⟩ := inv.filed.entry (keyTag_dirEntryKey oldParent oldName) source
    rw [isChild, if_neg (by omega)]
    obtain ⟨⟨middle, ok, flag⟩, ran, outcome⟩ :=
      entryInsert_spec inv (keyTag_dirEntryKey newParent newName) positive small
    rw [ran, ok_bind]
    simp only at outcome ⊢
    by_cases failed : ok = false
    · rw [if_pos failed]
      simp only [failed, Bool.false_eq_true, false_and, decide_false] at outcome
      exact ⟨_, rfl, .of_refused source outcome⟩
    rw [if_neg failed]
    by_cases refused : flag ≠ some true
    · rw [if_pos refused]
      simp only [refused, and_false, decide_false] at outcome
      exact ⟨_, rfl, .of_refused source outcome⟩
    rw [if_neg refused]
    simp only [Bool.eq_true_of_not_eq_false failed, not_not.mp refused, and_self,
      decide_true] at outcome
    cases outcome with
    | linked unbound frame next rooted middleInv =>
      have apart : dirEntryKey oldParent oldName ≠ dirEntryKey newParent newName := by
        intro same
        rw [same, unbound] at source
        cases source
      have stillBound : update bindings (dirEntryKey newParent newName) (some child)
          (dirEntryKey oldParent oldName) ≠ none := by
        rw [update_of_ne apart, source]
        exact Option.some_ne_none child
      obtain ⟨out, deleted, outcome⟩ :=
        btreeDelete_spec middleInv.rep (dirEntryKey oldParent oldName)
      rw [deleted, ok_bind]
      have limit := middleInv.rep.limit
      cases outcome with
      | noTree _ gone => exact absurd gone stillBound
      | absent _ gone => exact absurd gone stillBound
      | failed _ _ deleteFrame short used =>
        exact ⟨_, rfl, .stuck source unbound (by omega) (by omega) (frame.trans deleteFrame) rooted
          used (middleInv.frame deleteFrame.keepsKinds (Nat.le_of_eq used))⟩
      | deleted after _ deleteFrame deleteNext rep afterRooted =>
        have afterInv : YafsInv after _ _ :=
          ⟨rep, (middleInv.filed.frame deleteFrame.keepsKinds).remove _⟩
        have afterLimit := rep.limit
        obtain ⟨final, renamed, finalInv, keeps, sameRoot, _⟩ :=
          renameInode_spec afterInv child newName
        simp only [Bool.true_eq_false, ne_eq, not_true_eq_false, or_self, if_false]
        rw [renamed, ok_bind]
        exact ⟨_, rfl, .moved source unbound (by omega)
          ((frame.trans deleteFrame).keepsKinds.trans keeps) (sameRoot ▸ afterRooted) finalInv⟩

end M4KK1.Yafs
