import M4KK1.Vfs.Calls
import M4KK1.Yafs.FileCalls

/-!
# What the calls of `vfs.c` do to the filesystem

Every call keeps the filesystem sound: inode numbers are handed out in order.
-/

namespace M4KK1.Vfs

open Lib Yafs Function

/-- No inode number from `nextIno` on is in use. -/
structure Fresh (nextIno nextFreeBlock : Nat) (bindings : Nat → Option Nat) : Prop where
  started : 1000 ≤ nextIno
  bounded : nextIno ≤ 1000 + nextFreeBlock
  inode : ∀ {key : Nat}, keyTag key = ksInode → bindings key ≠ none → key < nextIno
  entry : ∀ {key inode : Nat}, keyTag key = ksDirEntry → bindings key = some inode →
    inode < nextIno

/-- The invariant of the mounted filesystem; a full ramdisk stays as it is. -/
structure Inv (state : State) (height : Nat) (bindings : Nat → Option Nat) : Prop where
  yafs : YafsInv state.yafs height bindings
  fresh : state.yafs.device.nextFreeBlock < ramdiskBlocks →
    Fresh state.nextIno state.yafs.device.nextFreeBlock bindings

variable {state : State} {height : Nat} {bindings : Nat → Option Nat}

theorem Fresh.next {nextIno nextFreeBlock : Nat} (fresh : Fresh nextIno nextFreeBlock bindings)
    (room : nextFreeBlock < ramdiskBlocks) :
    0 < nextIno ∧ nextIno < inodeLimit ∧ inodeKey nextIno = nextIno ∧
      (nextIno + 1) % 2 ^ 64 = nextIno + 1 ∧ bindings (inodeKey nextIno) = none := by
  have := fresh.started
  have := fresh.bounded
  have whole : inodeKey nextIno = nextIno := by
    rw [inodeKey_eq]
    unfold ramdiskBlocks at room
    exact Nat.mod_eq_of_lt (by omega)
  refine ⟨by omega, by unfold inodeLimit; omega, whole, ?_, ?_⟩
  · unfold ramdiskBlocks at room
    exact Nat.mod_eq_of_lt (by omega)
  · by_contra bound
    have := fresh.inode (keyTag_inodeKey nextIno) bound
    omega

theorem Fresh.frame {nextIno next next' : Nat} {bindings' : Nat → Option Nat}
    (fresh : Fresh nextIno next bindings) (le : next ≤ next')
    (inode : ∀ {key : Nat}, keyTag key = ksInode → bindings' key ≠ none → bindings key ≠ none)
    (entry : ∀ {key child : Nat}, keyTag key = ksDirEntry → bindings' key = some child →
      ∃ key, keyTag key = ksDirEntry ∧ bindings key = some child) :
    Fresh nextIno next' bindings' where
  started := fresh.started
  bounded := Nat.le_trans fresh.bounded (Nat.add_le_add_left le 1000)
  inode tag bound := fresh.inode tag (inode tag bound)
  entry tag bound :=
    have ⟨_, tag, bound⟩ := entry tag bound
    fresh.entry tag bound

theorem Inv.sameNames (inv : Inv state height bindings) {yafs : BtreeState} {height' : Nat}
    {bindings' : Nat → Option Nat} (yafsInv : YafsInv yafs height' bindings')
    (le : state.yafs.device.nextFreeBlock ≤ yafs.device.nextFreeBlock)
    (names : ∀ key, keyTag key ≠ ksExtent → bindings' key = bindings key) :
    Inv { state with yafs } height' bindings' where
  yafs := yafsInv
  fresh room := (inv.fresh (Nat.lt_of_le_of_lt le room)).frame le
    (fun {key} tag bound => by rwa [names key (by rw [tag]; decide)] at bound)
    (fun {key _} tag bound => ⟨key, tag, by rwa [names key (by rw [tag]; decide)] at bound⟩)

theorem Fresh.taken {nextIno next next' : Nat} {bindings' : Nat → Option Nat}
    (fresh : Fresh nextIno next bindings) (room : next < ramdiskBlocks) (grown : next < next')
    (dirKey : Nat)
    (agrees : ∀ other, other ≠ inodeKey nextIno → other ≠ dirKey →
      bindings' other = bindings other) (isEntry : keyTag dirKey = ksDirEntry)
    (entry : ∀ inode, bindings' dirKey = some inode →
      inode = nextIno ∨ bindings dirKey = some inode) :
    Fresh ((nextIno + 1) % 2 ^ 64) next' bindings' := by
  obtain ⟨_, _, whole, noWrap, _⟩ := fresh.next room
  have bounded := fresh.bounded
  have started := fresh.started
  rw [noWrap]
  refine ⟨by omega, by omega, ?_, ?_⟩
  · intro key tag bound
    by_cases isNew : key = inodeKey nextIno
    · omega
    · have apart : key ≠ dirKey := key_ne_of_tag (by rw [tag, isEntry]; decide)
      rw [agrees key isNew apart] at bound
      have := fresh.inode tag bound
      omega
  · intro key inode tag bound
    by_cases isDir : key = dirKey
    · subst isDir
      rcases entry inode bound with rfl | old
      · omega
      · have := fresh.entry tag old
        omega
    · have apart : key ≠ inodeKey nextIno :=
        key_ne_of_tag (by rw [tag, keyTag_inodeKey]; decide)
      rw [agrees key apart isDir] at bound
      have := fresh.entry tag bound
      omega

theorem Inv.parentOf_total (inv : Inv state height bindings) (path : Option CString) :
    ∃ target, parentOf state path = .ok target := by
  unfold parentOf
  cases path with
  | none => exact ⟨_, rfl⟩
  | some path =>
    simp only
    split
    · exact ⟨_, rfl⟩
    · cases splitParentName path with
      | none => exact ⟨_, rfl⟩
      | some parts =>
        obtain ⟨parentPath, name⟩ := parts
        obtain ⟨parent, looked⟩ := inv.yafs.rep.lookupPath_total parentPath
        simp only
        rw [looked, ok_bind]
        split
        · exact ⟨_, rfl⟩
        · exact ⟨_, rfl⟩

theorem parentOf_split {path : Option CString} {parent : Nat} {name : CString}
    (target : parentOf state path = .ok (some (parent, name))) :
    ∃ text dir, path = some text ∧ splitParentName text = some (dir, name) ∧
      lookupPath state.yafs.device state.yafs.rootLba dir = .ok parent ∧ parent ≠ 0 := by
  unfold parentOf at target
  cases path with
  | none => cases target
  | some path =>
    simp only at target
    split at target
    next => cases target
    next =>
      cases parts : splitParentName path with
      | none =>
        rw [parts] at target
        cases target
      | some pair =>
        obtain ⟨dir, text⟩ := pair
        rw [parts] at target
        obtain ⟨found, looked, target⟩ := bind_ok target
        split at target
        next => cases target
        next live =>
          obtain ⟨rfl, rfl⟩ := Prod.mk.inj (Option.some.inj (Except.ok.inj target))
          exact ⟨path, dir, rfl, parts, looked, live⟩

/-- A call on one name returns -1 at once, or has a directory and a name. -/
inductive Resolved (state : State) (path : Option CString)
    (Outcome : Nat → CString → State × Bool → Prop) : State × Bool → Prop where
  | refused (nowhere : parentOf state path = .ok none) :
      Resolved state path Outcome (state, false)
  | ran {parent : Nat} {name : CString} {out : State × Bool}
      (target : parentOf state path = .ok (some (parent, name)))
      (outcome : Outcome parent name out) : Resolved state path Outcome out

theorem mkdir_spec (inv : Inv state height bindings) (path : Option CString) :
    ∃ out, mkdir state path = .ok out ∧ Resolved state path (fun parent name out => ∃ yafs ok,
        out = ({ state.takeIno with yafs }, ok) ∧
        MakeOutcome state.yafs height bindings (dirEntryKey parent name) state.nextIno (yafs, ok))
        out := by
  obtain ⟨target, looked⟩ := inv.parentOf_total path
  unfold mkdir
  rw [looked, ok_bind]
  cases target with
  | none => exact ⟨_, rfl, .refused looked⟩
  | some target =>
    obtain ⟨parent, name⟩ := target
    have valid : state.yafs.device.nextFreeBlock < ramdiskBlocks →
        0 < state.nextIno ∧ state.nextIno < inodeLimit := fun room =>
      have ⟨positive, small, _⟩ := (inv.fresh room).next room
      ⟨positive, small⟩
    obtain ⟨⟨yafs, ok⟩, ran, outcome⟩ := yafsMkdir_spec inv.yafs parent name valid
    simp only [yafsLookupName, if_true, pure_eq_ok, ok_bind]
    rw [ran, ok_bind]
    exact ⟨_, rfl, .ran looked ⟨yafs, ok, rfl, outcome⟩⟩

theorem storeNewFile_spec {yafs : BtreeState} (inv : YafsInv yafs height bindings) (parent : Nat)
    (name : CString) {ino : Nat}
    (valid : yafs.device.nextFreeBlock < ramdiskBlocks → 0 < ino ∧ ino < inodeLimit)
    (unbound : bindings (dirEntryKey parent name) = none) :
    ∃ out, storeNewFile yafs parent name ino = .ok out ∧
      MakeOutcome yafs height bindings (dirEntryKey parent name) ino out := by
  have atStart := inv.rep.positive
  unfold storeNewFile
  cases devAllocBlock_stocked inv.rep.limit
      (.inode ⟨0, 0, 0, 0, newFileMode, ftRegFile, 1, inodeName name⟩) with
  | full used alloc =>
    rw [alloc]
    exact ⟨_, rfl, .full inv (.refl _) id (fun _ _ => rfl) used fun bound => absurd unbound bound⟩
  | stored taken stored room alloc write frame next image =>
    obtain ⟨positive, small⟩ := valid room
    obtain ⟨⟨middle, ok, flag⟩, ran, outcome⟩ :=
      inodeInsert_spec inv (inodeKey_lt small) room frame next image
    simp only [alloc, write]
    rw [if_neg (by omega), ran, ok_bind]
    simp only at outcome ⊢
    cases outcome with
    | @full after grown used short =>
      rw [if_pos rfl]
      have freed := extends_devFreeBlock after yafs.device.nextFreeBlock
      refine ⟨_, rfl, .full (inv.frame (grown.trans freed).keepsKinds ?_) (grown.trans freed) id
        (fun _ _ => rfl) ?_ fun bound => absurd unbound bound⟩
      · simpa using Nat.le_of_eq used
      · simpa using used
    | created grown middleNext rooted middleInv =>
      rw [if_neg (by decide)]
      have stillUnbound : update bindings (inodeKey ino)
          (some yafs.device.nextFreeBlock) (dirEntryKey parent name) = none :=
        (update_of_ne (dirEntryKey_ne_inodeKey _ _ _) _ _).trans unbound
      obtain ⟨⟨linked, linkOk, linkFlag⟩, linkRan, linkOutcome⟩ :=
        entryInsert_spec middleInv (keyTag_dirEntryKey parent name) positive small
      rw [linkRan, ok_bind]
      simp only at linkOutcome ⊢
      by_cases made : linkOk = true ∧ linkFlag = some true
      · rw [if_neg (by simp [made])]
        simp only [made, and_self, decide_true] at linkOutcome
        cases linkOutcome with
        | linked _ linkFrame linkNext linkRooted linkInv =>
          exact ⟨_, rfl, .made unbound linkInv (grown.trans linkFrame) linkRooted
            (by omega)⟩
      · rw [if_pos (by
          rcases Bool.eq_false_or_eq_true linkOk with isTrue | isFalse
          · exact .inr fun isInserted => made ⟨isTrue, isInserted⟩
          · exact .inl isFalse)]
        simp only [made, decide_false] at linkOutcome
        -- The entry was not there, so the only refusal is a full ramdisk.
        cases linkOutcome with
        | overwritten bound => exact absurd stillUnbound bound
        | @full after linkFrame used short =>
          obtain ⟨out, final, deleted, finalInv, finalFrame, finalRooted, agrees⟩ :=
            inodeDelete_spec (middleInv.frame linkFrame.keepsKinds (Nat.le_of_eq used)) rooted ino
          rw [deleted, ok_bind]
          have freed := extends_devFreeBlock out.state.device yafs.device.nextFreeBlock
          have whole := (grown.trans linkFrame).trans (finalFrame.trans freed)
          refine ⟨_, rfl, .full (finalInv.freeBlock _) whole (fun _ => finalRooted)
            (fun other apart => (agrees other (apart room)).trans
              (update_of_ne (apart room) _ _))
            ?_ fun bound => absurd unbound bound⟩
          have limit := finalInv.rep.limit
          have le := finalFrame.next_le
          simp only [devFreeBlock_next] at le ⊢
          omega

theorem createFileYafs_spec (inv : Inv state height bindings) (path : Option CString) :
    ∃ out, createFileYafs state path = .ok out ∧ Resolved state path (fun parent name out =>
        (bindings (dirEntryKey parent name) ≠ none ∧ out = (state, false)) ∨
        (bindings (dirEntryKey parent name) = none ∧ ∃ yafs ok,
          out = ({ state.takeIno with yafs }, ok) ∧ MakeOutcome state.yafs height bindings
            (dirEntryKey parent name) state.nextIno (yafs, ok))) out := by
  obtain ⟨target, looked⟩ := inv.parentOf_total path
  unfold createFileYafs
  rw [looked, ok_bind]
  cases target with
  | none => exact ⟨_, rfl, .refused looked⟩
  | some target =>
    obtain ⟨parent, name⟩ := target
    have valid : state.yafs.device.nextFreeBlock < ramdiskBlocks →
        0 < state.nextIno ∧ state.nextIno < inodeLimit := fun room =>
      have ⟨positive, small, _⟩ := (inv.fresh room).next room
      ⟨positive, small⟩
    simp only [yafsLookupName, Bool.true_eq_false, if_false]
    rw [inv.yafs.rep.lookupName_eq, ok_bind]
    by_cases unbound : bindings (dirEntryKey parent name) = none
    · rw [if_pos ((inv.yafs.filed.entryIn_eq_zero parent name).mpr unbound)]
      obtain ⟨⟨yafs, ok⟩, ran, outcome⟩ := storeNewFile_spec inv.yafs parent name valid unbound
      simp only [pure_eq_ok, ok_bind]
      rw [ran, ok_bind]
      exact ⟨_, rfl, .ran looked (.inr ⟨unbound, yafs, ok, rfl, outcome⟩)⟩
    · rw [if_neg (mt (inv.yafs.filed.entryIn_eq_zero parent name).mp unbound)]
      exact ⟨_, rfl, .ran looked (.inl ⟨unbound, rfl⟩)⟩

theorem unlink_spec (inv : Inv state height bindings) (path : Option CString) :
    ∃ out, unlink state path = .ok out ∧
      Resolved state path (fun parent name out => ∃ yafs ok, out = ({ state with yafs }, ok) ∧
        UnlinkOutcome state.yafs height bindings (dirEntryKey parent name) (yafs, ok)) out := by
  obtain ⟨target, looked⟩ := inv.parentOf_total path
  unfold unlink
  rw [looked, ok_bind]
  cases target with
  | none => exact ⟨_, rfl, .refused looked⟩
  | some target =>
    obtain ⟨parent, name⟩ := target
    obtain ⟨⟨yafs, ok⟩, ran, outcome⟩ := yafsUnlink_spec inv.yafs parent name
    simp only
    rw [ran, ok_bind]
    exact ⟨_, rfl, .ran looked ⟨yafs, ok, rfl, outcome⟩⟩

/-- How `mkrn_vfs_rename` ends. -/
inductive Renamed (state : State) (height : Nat) (bindings : Nat → Option Nat)
    (oldPath newPath : Option CString) : State × Bool → Prop where
  | refused (nowhere : parentOf state oldPath = .ok none ∨ parentOf state newPath = .ok none) :
      Renamed state height bindings oldPath newPath (state, false)
  | ran {oldParent newParent : Nat} {oldName newName : CString} {yafs : BtreeState} {ok : Bool}
      (source : parentOf state oldPath = .ok (some (oldParent, oldName)))
      (target : parentOf state newPath = .ok (some (newParent, newName)))
      (outcome : RenameOutcome state.yafs height bindings (dirEntryKey oldParent oldName)
        (dirEntryKey newParent newName) (yafs, ok)) :
      Renamed state height bindings oldPath newPath ({ state with yafs }, ok)

theorem rename_spec (inv : Inv state height bindings) (oldPath newPath : Option CString) :
    ∃ out, rename state oldPath newPath = .ok out ∧
      Renamed state height bindings oldPath newPath out := by
  obtain ⟨source, sourceLooked⟩ := inv.parentOf_total oldPath
  obtain ⟨target, targetLooked⟩ := inv.parentOf_total newPath
  unfold rename
  rw [sourceLooked, ok_bind, targetLooked, ok_bind]
  cases source with
  | none => exact ⟨_, rfl, .refused (.inl sourceLooked)⟩
  | some source =>
    cases target with
    | none => exact ⟨_, rfl, .refused (.inr targetLooked)⟩
    | some target =>
      obtain ⟨oldParent, oldName⟩ := source
      obtain ⟨newParent, newName⟩ := target
      obtain ⟨⟨yafs, ok⟩, ran, outcome⟩ :=
        yafsRename_spec inv.yafs oldParent oldName newParent newName
      simp only
      rw [ran, ok_bind]
      exact ⟨_, rfl, .ran sourceLooked targetLooked outcome⟩

/-- A call that changes no name and takes no inode number. -/
def SameNames (bindings : Nat → Option Nat) (out : State × Bool) : Prop :=
  ∃ height' bindings', Inv out.1 height' bindings' ∧
    ∀ key, keyTag key ≠ ksExtent → bindings' key = bindings key

section

variable (inv : Inv state height bindings)

include inv

theorem Inv.same (ok : Bool) : SameNames bindings (state, ok) :=
  ⟨height, bindings, inv, fun _ _ => rfl⟩

theorem writeFile_spec (inode : Nat) (buf : List UInt8)
    (offset : Nat) : ∃ out, writeFile state inode buf offset = .ok out ∧
      SameNames bindings out := by
  unfold writeFile
  split
  · exact ⟨_, rfl, inv.same false⟩
  · obtain ⟨out, height', bindings', ran, outcome⟩ := writeFileData_spec inv.yafs inode buf offset
    rw [ran, ok_bind]
    exact ⟨_, rfl, height', bindings',
      inv.sameNames outcome.inv outcome.keeps.next_le outcome.names, outcome.names⟩

theorem truncate_spec (inode : Nat) :
    ∃ out, truncate state inode = .ok out ∧ SameNames bindings out := by
  unfold truncate
  split
  · exact ⟨_, rfl, inv.same false⟩
  · obtain ⟨⟨yafs, ok⟩, bindings', ran, yafsInv, keeps, _, names⟩ :=
      truncateInode_spec inv.yafs inode
    rw [ran, ok_bind]
    exact ⟨_, rfl, height, bindings', inv.sameNames yafsInv keeps.next_le names, names⟩

theorem editInode_kept (path : Option CString)
    (allowed : InodeValue → Bool) (edit : InodeValue → InodeValue) :
    ∃ out, editInode state path allowed edit = .ok out ∧ Inv out.1 height bindings := by
  unfold editInode
  cases path with
  | none => exact ⟨_, rfl, inv⟩
  | some path =>
    simp only
    split
    · exact ⟨_, rfl, inv⟩
    · obtain ⟨inodeNr, looked⟩ := inv.yafs.rep.lookupPath_total path
      rw [looked, ok_bind]
      split
      · exact ⟨_, rfl, inv⟩
      · unfold readInodeRaw
        rw [inv.yafs.rep.lookup, ok_bind]
        cases bound : bindings (inodeKey inodeNr) with
        | none => exact ⟨_, rfl, inv⟩
        | some lba =>
          obtain ⟨record, _, read⟩ := inv.yafs.inodeRead_eq (keyTag_inodeKey inodeNr) bound
          simp only
          rw [read, ok_bind]
          simp only [pure_eq_ok, ok_bind]
          split
          · exact ⟨_, rfl, inv⟩
          · obtain ⟨after, written, edits⟩ := inv.yafs.editRecord bound (edit record)
            rw [written]
            exact ⟨_, rfl, inv.sameNames edits.inv edits.keeps.next_le fun _ _ => rfl⟩

/-- An edit of a record changes no name. -/
theorem editInode_spec (path : Option CString)
    (allowed : InodeValue → Bool) (edit : InodeValue → InodeValue) :
    ∃ out, editInode state path allowed edit = .ok out ∧ SameNames bindings out := by
  obtain ⟨out, ran, inv'⟩ := editInode_kept inv path allowed edit
  exact ⟨out, ran, height, bindings, inv', fun _ _ => rfl⟩

end

end M4KK1.Vfs
