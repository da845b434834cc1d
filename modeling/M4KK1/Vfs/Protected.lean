import M4KK1.Vfs.SystemRuns
import M4KK1.Vfs.TreeShape
import M4KK1.Yafs.WalkFirst

/-!
# The protected trees

`mkrn_vfs_open` looks at the spelling of a path, to which `lookup_path` does not keep.
-/

namespace M4KK1.Vfs

open Lib Yafs Relation Function

theorem lookupPath_split {device : Device} {rootTree parent : Nat} {path parentPath name : CString}
    (split : splitParentName path = some (parentPath, name))
    (looked : lookupPath device rootTree parentPath = .ok parent) (live : parent ≠ 0) :
    lookupPath device rootTree path =
      pathStep (lookupName device rootTree) (lookupParent device rootTree) parent name := by
  rw [lookupPath_eq]
  unfold splitParentName at split
  split at split
  next => cases split
  next nonempty =>
    cases last : strrchrY slash path with
    | none =>
      rw [last] at split
      cases split
      rw [lookupPath_root] at looked
      cases looked
      rw [components_noSlash (strrchrY_none last)]
      rfl
    | some rest =>
      rw [last] at split
      obtain ⟨head, tail, noSlash, rfl, rfl⟩ := strrchrY_some last
      have plen : (head ++ slash :: tail).length - (slash :: tail).length = head.length := by simp
      simp only [plen, List.drop_succ_cons, List.drop_zero, List.take_left] at split
      split at split
      next isFirst =>
        cases split
        rw [lookupPath_root] at looked
        cases looked
        obtain rfl := List.length_eq_zero_iff.mp isFirst
        rw [components_slash, components_noSlash noSlash]
        rfl
      next =>
        split at split
        next => cases split
        next short =>
          cases split
          rw [lookupPath_eq] at looked
          rw [components_slash, components_noSlash noSlash]
          refine foldPath_snoc (components_ne_nil _) ?_ looked live
          intro comp member
          have := components_length member
          omega

/-- `/sys` and what hangs below it. -/
def BelowSys (state : State) (inode : Nat) : Prop :=
  ∃ sys, InodeOf state (cstr "/sys") sys ∧ Below state sys inode

/-- The inodes of `/sys`, of everything below it, and of `/boot`. -/
def Protected (state : State) (inode : Nat) : Prop :=
  BelowSys state inode ∨ InodeOf state (cstr "/boot") inode

/-- The key of the entry `/sys` leads through. -/
def sysKey : Nat := dirEntryKey 1 (cstr "sys")

/-- The key of the entry `/boot` leads through. -/
def bootKey : Nat := dirEntryKey 1 (cstr "boot")

/-- An inode with a path of directory entries from `/sys`. -/
def BelowSysIn (bindings : Nat → Option Nat) (inode : Nat) : Prop :=
  ∃ sys, bindings sysKey = some sys ∧ RootedTree.Reached keyParent sys (dirEdges bindings) inode

def ProtectedIn (bindings : Nat → Option Nat) (inode : Nat) : Prop :=
  BelowSysIn bindings inode ∨ bindings bootKey = some inode

variable {state : State} {height height' : Nat} {bindings bindings' : Nat → Option Nat}

variable {inode : Nat}

theorem Inv.inodeOf_top (inv : Inv state height bindings) {path name : CString}
    (parts : components path = [[], name])
    (plain : name ≠ [] ∧ name ≠ cstr "." ∧ name ≠ cstr "..") :
    InodeOf state path inode ↔ bindings (dirEntryKey 1 name) = some inode := by
  have looked : lookupPath state.yafs.device state.yafs.rootLba path =
      .ok (entryIn bindings 1 name) := by
    rw [lookupPath_eq, parts, ← inv.yafs.rep.lookupName_eq]
    simp [foldPath, pathStep, plain]
  unfold InodeOf
  rw [looked]
  constructor
  · rintro ⟨found, live⟩
    obtain rfl := Except.ok.inj found
    exact entryIn_bound live
  · intro bound
    have positive := (inv.yafs.filed.entry (keyTag_dirEntryKey 1 name) bound).1
    refine ⟨?_, by omega⟩
    rw [entryIn, bound, Option.getD_some]

theorem Inv.belowSys_iff (inv : Inv state height bindings) :
    BelowSys state inode ↔ BelowSysIn bindings inode := by
  unfold BelowSys BelowSysIn Below RootedTree.Reached
  rw [inv.entries_eq]
  refine exists_congr fun sys => and_congr_left fun _ => ?_
  exact inv.inodeOf_top (by decide) (by decide)

theorem Inv.protected_iff (inv : Inv state height bindings) :
    Protected state inode ↔ ProtectedIn bindings inode :=
  or_congr inv.belowSys_iff (inv.inodeOf_top (by decide) (by decide))

theorem SameEntries.protectedIn_iff (same : SameEntries bindings bindings') :
    ProtectedIn bindings' inode ↔ ProtectedIn bindings inode := by
  unfold ProtectedIn BelowSysIn
  rw [same.dirEdges_eq, same sysKey (keyTag_dirEntryKey 1 _), same bootKey (keyTag_dirEntryKey 1 _)]

theorem ProtectedIn.bound (isProtected : ProtectedIn bindings inode) :
    ∃ key, keyTag key = ksDirEntry ∧ bindings key = some inode := by
  rcases isProtected with ⟨sys, isSys, path⟩ | isBoot
  · rcases path.cases with rfl | ⟨key, edge⟩
    · exact ⟨sysKey, keyTag_dirEntryKey 1 _, isSys⟩
    · exact ⟨key, dirEdges_tag edge⟩
  · exact ⟨bootKey, keyTag_dirEntryKey 1 _, isBoot⟩

theorem protectedIn_new {key : Nat} (isEntry : keyTag key = ksDirEntry)
    (unbound : bindings key = none) (fresh : ∀ other, dirEdges bindings other ≠ some inode) :
    ProtectedIn (update bindings key (some inode)) inode ↔
      BelowSysIn bindings (keyParent key) ∨ key = sysKey ∨ key = bootKey := by
  have notBound : ∀ {other}, keyTag other = ksDirEntry → bindings other ≠ some inode := by
    intro other tag bound
    exact fresh other (by rw [dirEdges, if_pos tag, bound])
  have edgeFree : dirEdges bindings key = none := by rw [dirEdges, if_pos isEntry, unbound]
  unfold ProtectedIn BelowSysIn
  rw [dirEdges_update isEntry]
  constructor
  · rintro (⟨sys, isSys, path⟩ | isBoot)
    · by_cases here : key = sysKey
      · exact .inr (.inl here)
      · rw [update_of_ne (Ne.symm here)] at isSys
        have apart : inode ≠ sys := fun same => notBound (keyTag_dirEntryKey 1 _) (same ▸ isSys)
        exact .inl ⟨sys, isSys, (RootedTree.Reached.new_iff edgeFree fresh apart).mp path⟩
    · by_cases here : key = bootKey
      · exact .inr (.inr here)
      · rw [update_of_ne (Ne.symm here)] at isBoot
        exact absurd isBoot (notBound (keyTag_dirEntryKey 1 _))
  · rintro (⟨sys, isSys, path⟩ | rfl | rfl)
    · have here : sysKey ≠ key := fun same => by rw [same, unbound] at isSys; cases isSys
      have apart : inode ≠ sys := fun same => notBound (keyTag_dirEntryKey 1 _) (same ▸ isSys)
      refine .inl ⟨sys, ?_, (RootedTree.Reached.new_iff edgeFree fresh apart).mpr path⟩
      rw [update_of_ne here, isSys]
    · exact .inl ⟨inode, update_self .., .refl⟩
    · exact .inr (update_self ..)

theorem Inv.lookupPath_lt (inv : Inv state height bindings) {path : CString}
    (looked : lookupPath state.yafs.device state.yafs.rootLba path = .ok inode)
    (live : inode ≠ 0) : inode < 2 ^ 44 := by
  rw [lookupPath_eq] at looked
  have step : ∀ {inode comp found}, inode < 2 ^ 44 →
      pathStep (lookupName state.yafs.device state.yafs.rootLba)
        (lookupParent state.yafs.device state.yafs.rootLba) inode comp = .ok found →
      found ≠ 0 → found < 2 ^ 44 := by
    intro inode comp found start stepped live
    unfold pathStep at stepped
    split at stepped
    next =>
      obtain rfl := Except.ok.inj stepped
      exact start
    next =>
      split at stepped
      next =>
        obtain ⟨parent, looked, origin⟩ := inv.yafs.rep.lookupParent_spec inode
        obtain rfl := Except.ok.inj (looked.symm.trans stepped)
        rcases origin with ⟨_, rfl⟩ | zero | ⟨key, _, _, rfl⟩
        · decide
        · exact absurd zero live
        · exact keyParent_lt key
      next =>
        rw [inv.yafs.rep.lookupName_eq] at stepped
        obtain rfl := Except.ok.inj stepped
        have small := (inv.yafs.filed.entry (keyTag_dirEntryKey inode comp) (entryIn_bound live)).2
        have limit : inodeLimit < 2 ^ 44 := by decide
        exact Nat.lt_trans small limit
  exact foldPath_induction step (by decide) looked live

/-- The filesystem after a new inode number was bound to the entry `key`. -/
structure Added (state after : State) (height height' : Nat) (bindings bindings' : Nat → Option Nat)
    (key inode : Nat) : Prop where
  before : Inv state height bindings
  now : Inv after height' bindings'
  isEntry : keyTag key = ksDirEntry
  unbound : bindings key = none
  fresh : ∀ other, dirEdges bindings other ≠ some inode
  notRoot : inode ≠ 1
  same : SameEntries (update bindings key (some inode)) bindings'

namespace Added

variable {after : State} {key inode : Nat}

section

variable (added : Added state after height height' bindings bindings' key inode)

include added

theorem others {other child : Nat} (tag : keyTag other = ksDirEntry) (apart : child ≠ inode) :
    bindings other = some child ↔ bindings' other = some child := by
  rw [added.same other tag]
  by_cases here : other = key
  · rw [here, added.unbound, update_self]
    simpa using Ne.symm apart
  · rw [update_of_ne here]

theorem lookupParent_eq {child : Nat} (apart : child ≠ inode) :
    lookupParent after.yafs.device after.yafs.rootLba child =
      lookupParent state.yafs.device state.yafs.rootLba child :=
  added.before.yafs.rep.lookupParent_same added.now.yafs.rep
    fun _ tag => added.others tag apart

theorem pathStep_kept {start found : Nat} {comp : CString}
    (stepped : pathStep (lookupName state.yafs.device state.yafs.rootLba)
      (lookupParent state.yafs.device state.yafs.rootLba) start comp = .ok found)
    (live : found ≠ 0) :
    pathStep (lookupName after.yafs.device after.yafs.rootLba)
      (lookupParent after.yafs.device after.yafs.rootLba) start comp = .ok found := by
  unfold pathStep at stepped ⊢
  split at stepped
  next skip => rwa [if_pos skip]
  next notSkip =>
    rw [if_neg notSkip]
    split at stepped
    next dots =>
      rw [if_pos dots]
      -- The new inode had no entry, so `..` led nowhere from it.
      have apart : start ≠ inode := by
        rintro rfl
        obtain ⟨parent, looked, origin⟩ := added.before.yafs.rep.lookupParent_spec start
        obtain rfl := Except.ok.inj (looked.symm.trans stepped)
        rcases origin with ⟨isRoot, _⟩ | zero | ⟨entry, tag, bound, _⟩
        · exact added.notRoot isRoot
        · exact live zero
        · exact added.fresh entry (by rw [dirEdges, if_pos tag, bound])
      rw [added.lookupParent_eq apart, stepped]
    next notDots =>
      rw [if_neg notDots, added.now.yafs.rep.lookupName_eq]
      rw [added.before.yafs.rep.lookupName_eq] at stepped
      obtain rfl := Except.ok.inj stepped
      have tag := keyTag_dirEntryKey start comp
      have bound := entryIn_bound live
      have apart : entryIn bindings start comp ≠ inode := fun same =>
        added.fresh (dirEntryKey start comp) (by rw [dirEdges_key, bound, same])
      have boundNow := (added.others tag apart).mp bound
      conv_lhs => rw [entryIn, boundNow, Option.getD_some]

theorem lookupPath_kept {path : CString} {found : Nat}
    (looked : lookupPath state.yafs.device state.yafs.rootLba path = .ok found)
    (live : found ≠ 0) : lookupPath after.yafs.device after.yafs.rootLba path = .ok found := by
  rw [lookupPath_eq] at looked ⊢
  exact foldPath_live added.pathStep_kept looked live

end

theorem lookupPath_new {parent : Nat} {name : CString}
    (added : Added state after height height' bindings bindings' (dirEntryKey parent name) inode)
    {path : CString} (target : parentOf state (some path) = .ok (some (parent, name)))
    (missing : lookupPath state.yafs.device state.yafs.rootLba path = .ok 0) {found : Nat}
    (looked : lookupPath after.yafs.device after.yafs.rootLba path = .ok found)
    (live : found ≠ 0) : found = inode := by
  obtain ⟨_, dir, isPath, split, toParent, parentLive⟩ := parentOf_split target
  cases isPath
  rw [lookupPath_split split toParent parentLive] at missing
  rw [lookupPath_split split (added.lookupPath_kept toParent parentLive) parentLive] at looked
  unfold pathStep at missing looked
  split at missing
  next => exact absurd (Except.ok.inj missing) parentLive
  next notSkip =>
    rw [if_neg notSkip] at looked
    split at missing
    next dots =>
      rw [if_pos dots] at looked
      by_cases same : parent = inode
      · -- Only the new entry leads to the directory itself.
        obtain ⟨above, upward, origin⟩ := added.now.yafs.rep.lookupParent_spec parent
        obtain rfl := Except.ok.inj (upward.symm.trans looked)
        rcases origin with ⟨isRoot, _⟩ | zero | ⟨entry, tag, bound, rfl⟩
        · exact absurd (same.symm.trans isRoot) added.notRoot
        · exact absurd zero live
        · rw [added.same entry tag] at bound
          obtain ⟨rfl, _⟩ | ⟨_, old⟩ := RootedTree.update_cases bound
          · rw [keyParent_dirEntryKey (added.before.lookupPath_lt toParent parentLive), same]
          · exact absurd (by rw [dirEdges, if_pos tag, old, same]) (added.fresh entry)
      · rw [added.lookupParent_eq same, missing] at looked
        exact absurd (Except.ok.inj looked).symm live
    next notDots =>
      rw [if_neg notDots, added.now.yafs.rep.lookupName_eq, entryIn,
        added.same _ (keyTag_dirEntryKey parent name), update_self] at looked
      exact (Except.ok.inj looked).symm

end Added

theorem createFileYafs_added (inv : Inv state height bindings) {path : CString} {after : State}
    (ran : createFileYafs state (some path) = .ok (after, true)) :
    ∃ parent name height' bindings', parentOf state (some path) = .ok (some (parent, name)) ∧
      Added state after height height' bindings bindings'
        (dirEntryKey parent name) state.nextIno := by
  obtain ⟨out, ranToo, outcome⟩ := createFileYafs_spec inv (some path)
  obtain rfl := Except.ok.inj (ranToo.symm.trans ran)
  cases outcome with
  | @ran parent name _ target outcome =>
    obtain ⟨_, impossible⟩ | ⟨unbound, yafs, ok, isOut, outcome⟩ := outcome
    · cases impossible
    cases isOut
    have isEntry := keyTag_dirEntryKey parent name
    have asks : Call.createFile (some path) = .mkdir (some path) ∨
        Call.createFile (some path) = .createFile (some path) ∧
          bindings (dirEntryKey parent name) = none := .inr ⟨rfl, unbound⟩
    obtain ⟨height', bindings', inv', _, _⟩ := inv.make asks target outcome
    cases outcome with
    | made _ yafsInv frame rooted grown =>
      have room : state.yafs.device.nextFreeBlock < ramdiskBlocks :=
        Nat.lt_of_lt_of_le grown yafsInv.rep.limit
      obtain ⟨fresh, notRoot⟩ := inv.next_new room
      refine ⟨parent, name, height', bindings', target, inv, inv', isEntry, unbound, fresh, notRoot,
        fun key tag => ?_⟩
      -- Both invariants are about one tree, so they have the same bindings.
      have agree := (inv'.yafs.rep.lookup key).symm.trans (yafsInv.rep.lookup key)
      have apart : key ≠ inodeKey state.nextIno :=
        key_ne_of_tag (by rw [tag, keyTag_inodeKey]; decide)
      rw [Except.ok.inj agree]
      by_cases here : key = dirEntryKey parent name
      · rw [here, update_self, update_self]
      · rw [update_of_ne here, update_of_ne here, update_of_ne apart]

/-- A file made at the path is below `/sys`, or its entry leads to `/sys` or `/boot`. -/
def MakesProtected (state : State) (path : CString) : Prop :=
  ∃ parent name, parentOf state (some path) = .ok (some (parent, name)) ∧
    (BelowSys state parent ∨ dirEntryKey parent name = sysKey ∨ dirEntryKey parent name = bootKey)

/-- The path leads to a protected inode, or to none and the flags ask for a file that is
protected. -/
def LeadsToProtected (state : State) (path : CString) (flags : Nat) : Prop :=
  (∃ inode, InodeOf state path inode ∧ Protected state inode) ∨
  (lookupPath state.yafs.device state.yafs.rootLba path = .ok 0 ∧ flags &&& oCreat ≠ 0 ∧
    MakesProtected state path)

theorem openInode_protected (inv : Inv state height bindings) {after : State} {path : CString}
    {flags : Nat} (ran : openInode state path flags = .ok (after, some inode)) :
    ∃ height' bindings', Inv after height' bindings' ∧
      (ProtectedIn bindings' inode ↔ LeadsToProtected state path flags) := by
  unfold LeadsToProtected
  obtain ⟨rfl, found⟩ | ⟨missing, asked, made, created, found⟩ := openInode_cases ran
  · obtain ⟨looked, live⟩ := found inode rfl
    refine ⟨height, bindings, inv, ?_⟩
    constructor
    · intro isProtected
      exact .inl ⟨inode, ⟨looked, live⟩, inv.protected_iff.mpr isProtected⟩
    · rintro (⟨other, ⟨looked', _⟩, isProtected⟩ | ⟨missing, _⟩)
      · cases looked.symm.trans looked'
        exact inv.protected_iff.mp isProtected
      · cases looked.symm.trans missing
        exact absurd rfl live
  · obtain ⟨rfl, looked, live⟩ := found inode rfl
    obtain ⟨parent, name, height', bindings', target, added⟩ := createFileYafs_added inv created
    obtain rfl := added.lookupPath_new target missing looked live
    obtain ⟨_, _, _, _, toParent, parentLive⟩ := parentOf_split target
    refine ⟨height', bindings', added.now, ?_⟩
    rw [added.same.protectedIn_iff, protectedIn_new added.isEntry added.unbound added.fresh,
      keyParent_dirEntryKey (inv.lookupPath_lt toParent parentLive), ← inv.belowSys_iff]
    constructor
    · intro isProtected
      exact .inr ⟨missing, asked, parent, name, target, isProtected⟩
    · rintro (⟨other, ⟨looked', otherLive⟩, _⟩ | ⟨_, _, parent', name', target', isProtected⟩)
      · cases missing.symm.trans looked'
        exact absurd rfl otherLive
      · cases target.symm.trans target'
        exact isProtected

theorem Inv.none_protected (inv : Inv state height bindings)
    (unmounted : state.yafs.rootLba = 0) : ¬ ProtectedIn bindings inode := by
  intro isProtected
  obtain ⟨key, _, bound⟩ := isProtected.bound
  exact inv.yafs.rep.rooted_of_bound key (by simp [bound]) unmounted

theorem Inv.leads_nowhere (inv : Inv state height bindings) (unmounted : state.yafs.rootLba = 0)
    {path : CString} {flags : Nat} : ¬ LeadsToProtected state path flags := by
  rintro (⟨inode, _, isProtected⟩ | ⟨_, _, parent, name, target, _⟩)
  · exact inv.none_protected unmounted (inv.protected_iff.mp isProtected)
  · simp [parentOf, unmounted, pure_eq_ok] at target

variable {s s' : FdState} {path : CString} {flags fd : Nat}

/-- The descriptor that an `open` of the path returned is that of a protected inode. -/
def OpenedProtected (s : FdState) (path : CString) (fd : Nat) : Prop :=
  routedTo path = none ∧
    ∃ slot : Fin maxFds, slot.val = fd ∧ Protected s.vfs (s.fdTable slot).yafsInode

/-- The path goes to a special filesystem, or does not lead to protection. -/
def AvoidsProtected (state : State) (path : CString) (flags : Nat) : Prop :=
  routedTo path = none → ¬ LeadsToProtected state path flags

theorem openYafs_protected (inv : Inv s.vfs height bindings)
    (ran : openYafs s path flags = .ok (s', some fd)) :
    (∃ slot : Fin maxFds, slot.val = fd ∧ Protected s'.vfs (s'.fdTable slot).yafsInode) ↔
      LeadsToProtected s.vfs path flags := by
  obtain ⟨_, vfs, opened, ⟨_, impossible, _⟩ | ⟨inode, vfs', ready, rfl, truncated, ends⟩⟩ :=
    openYafs_ok ran
  · cases impossible
  obtain ⟨_, impossible, _⟩ | ⟨_, offset, ran⟩ := ends
  · cases impossible
  obtain ⟨_, _, inv₁, leads⟩ := openInode_protected inv opened
  obtain ⟨_, _, inv₂, same⟩ := truncated.kept inv₁
  obtain ⟨impossible, _⟩ | ⟨slot, _, isFd, entry, sameVfs, _⟩ := openDescriptor_cases rfl ran
  · cases impossible
  cases isFd
  rw [← leads, ← same.protectedIn_iff, ← inv₂.protected_iff, sameVfs]
  constructor
  · rintro ⟨other, isSlot, isProtected⟩
    obtain rfl := Fin.ext isSlot
    rwa [entry] at isProtected
  · intro isProtected
    refine ⟨slot, rfl, ?_⟩
    rwa [entry]

theorem openRamfs_unprotected (inv : Inv s.vfs height bindings)
    (unmounted : s.vfs.yafs.rootLba = 0) (ran : openRamfs s path flags = (s', some fd))
    (slot : Fin maxFds) : ¬ Protected s'.vfs (s'.fdTable slot).yafsInode := by
  rw [openRamfs_vfs ran, inv.protected_iff]
  exact inv.none_protected unmounted

theorem vfsOpen_protected (sound : Sound s.vfs) {env : Surroundings}
    (ran : vfsOpen s env path flags = .ok (s', some fd)) :
    OpenedProtected s' path fd ↔ routedTo path = none ∧ LeadsToProtected s.vfs path flags := by
  obtain ⟨height, bindings, inv⟩ := sound
  refine and_congr_right fun plain => ?_
  unfold vfsOpen at ran
  split at ran
  next => cases ran
  next =>
    split at ran
    next => cases ran
    next =>
      rw [plain] at ran
      dsimp only at ran
      split at ran
      next => exact openYafs_protected inv ran
      next unmounted =>
        have noTree := not_not.mp unmounted
        refine iff_of_false ?_ (inv.leads_nowhere noTree)
        rintro ⟨slot, _, isProtected⟩
        exact openRamfs_unprotected inv noTree (Except.ok.inj ran) slot isProtected

theorem vfsOpen_turnedAway {env : Surroundings} (away : turnedAway env path) :
    vfsOpen s env path flags = .ok (s, none) := by
  rw [vfsOpen]
  split
  · rfl
  · exact if_pos away

/-- A process other than root opens nothing where the spelling of its path turns it away. Elsewhere
it opens nothing protected exactly when its path avoids protection. -/
theorem open_unprotected_iff (blocks : Nat → Block) :
    ∃ start, boot blocks = .ok start ∧
      ∀ calls s, Steps SystemStep (initialFds start) calls s →
      ∀ env euid path flags, env.euid = some euid → euid ≠ 0 →
        (turnedAway env path → vfsOpen s env path flags = .ok (s, none)) ∧
        ∀ s' fd, vfsOpen s env path flags = .ok (s', some fd) →
          (¬ OpenedProtected s' path fd ↔ AvoidsProtected s.vfs path flags) := by
  obtain ⟨start, bindings, booted, built, next, _⟩ := boot_built blocks
  refine ⟨start, booted, fun calls s run env euid path flags _ _ =>
    ⟨vfsOpen_turnedAway, fun s' fd ran => ?_⟩⟩
  have sound := systemSteps_sound ⟨0, bindings, built.inv_boot next⟩ run
  rw [vfsOpen_protected sound ran, AvoidsProtected, not_and]

/-- A call made by user 1000, with no processes, sessions or drives around. -/
def bareUser : Surroundings := { bareRoot with euid := some 1000 }

/-- A process of user 1000 opens `//sys` and gets a descriptor of the inode of `/sys`. -/
theorem open_doubled_slash :
    ∃ start s', boot (fun _ => .data fun _ => 0) = .ok start ∧
      vfsOpen (initialFds start) bareUser (cstr "//sys") oRdonly = .ok (s', some 0) ∧
      (s'.fdTable 0).yafsInode = 14 ∧ InodeOf s'.vfs (cstr "/sys") 14 ∧
      OpenedProtected s' (cstr "//sys") 0 := by
  obtain ⟨start, bindings, booted, built, next, ready, _⟩ :=
    boot_built (fun _ => .data fun _ => 0)
  have inv := built.inv_boot next
  have sys : bindings (dirEntryKey 1 (cstr "sys")) = some 14 := by
    rw [built.names _ (keyTag_dirEntryKey 1 _)]
    exact fhsFacts.sys
  have isSys : InodeOf start (cstr "/sys") 14 :=
    (inv.inodeOf_top (by decide) (by decide)).mpr sys
  have found : InodeOf start (cstr "//sys") 14 := by
    refine ⟨?_, by decide⟩
    have parts : components (cstr "//sys") = [[], [], cstr "sys"] := by decide
    rw [lookupPath_eq, parts, ← isSys.1, lookupPath_eq,
      show components (cstr "/sys") = [[], cstr "sys"] by decide]
    rfl
  have admitted : ¬ turnedAway bareUser (cstr "//sys") := by
    unfold turnedAway
    decide
  have scanned : scanFds (initialFds start) 0 0 maxFds = some 0 :=
    scanFds_here rfl (Nat.zero_le _) rfl
  have keeps : oRdonly &&& oTrunc = 0 := by decide
  have fromStart : oRdonly &&& oAppend = 0 := by decide
  have opened := vfsOpen_found ready built.rooted admitted (by decide) found keeps fromStart scanned
  refine ⟨start, _, booted, opened, rfl, isSys, rfl, 0, rfl, ?_⟩
  exact .inl ⟨14, isSys, .refl⟩

end M4KK1.Vfs
