import Mathlib.Data.List.Nodup
import M4KK1.Lib.RootedTree
import M4KK1.Vfs.Atomic

/-!
# The shape of the directory tree

Nothing in `mkrn_yafs_unlink` or `mkrn_yafs_rename` keeps the entries a tree.
-/

namespace M4KK1.Vfs

open Lib Yafs Relation Function

/-- The directory entries of a state: the inode number a key leads to. -/
def entries (state : State) (key : Nat) : Option Nat :=
  if keyTag key = ksDirEntry then
    match btreeLookup state.yafs.device state.yafs.rootLba key with
    | .ok found => found
    | .error _ => none
  else none

/-- The directories are a tree below the root. -/
def TreeShape (state : State) : Prop := RootedTree.IsTree keyParent 1 (entries state)

def HasEntries (state : State) (inode : Nat) : Prop :=
  ∃ key child, entries state key = some child ∧ keyParent key = inode

/-- `inode` is `top`, or hangs below it. -/
def Below (state : State) (top inode : Nat) : Prop :=
  ReflTransGen (RootedTree.Edge keyParent (entries state)) top inode

/-- What loses its entry has no entries of its own, or there are too few blocks; a `rename` does not
go below what it moves. -/
def KeepsTree (state : State) : Call → Prop
  | .mkdir path => ∀ parent name child, parentOf state path = .ok (some (parent, name)) →
      resolve state parent name = .ok child → child ≠ 0 →
      freeBlocks state.yafs.device <
          mkdirOverwriteCost state.yafs (btreeHeight state.yafs) state.nextIno ∨
        ¬ HasEntries state child
  | .unlink path | .rmdir path => ∀ parent name child,
      parentOf state path = .ok (some (parent, name)) →
      resolve state parent name = .ok child → child ≠ 0 →
      freeBlocks state.yafs.device < btreeHeight state.yafs + 1 ∨ ¬ HasEntries state child
  | .rename oldPath newPath => Meets state (.rename oldPath newPath) ∧
      ∀ oldParent oldName newParent newName child,
        parentOf state oldPath = .ok (some (oldParent, oldName)) →
        parentOf state newPath = .ok (some (newParent, newName)) →
        resolve state oldParent oldName = .ok child → child ≠ 0 →
        resolve state newParent newName = .ok 0 →
        freeBlocks state.yafs.device <
            insertCost state.yafs (btreeHeight state.yafs) (dirEntryKey newParent newName) ∨
          ¬ Below state child newParent
  | _ => True

/-- The directory entries among the bindings. -/
def dirEdges (bindings : Nat → Option Nat) (key : Nat) : Option Nat :=
  if keyTag key = ksDirEntry then bindings key else none

variable {state : State} {height : Nat} {bindings bindings' : Nat → Option Nat}

theorem Inv.entries_eq (inv : Inv state height bindings) : entries state = dirEdges bindings := by
  funext key
  unfold entries dirEdges
  rw [inv.yafs.rep.lookup]

theorem dirEdges_tag {key child : Nat} (edge : dirEdges bindings key = some child) :
    keyTag key = ksDirEntry ∧ bindings key = some child := by
  unfold dirEdges at edge
  split at edge
  next tag => exact ⟨tag, edge⟩
  next => cases edge

theorem dirEdges_key {parent : Nat} {name : CString} :
    dirEdges bindings (dirEntryKey parent name) = bindings (dirEntryKey parent name) :=
  if_pos (keyTag_dirEntryKey parent name)

theorem SameEntries.dirEdges_eq (same : SameEntries bindings bindings') :
    dirEdges bindings' = dirEdges bindings := by
  funext key
  unfold dirEdges
  split
  next tag => exact same key tag
  next => rfl

theorem dirEdges_update {key : Nat} (tag : keyTag key = ksDirEntry) (value : Option Nat) :
    dirEdges (update bindings key value) = update (dirEdges bindings) key value := by
  funext probe
  unfold dirEdges
  by_cases same : probe = key
  · rw [same, if_pos tag, update_self, update_self]
  · rw [update_of_ne same, update_of_ne same]

section

variable (inv : Inv state height bindings)

include inv

theorem Inv.reached_lt {inode : Nat}
    (path : RootedTree.Reached keyParent 1 (dirEdges bindings) inode) : inode < 2 ^ 44 := by
  have limit : inodeLimit < 2 ^ 44 := by decide
  rcases path.cases with isRoot | ⟨key, edge⟩
  · omega
  · obtain ⟨tag, bound⟩ := dirEdges_tag edge
    have := (inv.yafs.filed.entry tag bound).2
    omega

theorem Inv.pathStep_reached
    (tree : RootedTree.IsTree keyParent 1 (dirEdges bindings)) {inode found : Nat} {comp : CString}
    (start : RootedTree.Reached keyParent 1 (dirEdges bindings) inode)
    (stepped : pathStep (lookupName state.yafs.device state.yafs.rootLba)
      (lookupParent state.yafs.device state.yafs.rootLba) inode comp = .ok found)
    (live : found ≠ 0) : RootedTree.Reached keyParent 1 (dirEdges bindings) found := by
  unfold pathStep at stepped
  split at stepped
  next =>
    obtain rfl := Except.ok.inj stepped
    exact start
  next =>
    split at stepped
    next =>
      obtain ⟨parent, looked, origin⟩ := inv.yafs.rep.lookupParent_spec inode
      obtain rfl := Except.ok.inj (looked.symm.trans stepped)
      rcases origin with ⟨_, rfl⟩ | zero | ⟨key, tag, bound, rfl⟩
      · exact .refl
      · exact absurd zero live
      · have edge : dirEdges bindings key = some inode := by rw [dirEdges, if_pos tag, bound]
        exact tree.reached edge
    next =>
      rw [inv.yafs.rep.lookupName_eq] at stepped
      obtain rfl := Except.ok.inj stepped
      refine start.tail ⟨dirEntryKey inode comp, ?_, ?_⟩
      · exact keyParent_dirEntryKey (inv.reached_lt start) comp
      · rw [dirEdges_key, entryIn_bound live]

theorem Inv.parentOf_reached
    (tree : RootedTree.IsTree keyParent 1 (dirEdges bindings)) {path : Option CString}
    {parent : Nat} {name : CString} (target : parentOf state path = .ok (some (parent, name))) :
    RootedTree.Reached keyParent 1 (dirEdges bindings) (keyParent (dirEntryKey parent name)) ∧
      keyParent (dirEntryKey parent name) = parent := by
  have reached : RootedTree.Reached keyParent 1 (dirEdges bindings) parent := by
    obtain ⟨_, dir, -, -, looked, live⟩ := parentOf_split target
    rw [lookupPath_eq] at looked
    exact foldPath_induction (fun start stepped live =>
      inv.pathStep_reached tree start stepped live)
      .refl looked live
  rw [keyParent_dirEntryKey (inv.reached_lt reached)]
  exact ⟨reached, rfl⟩

theorem Inv.leaf {inode : Nat} (none : ¬ HasEntries state inode)
    (key child : Nat) (below : keyParent key = inode) : dirEdges bindings key ≠ some child :=
  fun edge => none ⟨key, child, by rw [inv.entries_eq, edge], below⟩

theorem Inv.next_new (room : state.yafs.device.nextFreeBlock < ramdiskBlocks) :
    (∀ key, dirEdges bindings key ≠ some state.nextIno) ∧ state.nextIno ≠ 1 := by
  have fresh := inv.fresh room
  have started := fresh.started
  refine ⟨fun key edge => ?_, by omega⟩
  obtain ⟨tag, bound⟩ := dirEdges_tag edge
  have := fresh.entry tag bound
  omega

theorem performed_keepsTree {call : Call}
    (tree : RootedTree.IsTree keyParent 1 (dirEdges bindings)) (keeps : KeepsTree state call)
    (effect : EntryEffect state height bindings call bindings') :
    RootedTree.IsTree keyParent 1 (dirEdges bindings') := by
  have free := inv.freeBlocks_eq
  have isHeight := inv.yafs.rep.btreeHeight_eq
  have resolved : ∀ {parent name child}, bindings (dirEntryKey parent name) = some child →
      resolve state parent name = .ok child ∧ child ≠ 0 := by
    intro parent name child bound
    have positive := (inv.yafs.filed.entry (keyTag_dirEntryKey parent name) bound).1
    refine ⟨?_, by omega⟩
    rw [inv.resolve_eq, entryIn, bound, Option.getD_some]
  cases effect with
  | kept same => rwa [same.dirEdges_eq]
  | @made _ _ parent name _ asks target room unbound record same =>
    obtain ⟨fresh, notRoot⟩ := inv.next_new room
    rw [same.dirEdges_eq, dirEdges_update (keyTag_dirEntryKey parent name)]
    exact tree.add (dirEdges_key.trans unbound) (inv.parentOf_reached tree target).1 fresh notRoot
  | @overwritten _ parent name _ target bound fits room same =>
    obtain ⟨fresh, notRoot⟩ := inv.next_new room
    obtain ⟨child, isChild⟩ := Option.ne_none_iff_exists'.mp bound
    obtain ⟨found, live⟩ := resolved isChild
    have leaf : ¬ HasEntries state child := by
      rcases keeps parent name child target found live with short | leaf
      · rw [isHeight] at short
        omega
      · exact leaf
    rw [same.dirEdges_eq, dirEdges_update (keyTag_dirEntryKey parent name)]
    exact tree.replace (dirEdges_key.trans isChild) (inv.leaf leaf) fresh notRoot
  | @removed _ _ parent name _ asks target bound fits same =>
    obtain ⟨child, isChild⟩ := Option.ne_none_iff_exists'.mp bound
    obtain ⟨found, live⟩ := resolved isChild
    have empty : freeBlocks state.yafs.device < btreeHeight state.yafs + 1 ∨
        ¬ HasEntries state child := by
      rcases asks with rfl | rfl
      · exact keeps parent name child target found live
      · exact keeps parent name child target found live
    have leaf : ¬ HasEntries state child := by
      rcases empty with short | leaf
      · rw [isHeight] at short
        omega
      · exact leaf
    rw [same.dirEdges_eq, dirEdges_update (keyTag_dirEntryKey parent name)]
    exact tree.remove (dirEdges_key.trans isChild) (inv.leaf leaf)
  | doubled source target bound unclean same =>
    exact absurd ((meets_rename_iff inv source target).mp keeps.1) unclean
  | @moved _ _ oldParent newParent oldName newName child _ source target bound unbound fits same =>
    obtain ⟨reached, isParent⟩ := inv.parentOf_reached tree target
    obtain ⟨found, live⟩ := resolved bound
    have newFree : resolve state newParent newName = .ok 0 := by
      rw [inv.resolve_eq, entryIn, unbound, Option.getD_none]
    have outside : ¬ ReflTransGen (RootedTree.Edge keyParent (dirEdges bindings)) child
        (keyParent (dirEntryKey newParent newName)) := by
      rw [isParent, ← inv.entries_eq]
      rcases keeps.2 _ _ _ _ child source target found live newFree with short | outside
      · rw [isHeight] at short
        omega
      · exact outside
    rw [same.dirEdges_eq, dirEdges_update (keyTag_dirEntryKey oldParent oldName),
      dirEdges_update (keyTag_dirEntryKey newParent newName)]
    exact tree.move (dirEdges_key.trans bound) (dirEdges_key.trans unbound) reached outside

end

theorem Built.isTree {yafs : BtreeState} (built : Built yafs bindings fhsNames 63) :
    RootedTree.IsTree keyParent 1 (dirEdges bindings) := by
  have member : ∀ {key child}, dirEdges bindings key = some child → (key, child) ∈ fhsNames := by
    intro key child edge
    obtain ⟨tag, bound⟩ := dirEdges_tag edge
    exact built.mem_names tag bound
  have edge : ∀ {child}, child ∈ fhsNames.map Prod.snd →
      ∃ key, dirEdges bindings key = some child := by
    intro child listed
    obtain ⟨⟨key, _⟩, isLink, rfl⟩ := List.mem_map.mp listed
    obtain ⟨tag, found⟩ := fhsFacts.keys _ isLink
    refine ⟨key, ?_⟩
    rw [dirEdges, if_pos tag, built.names key tag, found]
  -- A parent's number is smaller than its child's, so the root reaches every parent.
  have reached : ∀ child key, dirEdges bindings key = some child →
      RootedTree.Reached keyParent 1 (dirEdges bindings) (keyParent key) := by
    intro child
    induction child using Nat.strong_induction_on with
    | _ child ih =>
      intro key found
      rcases fhsFacts.parents _ (member found) with isRoot | listed
      · rw [isRoot]
        exact .refl
      · obtain ⟨above, foundAbove⟩ := edge listed
        have less := (fhsFacts.numbered _ (member found)).1
        exact (ih _ less above foundAbove).tail (.of_edges foundAbove)
  refine .of_root_free ?_ (fun found => reached _ _ found) ?_
  · intro first second child found found'
    have pairs := List.inj_on_of_nodup_map fhsFacts.once (member found) (member found') rfl
    exact (Prod.mk.inj pairs).1
  · intro key found
    have := fhsFacts.numbered _ (member found)
    simp only at this
    omega

theorem Built.treeShape (built : Built state.yafs bindings fhsNames 63)
    (inv : Inv state height bindings) :
    TreeShape state := by
  rw [TreeShape, inv.entries_eq]
  exact built.isTree

/-- The entries form a tree in every run whose calls all meet the condition. -/
theorem directory_tree_shape (blocks : Nat → Block) :
    ∃ start, boot blocks = .ok start ∧
      ∀ calls state, Steps (Guarded VfsStep KeepsTree) start calls state → TreeShape state := by
  obtain ⟨start, bindings, booted, built, next, _⟩ := boot_built blocks
  refine ⟨start, booted, fun calls state run => ?_⟩
  have sound : ∃ height bindings, Inv state height bindings ∧
      RootedTree.IsTree keyParent 1 (dirEdges bindings) := by
    refine run.invariant (fun state => ∃ height bindings, Inv state height bindings ∧
      RootedTree.IsTree keyParent 1 (dirEdges bindings)) ?_
      ⟨0, bindings, built.inv_boot next, built.isTree⟩
    rintro before call after ⟨height, bindings, inv, tree⟩ ⟨keeps, step⟩
    obtain ⟨height', bindings', inv', _, effect⟩ := step.effect inv
    exact ⟨height', bindings', inv', performed_keepsTree inv tree keeps effect⟩
  obtain ⟨height, bindings, inv, tree⟩ := sound
  rwa [TreeShape, inv.entries_eq]

/-- `rmdir("/bin")`, whose directory is empty, and a new file. -/
theorem directory_tree_shape_empty : ∃ start state, boot (fun _ => .zero) = .ok start ∧
    Steps (Guarded VfsStep KeepsTree) start [.rmdir (some (cstr "/bin")),
      .createFile (some (cstr "/f"))] state ∧
    TreeShape state := by
  obtain ⟨start, booted, shaped⟩ := directory_tree_shape fun _ => .zero
  obtain ⟨other, bindings, booted', built, next, ready, _⟩ := boot_built fun _ => .zero
  cases booted.symm.trans booted'
  have inv := built.inv_boot next
  have target : parentOf start (some (cstr "/bin")) = .ok (some (1, cstr "bin")) :=
    built.parentOf_eq ready (by decide) (show pathIn fhsNames (cstr "/") = .ok 1 from rfl)
      Nat.one_ne_zero
  have keeps : KeepsTree start (.rmdir (some (cstr "/bin"))) := by
    intro parent name child target' resolved _
    obtain ⟨rfl, rfl⟩ := Prod.mk.inj (Option.some.inj (Except.ok.inj (target.symm.trans target')))
    have isBin : resolve start 1 (cstr "bin") = .ok 2 := by
      rw [resolve, inv.yafs.rep.lookupName_eq, entryIn, built.names _ (keyTag_dirEntryKey 1 _),
        fhsFacts.bin]
      rfl
    cases isBin.symm.trans resolved
    refine .inr ?_
    rintro ⟨key, grandchild, entry, below⟩
    have none : ∀ link ∈ fhsNames, keyParent link.1 ≠ 2 := by decide +kernel
    rw [inv.entries_eq, dirEdges] at entry
    split at entry
    · next tag => exact none _ (built.mem_names tag entry) below
    · cases entry
  obtain ⟨⟨middle, removed⟩, ran, sound⟩ :=
    perform_sound ⟨0, bindings, inv⟩ (.rmdir (some (cstr "/bin")))
  obtain ⟨⟨state, made⟩, ran', _⟩ := perform_sound sound (.createFile (some (cstr "/f")))
  have run : Steps (Guarded VfsStep KeepsTree) start
      [.rmdir (some (cstr "/bin")), .createFile (some (cstr "/f"))] state :=
    (Steps.refl.step ⟨keeps, removed, ran⟩).step ⟨trivial, made, ran'⟩
  exact ⟨start, state, booted, run, shaped _ _ run⟩

/-- `rmdir("/sys")` succeeds and leaves the entries of `/sys` without a way to them. -/
theorem rmdir_sys_orphans :
    ∃ start after, boot (fun _ => .data fun _ => 0) = .ok start ∧ TreeShape start ∧
      perform start (.rmdir (some (cstr "/sys"))) = .ok (after, true) ∧ ¬ TreeShape after := by
  obtain ⟨start, bindings, booted, built, next, ready, used⟩ :=
    boot_built (fun _ => .data fun _ => 0)
  have inv := built.inv_boot next
  have sys : bindings (dirEntryKey 1 (cstr "sys")) = some 14 := by
    rw [built.names _ (keyTag_dirEntryKey 1 _)]
    exact fhsFacts.sys
  have proc : dirEdges bindings (dirEntryKey 14 (cstr "proc")) = some 26 := by
    rw [dirEdges_key, built.names _ (keyTag_dirEntryKey 14 _)]
    exact fhsFacts.proc
  have target : parentOf start (some (cstr "/sys")) = .ok (some (1, cstr "sys")) :=
    built.parentOf_eq ready (by decide) (show pathIn fhsNames (cstr "/") = .ok 1 from rfl)
      Nat.one_ne_zero
  obtain ⟨out, ran, outcome⟩ := unlink_spec inv (some (cstr "/sys"))
  cases outcome with
  | refused none => cases none.symm.trans target
  | ran target' outcome =>
    obtain ⟨rfl, rfl⟩ := Prod.mk.inj (Option.some.inj (Except.ok.inj (target.symm.trans target')))
    obtain ⟨yafs, ok, rfl, outcome⟩ := outcome
    generalize whole : (yafs, ok) = pair at outcome
    cases outcome with
    | missing unbound =>
      rw [sys] at unbound
      cases unbound
    | full _ _ _ short =>
      unfold ramdiskBlocks at short
      omega
    | removed _ _ frame _ yafsInv =>
      obtain ⟨rfl, rfl⟩ := Prod.mk.inj whole
      have entriesAfter : entries { start with yafs } =
          update (dirEdges bindings) (dirEntryKey 1 (cstr "sys")) none := by
        rw [← dirEdges_update (keyTag_dirEntryKey 1 _)]
        funext key
        unfold entries dirEdges
        rw [yafsInv.rep.lookup]
      have below := keyParent_dirEntryKey (show 14 < 2 ^ 44 by decide) (cstr "proc")
      refine ⟨start, _, booted, ?_, ran, ?_⟩
      · exact built.treeShape inv
      · rw [TreeShape, entriesAfter]
        exact built.isTree.lost (dirEdges_key.trans sys) below proc (by simp)

end M4KK1.Vfs
