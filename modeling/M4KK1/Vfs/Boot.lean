import M4KK1.Vfs.Runs

/-!
# The filesystem `kmain` mounts

The initial directories fill a single leaf, so each call takes a known number of blocks.
-/

namespace M4KK1.Vfs

open Lib Yafs Function List

/-- A path resolved in a list of entries, without `..`. -/
def pathIn (links : List (Nat × Nat)) (path : CString) : Except Fault Nat :=
  foldPath (fun inode name => .ok ((links.lookup (dirEntryKey inode name)).getD 0))
    (fun _ => .error .badImage) 1 (components path)

/-- The entries of a table, newest first; `none` for a missing parent or taken key. -/
def fhsLinks : List (Nat × Nat) → Nat → List FhsEntry → Option (List (Nat × Nat))
  | links, _, [] => some links
  | links, inode, entry :: rest =>
    match pathIn links (fhsSplit entry.path).1 with
    | .error _ => none
    | .ok parent =>
      if parent = 0 ∨ (links.lookup (dirEntryKey parent (fhsSplit entry.path).2)).isSome then none
      else fhsLinks ((dirEntryKey parent (fhsSplit entry.path).2, inode) :: links) (inode + 1) rest

/-- The directory entries of the initial tree. -/
def fhsNames : List (Nat × Nat) := (fhsLinks [] 2 fhsTree).getD []

/-- What is computed of the initial tree at once. -/
structure FhsFacts (links : List (Nat × Nat)) : Prop where
  keys : ∀ link ∈ links, keyTag link.1 = ksDirEntry ∧ links.lookup link.1 = some link.2
  numbered : ∀ link ∈ links, keyParent link.1 < link.2 ∧ 1 < link.2 ∧ link.2 < 63
  parents : ∀ link ∈ links, keyParent link.1 = 1 ∨ keyParent link.1 ∈ links.map Prod.snd
  once : (links.map Prod.snd).Nodup
  bin : links.lookup (dirEntryKey 1 (cstr "bin")) = some 2
  sys : links.lookup (dirEntryKey 1 (cstr "sys")) = some 14
  proc : links.lookup (dirEntryKey 14 (cstr "proc")) = some 26

instance (links : List (Nat × Nat)) : Decidable (FhsFacts links) :=
  decidable_of_iff (_ ∧ _ ∧ _ ∧ _ ∧ _ ∧ _ ∧ _)
    ⟨fun ⟨keys, numbered, parents, once, bin, sys, proc⟩ =>
        ⟨keys, numbered, parents, once, bin, sys, proc⟩,
      fun ⟨keys, numbered, parents, once, bin, sys, proc⟩ =>
        ⟨keys, numbered, parents, once, bin, sys, proc⟩⟩

theorem fhsLinks_fhsTree : fhsLinks [] 2 fhsTree = some fhsNames ∧ FhsFacts fhsNames := by
  have built : (fhsLinks [] 2 fhsTree).any (fun links => decide (FhsFacts links)) = true := by
    decide +kernel
  cases made : fhsLinks [] 2 fhsTree with
  | none =>
    rw [made] at built
    cases built
  | some links =>
    rw [made] at built
    rw [fhsNames, made, Option.getD_some]
    exact ⟨rfl, of_decide_eq_true built⟩

theorem fhsFacts : FhsFacts fhsNames := fhsLinks_fhsTree.2

/-- The self test and the initial tree use few blocks: the tree is one leaf. -/
def fewBlocks : Nat := btreeMaxKeys + 2

variable {state : BtreeState} {bindings : Nat → Option Nat}

theorem insert_small (rep : Represents state 0 bindings)
    (few : state.device.nextFreeBlock ≤ fewBlocks) (key value : Nat) :
    ∃ after, btreeInsert state key value = .ok ⟨after, true, some (bindings key).isNone⟩ ∧
      Represents after 0 (update bindings key (some value)) ∧
      Extends state.device after.device ∧
      after.device.nextFreeBlock = state.device.nextFreeBlock + 1 := by
  obtain ⟨cost, sameHeight⟩ := rep.insertCost_small few key
  obtain ⟨out, ran, outcome⟩ := btreeInsert_spec rep key value
  cases outcome with
  | failed frame short used =>
    rw [cost] at short
    unfold fewBlocks btreeMaxKeys at few
    unfold ramdiskBlocks at short
    omega
  | inserted after frame next newRep rooted =>
    rw [cost] at next
    rw [sameHeight] at newRep
    exact ⟨after, ran, newRep, frame, next⟩

theorem delete_small (rep : Represents state 0 bindings)
    (few : state.device.nextFreeBlock ≤ fewBlocks) (key : Nat) :
    ∃ out, btreeDelete state key = .ok out ∧ Represents out.state 0 (update bindings key none) ∧
      out.state.device.nextFreeBlock ≤ state.device.nextFreeBlock + 1 := by
  obtain ⟨out, ran, outcome⟩ := btreeDelete_spec rep key
  have unchanged : bindings key = none → update bindings key none = bindings :=
    fun unbound => by rw [← unbound, update_eq_self]
  cases outcome with
  | noTree noRoot unbound => exact ⟨_, ran, by rwa [unchanged unbound], Nat.le_succ _⟩
  | absent rooted unbound => exact ⟨_, ran, by rwa [unchanged unbound], Nat.le_succ _⟩
  | failed rooted bound frame short used =>
    unfold fewBlocks btreeMaxKeys at few
    unfold ramdiskBlocks at short
    omega
  | deleted after bound frame next newRep rooted => exact ⟨_, ran, newRep, Nat.le_of_eq next⟩

theorem foldOps_small (ops : List Op) (rep : Represents state 0 bindings)
    (few : state.device.nextFreeBlock + ops.length ≤ fewBlocks) :
    ∃ after, ops.foldlM (fun state op => do
        let out ← runOp state op
        return out.state) state = (.ok after : Except Fault BtreeState) ∧
      Represents after 0 (ops.foldl applyOp bindings) ∧
      after.device.nextFreeBlock ≤ state.device.nextFreeBlock + ops.length := by
  induction ops generalizing state bindings with
  | nil => exact ⟨state, rfl, rep, Nat.le_refl _⟩
  | cons op ops ih =>
    rw [length_cons] at few
    have first : ∃ out, runOp state op = .ok out ∧
        Represents out.state 0 (applyOp bindings op) ∧
        out.state.device.nextFreeBlock ≤ state.device.nextFreeBlock + 1 := by
      cases op with
      | insert key value =>
        obtain ⟨after, ran, newRep, _, next⟩ := insert_small rep (by omega) key value
        exact ⟨_, ran, newRep, Nat.le_of_eq next⟩
      | delete key => exact delete_small rep (by omega) key
    obtain ⟨out, ran, newRep, next⟩ := first
    obtain ⟨after, rest, afterRep, afterNext⟩ := ih newRep (by omega)
    refine ⟨after, ?_, afterRep, by rw [length_cons]; omega⟩
    rw [foldlM_cons, ran]
    exact rest

theorem yafsTestOps_empty : yafsTestOps.foldl applyOp (fun _ => none) = fun _ => none := by
  funext key
  simp only [yafsTestOps, foldl_cons, foldl_nil, applyOp, update_apply]
  split
  · rfl
  · split
    · rfl
    · split
      · rfl
      · split
        · rfl
        · split
          · rfl
          · simp_all

theorem yafsTest_spec (blocks : Nat → Block) :
    ∃ after, yafsTest blocks = .ok after ∧ YafsInv after 0 (fun _ => none) ∧
      after.device.nextFreeBlock ≤ 14 := by
  have start : Represents ⟨⟨blocks, 3, 0⟩, 0⟩ 0 fun _ => none :=
    ⟨by simp, by simp [ramdiskBlocks], .empty rfl⟩
  obtain ⟨after, ran, rep, next⟩ :=
    foldOps_small yafsTestOps start (show 3 + 11 ≤ fewBlocks by decide)
  rw [yafsTestOps_empty] at rep
  exact ⟨after, ran, ⟨rep, filed_empty _⟩, next⟩

theorem createInode_small {inodeNr : Nat} (inv : YafsInv state 0 bindings)
    (few : state.device.nextFreeBlock ≤ fewBlocks) (small : inodeNr < inodeLimit) (fileType : Nat)
    (name : CString) :
    ∃ after, createInode state inodeNr fileType name = .ok (after, true) ∧
      YafsInv after 0 (update bindings (inodeKey inodeNr) (some state.device.nextFreeBlock)) ∧
      Extends state.device after.device ∧
      after.device.nextFreeBlock = state.device.nextFreeBlock + 2 := by
  obtain ⟨cost, sameHeight⟩ := inv.rep.insertCost_small few (inodeKey inodeNr)
  obtain ⟨⟨after, ok⟩, ran, outcome⟩ :=
    createInode_spec inv (fun _ => inodeKey_lt small) fileType name
  cases outcome with
  | full frame used short =>
    rw [cost] at short
    unfold fewBlocks btreeMaxKeys at few
    unfold ramdiskBlocks at short
    omega
  | created frame next rooted afterInv =>
    rw [cost] at next
    rw [sameHeight] at afterInv
    exact ⟨after, ran, afterInv, frame, next⟩

theorem createInode_image {inodeNr fileType : Nat} {name : CString} {after : BtreeState}
    (inv : YafsInv state 0 bindings) (few : state.device.nextFreeBlock + 1 ≤ fewBlocks)
    (ran : createInode state inodeNr fileType name = .ok (after, true)) :
    after.device.blocks state.device.nextFreeBlock =
      .inode ⟨0, 0, 0, 0, 0, fileType, 1, inodeName name⟩ := by
  unfold createInode at ran
  cases devAllocBlock_stocked inv.rep.limit
    (.inode ⟨0, 0, 0, 0, 0, fileType, 1, inodeName name⟩) with
  | full used alloc =>
    rw [alloc] at ran
    cases ran
  | stored taken stored room alloc write frame next image =>
    have positive := inv.rep.positive
    have rep := inv.rep.frame frame.keepsNodes (by omega)
    obtain ⟨final, inserted, _, kept, _⟩ := insert_small rep (by dsimp only; omega)
      (inodeKey inodeNr) state.device.nextFreeBlock
    simp only [alloc, write, if_neg (show ¬state.device.nextFreeBlock = 0 by omega), inserted,
      ok_bind] at ran
    cases ran
    exact (kept.kept _ (by dsimp only; omega)).trans image

theorem createLink_small {parent child : Nat} {name : CString} (inv : YafsInv state 0 bindings)
    (few : state.device.nextFreeBlock ≤ fewBlocks)
    (unbound : bindings (dirEntryKey parent name) = none) (positive : 0 < child)
    (small : child < inodeLimit) :
    ∃ after, createLink state parent name child = .ok (after, true) ∧
      YafsInv after 0 (update bindings (dirEntryKey parent name) (some child)) ∧
      after.rootLba ≠ 0 ∧ Extends state.device after.device ∧
      after.device.nextFreeBlock = state.device.nextFreeBlock + 1 := by
  obtain ⟨cost, sameHeight⟩ := inv.rep.insertCost_small few (dirEntryKey parent name)
  obtain ⟨⟨after, ok⟩, ran, outcome⟩ := createLink_spec inv parent name positive small
  cases outcome with
  | full frame used short =>
    rw [cost] at short
    unfold fewBlocks btreeMaxKeys at few
    unfold ramdiskBlocks at short
    omega
  | overwritten bound => exact absurd unbound bound
  | linked _ frame next rooted afterInv =>
    rw [cost] at next
    rw [sameHeight] at afterInv
    exact ⟨after, ran, afterInv, rooted, frame, next⟩

/-- A list of entries, records for the inode numbers up to the next one, no files. -/
structure Built (state : BtreeState) (bindings : Nat → Option Nat) (links : List (Nat × Nat))
    (nextInode : Nat) : Prop where
  inv : YafsInv state 0 bindings
  rooted : state.rootLba ≠ 0
  names : ∀ key, keyTag key = ksDirEntry → bindings key = links.lookup key
  inodes : ∀ key, keyTag key = ksInode → (bindings key ≠ none ↔ 0 < key ∧ key < nextInode)
  noFiles : ∀ key, keyTag key = ksExtent → bindings key = none
  rootDir : ∃ lba record, bindings (inodeKey 1) = some lba ∧ lba < state.device.nextFreeBlock ∧
    state.device.blocks lba = .inode record ∧ record.fileType = ftDir

variable {links : List (Nat × Nat)} {nextInode : Nat}

theorem Built.lookupPath {found : Nat} {path : CString}
    (built : Built state bindings links nextInode) (looked : pathIn links path = .ok found) :
    lookupPath state.device state.rootLba path = .ok found := by
  rw [lookupPath_eq]
  refine foldPath_mono ?_ (by intro _ _ impossible; cases impossible) looked
  intro inode text value agreed
  obtain rfl := Except.ok.inj agreed
  rw [built.inv.rep.lookupName_eq, entryIn, built.names _ (keyTag_dirEntryKey inode text)]

theorem inodes_succ {lba : Nat} (small : nextInode < 2 ^ 60) (positive : 0 < nextInode)
    (inodes : ∀ key, keyTag key = ksInode → (bindings key ≠ none ↔ 0 < key ∧ key < nextInode))
    (key : Nat) (tag : keyTag key = ksInode) :
    update bindings (inodeKey nextInode) (some lba) key ≠ none ↔ 0 < key ∧ key < nextInode + 1 := by
  have whole : inodeKey nextInode = nextInode := by
    rw [inodeKey_eq, Nat.mod_eq_of_lt small]
  rw [whole]
  by_cases same : key = nextInode
  · subst same
    simp [positive]
  · rw [update_of_ne same, inodes key tag]
    omega

theorem createFhsEntry_built {parent : Nat} {entry : FhsEntry}
    (built : Built state bindings links nextInode) (two : 2 ≤ nextInode) (small : nextInode < 1000)
    (few : state.device.nextFreeBlock + 3 ≤ fewBlocks)
    (looked : pathIn links (fhsSplit entry.path).1 = .ok parent) (live : parent ≠ 0)
    (free : links.lookup (dirEntryKey parent (fhsSplit entry.path).2) = none) :
    ∃ after bindings', createFhsEntry state nextInode entry = .ok (after, true) ∧
      Built after bindings' ((dirEntryKey parent (fhsSplit entry.path).2, nextInode) :: links)
        (nextInode + 1) ∧
      after.device.nextFreeBlock = state.device.nextFreeBlock + 3 := by
  have limit : nextInode < inodeLimit := by
    unfold inodeLimit
    omega
  unfold createFhsEntry
  simp only
  rw [built.lookupPath looked, ok_bind, if_neg live]
  obtain ⟨middle, created, middleInv, middleFrame, middleNext⟩ :=
    createInode_small built.inv (by omega) limit
    entry.type (if entry.type = ftSymlink then entry.target.getD (fhsSplit entry.path).2
      else (fhsSplit entry.path).2)
  rw [created, ok_bind]
  simp only [Bool.true_eq_false, if_false]
  generalize (fhsSplit entry.path).2 = name at free ⊢
  have unbound : update bindings (inodeKey nextInode)
      (some state.device.nextFreeBlock) (dirEntryKey parent name) = none := by
    rw [update_of_ne (dirEntryKey_ne_inodeKey _ _ _),
      built.names _ (keyTag_dirEntryKey parent name), free]
  obtain ⟨after, linked, afterInv, rooted, frame, next⟩ :=
    createLink_small middleInv (by omega) unbound (by omega) limit
  refine ⟨after, _, linked, ⟨afterInv, rooted, ?_, ?_, ?_, ?_⟩, by omega⟩
  · intro key tag
    by_cases same : key = dirEntryKey parent name
    · simp [same]
    · have notInode : key ≠ inodeKey nextInode :=
        key_ne_of_tag (by rw [tag, keyTag_inodeKey]; decide)
      rw [update_of_ne same, update_of_ne notInode, built.names key tag, lookup_cons,
        beq_false_of_ne same]
  · intro key tag
    have notEntry : key ≠ dirEntryKey parent name :=
      key_ne_of_tag (by rw [tag, keyTag_dirEntryKey]; decide)
    rw [update_of_ne notEntry]
    exact inodes_succ (by omega) (by omega) built.inodes key tag
  · intro key tag
    have notEntry : key ≠ dirEntryKey parent name :=
      key_ne_of_tag (by rw [tag, keyTag_dirEntryKey]; decide)
    have notInode : key ≠ inodeKey nextInode :=
      key_ne_of_tag (by rw [tag, keyTag_inodeKey]; decide)
    rw [update_of_ne notEntry, update_of_ne notInode, built.noFiles key tag]
  · obtain ⟨lba, record, bound, allocated, image, isDir⟩ := built.rootDir
    have whole := (middleFrame.trans frame).kept lba allocated
    have notNew : inodeKey 1 ≠ inodeKey nextInode := by
      rw [inodeKey_eq, inodeKey_eq, Nat.mod_eq_of_lt (show nextInode < 2 ^ 60 by omega)]
      omega
    refine ⟨lba, record, ?_, by omega, whole.trans image, isDir⟩
    rw [update_of_ne (inodeKey_ne_dirEntryKey _ _ _), update_of_ne notNew, bound]

theorem createFhsLoop_built {entries : List FhsEntry} {final : List (Nat × Nat)}
    (built : Built state bindings links nextInode) (two : 2 ≤ nextInode)
    (small : nextInode + entries.length ≤ 1000)
    (few : state.device.nextFreeBlock + 3 * entries.length ≤ fewBlocks)
    (planned : fhsLinks links nextInode entries = some final) :
    ∃ after bindings', createFhsLoop state nextInode entries = .ok (after, true) ∧
      Built after bindings' final (nextInode + entries.length) ∧
      after.device.nextFreeBlock = state.device.nextFreeBlock + 3 * entries.length := by
  induction entries generalizing state bindings links nextInode with
  | nil =>
    obtain rfl := Option.some.inj planned
    exact ⟨state, bindings, rfl, built, rfl⟩
  | cons entry entries ih =>
    rw [length_cons] at small few
    unfold fhsLinks at planned
    cases looked : pathIn links (fhsSplit entry.path).1 with
    | error fault =>
      rw [looked] at planned
      cases planned
    | ok parent =>
      rw [looked] at planned
      simp only at planned
      split at planned
      next => cases planned
      next free =>
        rw [not_or, Option.not_isSome_iff_eq_none] at free
        obtain ⟨middle, map, added, middleBuilt, next⟩ := createFhsEntry_built built two
          (by omega) (by omega) looked free.1 free.2
        obtain ⟨after, final, ran, afterBuilt, afterNext⟩ :=
          ih middleBuilt (by omega) (by omega) (by omega) planned
        refine ⟨after, final, ?_, ?_, by rw [length_cons]; omega⟩
        · unfold createFhsLoop
          rw [added, ok_bind]
          exact ran
        · rw [length_cons, show nextInode + (entries.length + 1) =
            nextInode + 1 + entries.length by omega]
          exact afterBuilt

/-- Mounting builds the initial tree, whatever the device held. -/
theorem boot_built (blocks : Nat → Block) :
    ∃ state bindings, boot blocks = .ok state ∧ Built state.yafs bindings fhsNames 63 ∧
      state.nextIno = 1000 ∧ state.initialized = true ∧
      state.yafs.device.nextFreeBlock ≤ 199 := by
  obtain ⟨yafs, tested, testInv, testNext⟩ := yafsTest_spec blocks
  have small : 1 < inodeLimit := by decide
  obtain ⟨rooted, created, rootInv, _, rootNext⟩ := createInode_small testInv
    (by unfold fewBlocks btreeMaxKeys; omega) small ftDir (cstr "/")
  have hasRoot : rooted.rootLba ≠ 0 := rootInv.rep.rooted_of_bound (inodeKey 1) (by simp)
  have start : Built rooted (update (fun _ => none) (inodeKey 1)
      (some yafs.device.nextFreeBlock)) [] 2 := by
    refine ⟨rootInv, hasRoot, ?_, ?_, ?_, _, _, update_self _ _ _, by omega,
      createInode_image testInv (by unfold fewBlocks btreeMaxKeys; omega) created, rfl⟩
    · intro key tag
      exact update_of_ne (key_ne_of_tag (by rw [tag, keyTag_inodeKey]; decide)) _ _
    · exact inodes_succ (by decide) (by decide) fun key _ => by simp; omega
    · intro key tag
      exact update_of_ne (key_ne_of_tag (by rw [tag, keyTag_inodeKey]; decide)) _ _
  have size : fhsTree.length = 61 := rfl
  obtain ⟨final, bindings, ran, built, next⟩ := createFhsLoop_built start (Nat.le_refl _)
    (by rw [size]; decide) (by rw [size]; unfold fewBlocks btreeMaxKeys; omega)
    fhsLinks_fhsTree.1
  rw [size] at built next
  refine ⟨⟨final, 1000, true⟩, bindings, ?_, built, rfl, rfl, ?_⟩
  · unfold boot createFhs
    rw [tested, ok_bind, created, ok_bind]
    simp only [Bool.true_eq_false, if_false]
    rw [ran, ok_bind]
    rfl
  · simp only
    omega

theorem Built.mem_names {key inode : Nat}
    (built : Built state bindings links nextInode) (tag : keyTag key = ksDirEntry)
    (bound : bindings key = some inode) : (key, inode) ∈ links := by
  rw [built.names key tag] at bound
  obtain ⟨front, back, whole, _⟩ := lookup_eq_some_iff.mp bound
  simp [whole]

theorem Built.parentOf_eq {state : State} {parent : Nat}
    {path dir name : CString} (built : Built state.yafs bindings links nextInode)
    (ready : state.initialized = true) (split : splitParentName path = some (dir, name))
    (looked : pathIn links dir = .ok parent) (live : parent ≠ 0) :
    parentOf state (some path) = .ok (some (parent, name)) := by
  unfold parentOf
  simp only [ready, built.rooted, Bool.true_eq_false, or_self, if_false, split]
  rw [built.lookupPath looked, ok_bind, if_neg live]
  rfl

theorem Built.inv_boot {state : State} (built : Built state.yafs bindings fhsNames 63)
    (next : state.nextIno = 1000) : Inv state 0 bindings where
  yafs := built.inv
  fresh _ := by
    refine ⟨by omega, by omega, fun tag bound => ?_, fun {key inode} tag bound => ?_⟩
    · have := ((built.inodes _ tag).mp bound).2
      omega
    · have := (fhsFacts.numbered _ (built.mem_names tag bound)).2.2
      simp only at this
      omega

/-- Every state behind the boot is sound. -/
theorem mounted_sound {blocks : Nat → Block} {start state : State} {calls : List Call}
    (booted : boot blocks = .ok start) (run : Steps VfsStep start calls state) : Sound state := by
  obtain ⟨start', bindings, booted', built, next, _⟩ := boot_built blocks
  cases booted.symm.trans booted'
  exact steps_sound ⟨0, bindings, built.inv_boot next⟩ run

end M4KK1.Vfs
