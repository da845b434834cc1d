import M4KK1.Vfs.Boot
import M4KK1.Yafs.Ceiling

/-!
# A new file on the mounted filesystem

It gets inode number 1000, an empty record, and a tree of one leaf.
-/

namespace M4KK1.Vfs

open Lib Yafs Function

/-- A file without blocks, on a device that is nearly unused. -/
structure NewFile (state : State) (bindings : Nat → Option Nat) (inode lba : Nat) : Prop where
  inv : Inv state 0 bindings
  rooted : state.yafs.rootLba ≠ 0
  ready : state.initialized = true
  few : state.yafs.device.nextFreeBlock ≤ 202
  bound : bindings (inodeKey inode) = some lba
  image :
      ∃ name, state.yafs.device.blocks lba = .inode ⟨0, 0, 0, 0, newFileMode, ftRegFile, 1, name⟩
  noFiles : ∀ key, keyTag key = ksExtent → bindings key = none

theorem fhsNames_f : fhsNames.lookup (dirEntryKey 1 (cstr "f")) = none := by decide +kernel

theorem storeNewFile_small {yafs : BtreeState} {bindings : Nat → Option Nat}
    (inv : YafsInv yafs 0 bindings)
    (few : yafs.device.nextFreeBlock ≤ 199) (parent : Nat) (name : CString) (ino : Nat)
    (unbound : bindings (dirEntryKey parent name) = none) :
    ∃ after lba, storeNewFile yafs parent name ino = .ok (after, true) ∧
      Represents after 0 (update (update bindings (inodeKey ino) (some lba))
        (dirEntryKey parent name) (some ino)) ∧
      after.rootLba ≠ 0 ∧ after.device.nextFreeBlock ≤ 202 ∧
      after.device.blocks lba = .inode ⟨0, 0, 0, 0, newFileMode, ftRegFile, 1, inodeName name⟩ := by
  have positive := inv.rep.positive
  have room (state : BtreeState) (few : state.device.nextFreeBlock ≤ 202) :
      state.device.nextFreeBlock ≤ fewBlocks := le_trans few (by decide)
  cases devAllocBlock_stocked inv.rep.limit
      (.inode ⟨0, 0, 0, 0, newFileMode, ftRegFile, 1, inodeName name⟩) with
  | full used alloc =>
    unfold ramdiskBlocks at used
    omega
  | stored taken stored _ alloc write frame next image =>
    have rep := inv.rep.frame frame.keepsNodes (by unfold ramdiskBlocks; omega)
    obtain ⟨middle, inserted, middleRep, middleFrame, middleNext⟩ := insert_small rep
      (room _ (by dsimp only; omega)) (inodeKey ino) yafs.device.nextFreeBlock
    dsimp only at middleNext
    obtain ⟨after, linked, afterRep, afterFrame, afterNext⟩ := insert_small middleRep
      (room _ (by omega)) (dirEntryKey parent name) ino
    have stillUnbound : update bindings (inodeKey ino) (some yafs.device.nextFreeBlock)
        (dirEntryKey parent name) = none :=
      (update_of_ne (dirEntryKey_ne_inodeKey _ _ _) _ _).trans unbound
    have kept := afterFrame.kept yafs.device.nextFreeBlock (by omega)
    have keptMiddle := middleFrame.kept yafs.device.nextFreeBlock (by dsimp only; omega)
    refine ⟨after, yafs.device.nextFreeBlock, ?_, afterRep, ?_, by omega, ?_⟩
    · rw [storeNewFile, alloc]
      dsimp only
      rw [if_neg (by omega), write]
      dsimp only
      rw [inserted, ok_bind, if_neg Bool.noConfusion, linked, ok_bind, stillUnbound]
      rfl
    · exact afterRep.rooted_of_bound (inodeKey ino) (by simp)
    · rw [kept, keptMiddle, image]

theorem newFile (blocks : Nat → Block) : ∃ start state bindings lba, boot blocks = .ok start ∧
    Steps VfsStep start [.createFile (some (cstr "/f"))] state ∧
    NewFile state bindings 1000 lba := by
  obtain ⟨start, bindings, booted, built, next, ready, used⟩ := boot_built blocks
  have inv := built.inv_boot next
  have unbound : bindings (dirEntryKey 1 (cstr "f")) = none := by
    rw [built.names _ (keyTag_dirEntryKey 1 _), fhsNames_f]
  have target : parentOf start (some (cstr "/f")) = .ok (some (1, cstr "f")) :=
    built.parentOf_eq ready (by decide) (show pathIn fhsNames (cstr "/") = .ok 1 from rfl)
      Nat.one_ne_zero
  obtain ⟨after, lba, stored, rep, rooted, few, image⟩ :=
    storeNewFile_small inv.yafs used 1 (cstr "f") start.nextIno unbound
  have created : createFileYafs start (some (cstr "/f")) =
      .ok ({ start.takeIno with yafs := after }, true) := by
    rw [createFileYafs, target, ok_bind]
    dsimp only
    rw [yafsLookupName, if_neg (by decide), inv.yafs.rep.lookupName_eq, ok_bind,
      if_pos ((inv.yafs.filed.entryIn_eq_zero 1 (cstr "f")).mpr unbound), pure_eq_ok, ok_bind]
    dsimp only
    rw [stored, ok_bind]
    rfl
  have step : VfsStep start (.createFile (some (cstr "/f"))) { start.takeIno with yafs := after } :=
    ⟨true, created⟩
  obtain ⟨height', bindings', inv', _⟩ := step.effect inv
  have sameHeight : height' = 0 := inv'.yafs.rep.btreeHeight_eq.symm.trans rep.btreeHeight_eq
  have sameMap : bindings' = _ := funext fun key =>
    Except.ok.inj ((inv'.yafs.rep.lookup key).symm.trans (rep.lookup key))
  subst sameHeight sameMap
  rw [next] at inv'
  refine ⟨start, _, _, lba, booted, .step .refl step, inv', rooted, ready, few, ?_, ⟨_, image⟩,
    fun key tag => ?_⟩
  · rw [update_of_ne (inodeKey_ne_dirEntryKey _ _ _), update_self]
  · have notEntry : key ≠ dirEntryKey 1 (cstr "f") :=
      key_ne_of_tag (by rw [tag, keyTag_dirEntryKey]; decide)
    have notInode : key ≠ inodeKey 1000 := key_ne_of_tag (by rw [tag, keyTag_inodeKey]; decide)
    rw [update_of_ne notEntry, update_of_ne notInode, built.noFiles key tag]

theorem provide_small {yafs : BtreeState} {bindings : Nat → Option Nat}
    (rep : Represents yafs 0 bindings)
    {inode index : Nat} (few : yafs.device.nextFreeBlock + 2 ≤ fewBlocks)
    (missing : extentBlock (bindings (extentKey inode index)) = none) :
    ∃ after, provide yafs inode index = .ok (some after) ∧
      after.device.nextFreeBlock = yafs.device.nextFreeBlock + 2 ∧
      Represents after 0 (update bindings (extentKey inode index)
        (some (extentPack yafs.device.nextFreeBlock blocksPerExtent))) := by
  have positive := rep.positive
  have limit : fewBlocks < ramdiskBlocks := by decide
  cases devAllocBlock_stocked rep.limit (.data fun _ => 0) with
  | full used => omega
  | stored taken stored room alloc write frame next image =>
    have storedRep := rep.frame frame.keepsNodes (by omega)
    obtain ⟨after, inserted, afterRep, _, afterNext⟩ :=
      insert_small storedRep (by dsimp only; omega)
      (extentKey inode index) (extentPack yafs.device.nextFreeBlock blocksPerExtent)
    dsimp only at afterNext
    refine ⟨after, ?_, by omega, afterRep⟩
    rw [provide, rep.lookup, ok_bind, missing]
    dsimp only
    rw [fileNew, alloc]
    dsimp only
    rw [if_neg (by omega), write]
    dsimp only
    rw [inserted]
    rfl

theorem hasRoom_small {yafs : BtreeState} {bindings : Nat → Option Nat}
    (rep : Represents yafs 0 bindings)
    (inode : Nat) {count : Nat} (index : Nat)
    (few : yafs.device.nextFreeBlock + 2 * count ≤ fewBlocks) :
    HasRoom inode count yafs index := by
  induction count generalizing yafs bindings index with
  | zero => trivial
  | succ count ih =>
    cases block : extentBlock (bindings (extentKey inode index)) with
    | some lba =>
      refine ⟨yafs, ?_, ih rep (index + 1) (by omega)⟩
      rw [provide, rep.lookup, ok_bind, block]
      rfl
    | none =>
      obtain ⟨after, provided, next, afterRep⟩ := provide_small rep (by omega) block
      exact ⟨after, provided, ih afterRep (index + 1) (by omega)⟩

end M4KK1.Vfs

/-!
## Transfers across the block-index ceiling

In the mounted filesystem a transfer stays below the ceiling unless it crosses it and gets that far.
-/

namespace M4KK1.Vfs

open Lib Yafs

/-- A transfer stays below the ceiling unless it crosses it and has all blocks on its way. -/
theorem transfer_below_ceiling_iff {blocks : Nat → Block} {start state : State} {calls : List Call}
    (booted : boot blocks = .ok start) (run : Steps VfsStep start calls state)
    (inode offset : Nat) :
    (∀ size, ReadsBelow state.yafs inode offset size ↔ ¬ReadsOn state.yafs inode offset size) ∧
    ∀ buf, WritesBelow state.yafs inode offset buf ↔ ¬WritesOn state.yafs inode offset buf := by
  obtain ⟨height, bindings, inv⟩ := mounted_sound booted run
  exact ⟨readsBelow_iff inv.yafs inode offset, writesBelow_iff inv.yafs inode offset⟩

/-- A write that ends at the ceiling, and a read across it that finds no block. -/
theorem transfer_below_ceiling_last : ∃ start state, boot (fun _ => .zero) = .ok start ∧
    Steps VfsStep start [.createFile (some (cstr "/f"))] state ∧
    WritesBelow state.yafs 1000 (65535 * 4096) (List.replicate 4096 1) ∧
    ReadsBelow state.yafs 1000 (65535 * 4096) 8192 := by
  obtain ⟨start, state, bindings, lba, booted, run, new⟩ := newFile fun _ => .zero
  have both := transfer_below_ceiling_iff booted run 1000 (65535 * 4096)
  refine ⟨start, state, booted, run, (both.2 _).mpr ?_, (both.1 _).mpr ?_⟩
  · rintro ⟨⟨_, ends⟩, _⟩
    rw [List.length_replicate] at ends
    exact absurd ends (by decide)
  · rintro ⟨_, ⟨extent, found⟩, _⟩
    have missing := new.noFiles _ (keyTag_extentKey 1000 0)
    rw [new.inv.yafs.rep.lookup, missing] at found
    cases found

/-- A write of 4097 bytes to the last block of a new file puts the last of them into block 0. -/
theorem not_writes_below : ¬∀ (blocks : Nat → Block) (start state : State) (calls : List Call)
    (inode offset : Nat) (buf : List UInt8), boot blocks = .ok start →
    Steps VfsStep start calls state →
    WritesBelow state.yafs inode offset buf := by
  intro below
  obtain ⟨start, state, bindings, lba, booted, run, new⟩ := newFile fun _ => .zero
  have stays := below _ start state _ 1000 (65535 * 4096) (List.replicate 4097 1) booted run
  refine (writesBelow_iff new.inv.yafs _ _ _).mp stays ⟨⟨by decide, ?_⟩, ?_⟩
  · rw [List.length_replicate]
    decide
  · have few := new.few
    exact hasRoom_small new.inv.yafs.rep 1000 _
      (by unfold fewBlocks btreeMaxKeys maxFileBlocks dataBlockSize; omega)

end M4KK1.Vfs
