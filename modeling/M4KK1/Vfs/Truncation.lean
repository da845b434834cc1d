import M4KK1.Vfs.NewFile
import M4KK1.Yafs.Counted

/-!
# What a truncate leaves

Every extent lies below the `blocks` field, unless a write or a delete stops midway.
-/

namespace M4KK1.Vfs

open Lib Yafs

def IsFileCall : Call → Prop
  | .write .. | .truncate _ => True
  | _ => False

/-- A write to a number that fits a key, with room for its blocks; a truncate with blocks for its
deletes. -/
def KeepsCount (state : State) : Call → Prop
  | .write inode buf offset =>
    inode < 2 ^ 44 ∧ buf.length < 2 ^ 32 ∧ WriteCounts state.yafs inode offset buf.length
  | .truncate inode => TruncateFits state.yafs inode
  | _ => False

/-- A file without extents: nothing is bound for it, and a read at any offset returns 0 bytes. -/
def Emptied (yafs : BtreeState) (inode : Nat) : Prop :=
  (∀ key, keyTag key = ksExtent → inodeKey (keyParent key) = inodeKey inode →
    btreeLookup yafs.device yafs.rootLba key = .ok none) ∧
  ∀ offset size, readFileData yafs inode offset size = .ok ([], true)

/-- No file has an extent. -/
def NoExtents (yafs : BtreeState) : Prop :=
  ∀ key, keyTag key = ksExtent → btreeLookup yafs.device yafs.rootLba key = .ok none

section Names

variable {yafs after : BtreeState} {height : Nat} {bindings : Nat → Option Nat}

def BindsNone (bindings : Nat → Option Nat) : Prop :=
  ∀ key, keyTag key = ksExtent → bindings key = none

theorem BindsNone.noExtents (none : BindsNone bindings) (inv : YafsInv yafs height bindings) :
    NoExtents yafs :=
  fun key tag => by rw [inv.rep.lookup, none key tag]

theorem BindsNone.update (none : BindsNone bindings) {key : Nat} (tag : keyTag key ≠ ksExtent)
    (value : Option Nat) : BindsNone (Function.update bindings key value) :=
      fun other isExtent => by
  rw [Function.update_of_ne (key_ne_of_tag (by rw [isExtent]; exact tag.symm)), none other isExtent]

theorem entry_ne_extent (parent : Nat) (name : CString) :
    keyTag (dirEntryKey parent name) ≠ ksExtent := by
  rw [keyTag_dirEntryKey]
  decide

theorem inode_ne_extent (inode : Nat) : keyTag (inodeKey inode) ≠ ksExtent := by
  rw [keyTag_inodeKey]
  decide

theorem BindsNone.made (none : BindsNone bindings) {parent number : Nat} {name : CString}
    {ok : Bool}
    (outcome : MakeOutcome yafs height bindings (dirEntryKey parent name) number (after, ok)) :
    NoExtents after := by
  have notInode {key : Nat} (tag : keyTag key = ksExtent) : key ≠ inodeKey number :=
    key_ne_of_tag (by rw [tag]; exact (inode_ne_extent number).symm)
  have notEntry {key : Nat} (tag : keyTag key = ksExtent) : key ≠ dirEntryKey parent name :=
    key_ne_of_tag (by rw [tag]; exact (entry_ne_extent parent name).symm)
  generalize whole : (after, ok) = pair at outcome
  cases outcome with
  | full inv _ _ agrees =>
    cases whole
    exact BindsNone.noExtents (fun key tag =>
      (agrees key fun _ => notInode tag).trans (none key tag)) inv
  | overwritten _ _ inv _ _ _ _ agrees =>
    cases whole
    exact BindsNone.noExtents (fun key tag =>
      (agrees key (notInode tag) (notEntry tag)).trans (none key tag)) inv
  | made _ inv =>
    cases whole
    exact ((none.update (inode_ne_extent _) _).update (entry_ne_extent _ _) _).noExtents inv

theorem BindsNone.unlinked (none : BindsNone bindings) (inv : YafsInv yafs height bindings)
    {parent : Nat}
    {name : CString} {ok : Bool}
    (outcome : UnlinkOutcome yafs height bindings (dirEntryKey parent name) (after, ok)) :
    NoExtents after := by
  generalize whole : (after, ok) = pair at outcome
  cases outcome with
  | missing =>
    cases whole
    exact none.noExtents inv
  | full _ frame used =>
    cases whole
    exact none.noExtents (inv.frame frame.keepsKinds (Nat.le_of_eq used))
  | removed _ _ _ _ inv' =>
    cases whole
    exact (none.update (entry_ne_extent _ _) _).noExtents inv'

theorem BindsNone.renamed (none : BindsNone bindings) (inv : YafsInv yafs height bindings)
    {oldParent newParent : Nat} {oldName newName : CString} {ok : Bool}
    (outcome : RenameOutcome yafs height bindings (dirEntryKey oldParent oldName)
      (dirEntryKey newParent newName) (after, ok)) : NoExtents after := by
  generalize whole : (after, ok) = pair at outcome
  cases outcome with
  | missing =>
    cases whole
    exact none.noExtents inv
  | full _ frame used =>
    cases whole
    exact none.noExtents (inv.frame frame.keepsKinds (Nat.le_of_eq used))
  | overwritten _ _ _ _ _ inv' =>
    cases whole
    exact (none.update (entry_ne_extent _ _) _).noExtents inv'
  | stuck _ _ _ _ _ _ _ inv' =>
    cases whole
    exact (none.update (entry_ne_extent _ _) _).noExtents inv'
  | moved _ _ _ _ _ inv' =>
    cases whole
    exact ((none.update (entry_ne_extent _ _) _).update (entry_ne_extent _ _) _).noExtents inv'

end Names

variable {state : State} {height : Nat} {bindings : Nat → Option Nat}

theorem unlink_noExtents (inv : Inv state height bindings) (none : BindsNone bindings)
    (path : Option CString) :
    ∃ out, unlink state path = .ok out ∧ NoExtents out.1.yafs := by
  obtain ⟨out, ran, outcome⟩ := unlink_spec inv path
  refine ⟨out, ran, ?_⟩
  cases outcome with
  | refused => exact none.noExtents inv.yafs
  | ran _ outcome =>
    obtain ⟨yafs, ok, rfl, outcome⟩ := outcome
    exact none.unlinked inv.yafs outcome

theorem editInode_noExtents (inv : Inv state height bindings) (none : BindsNone bindings)
    (path : Option CString)
    (allowed : InodeValue → Bool) (edit : InodeValue → InodeValue) :
    ∃ out, editInode state path allowed edit = .ok out ∧ NoExtents out.1.yafs := by
  obtain ⟨out, ran, inv'⟩ := editInode_kept inv path allowed edit
  exact ⟨out, ran, none.noExtents inv'.yafs⟩

theorem perform_noExtents (inv : Inv state height bindings) (none : BindsNone bindings)
    {call : Call}
    (names : ¬IsFileCall call) : ∃ out, perform state call = .ok out ∧ NoExtents out.1.yafs := by
  cases call with
  | mkdir path =>
    obtain ⟨out, ran, outcome⟩ := mkdir_spec inv path
    refine ⟨out, ran, ?_⟩
    cases outcome with
    | refused => exact none.noExtents inv.yafs
    | ran _ outcome =>
      obtain ⟨yafs, ok, rfl, outcome⟩ := outcome
      exact none.made outcome
  | createFile path =>
    obtain ⟨out, ran, outcome⟩ := createFileYafs_spec inv path
    refine ⟨out, ran, ?_⟩
    cases outcome with
    | refused => exact none.noExtents inv.yafs
    | ran _ outcome =>
      obtain ⟨_, rfl⟩ | ⟨_, yafs, ok, rfl, outcome⟩ := outcome
      · exact none.noExtents inv.yafs
      · exact none.made outcome
  | unlink path => exact unlink_noExtents inv none path
  | rmdir path => exact unlink_noExtents inv none path
  | rename oldPath newPath =>
    obtain ⟨out, ran, outcome⟩ := rename_spec inv oldPath newPath
    refine ⟨out, ran, ?_⟩
    cases outcome with
    | refused => exact none.noExtents inv.yafs
    | ran _ _ outcome => exact none.renamed inv.yafs outcome
  | write inode buf offset => exact absurd trivial names
  | truncate inode => exact absurd trivial names
  | chmod euid path mode => exact editInode_noExtents inv none path _ _
  | chown euid path uid gid => exact editInode_noExtents inv none path _ _

theorem truncate_counted (inv : Inv state height bindings)
    (counted : CountedIn state.yafs.device bindings)
    {inode : Nat} (fits : TruncateFits state.yafs inode) :
    ∃ out, truncate state inode = .ok out ∧ ExtentsCounted out.1.yafs ∧
      (out.2 = true → Emptied out.1.yafs inode) := by
  unfold truncate
  split
  next =>
    exact ⟨_, rfl, inv.yafs.rep.extentsCounted_iff.mpr counted,
    fun impossible => nomatch impossible⟩
  next =>
    obtain ⟨⟨yafs, ok⟩, bindings', ran, inv', counted', gone⟩ :=
      truncateInode_counted inv.yafs counted fits
    rw [ran, ok_bind]
    refine ⟨_, rfl, inv'.rep.extentsCounted_iff.mpr counted',
      fun done => ⟨fun key tag same => ?_, ?_⟩⟩
    · have none := gone done (keyIndex key)
      rw [extentKey_of_parent tag same] at none
      rw [inv'.rep.lookup, none]
    · intro offset size
      have noBlocks : fileBlocks yafs bindings' inode = fun _ => none :=
        funext fun index => fileBlock_none (gone done index)
      rw [readFileData_eq inv', noBlocks]
      split
      next => rfl
      next some =>
        have wanted : size ≠ 0 := fun none => some (.inl none)
        simp only [readBlocks, if_neg wanted]

theorem VfsStep.counted (sound : Sound state) (counted : ExtentsCounted state.yafs) {call : Call}
    {after : State}
    (meets : KeepsCount state call) (step : VfsStep state call after) :
    ExtentsCounted after.yafs := by
  obtain ⟨height, bindings, inv⟩ := sound
  have ghost := inv.yafs.rep.extentsCounted_iff.mp counted
  obtain ⟨ok, ran⟩ := step
  cases call with
  | write inode buf offset =>
    obtain ⟨small, short, fits⟩ := meets
    obtain ⟨out, height', bindings', written, inv', counted'⟩ :=
      writeFileData_counted inv.yafs ghost small short fits
    have ran' : writeFile state inode buf offset = .ok (after, ok) := ran
    rw [writeFile, written] at ran'
    split at ran'
    next =>
      cases ran'
      exact counted
    next =>
      cases ran'
      exact inv'.rep.extentsCounted_iff.mpr counted'
  | truncate inode =>
    obtain ⟨out, ranToo, counted', _⟩ := truncate_counted inv ghost meets
    obtain rfl := Except.ok.inj (ranToo.symm.trans ran)
    exact counted'
  | mkdir | createFile | unlink | rmdir | rename | chmod | chown => exact meets.elim

theorem names_noExtents {blocks : Nat → Block} {start : State} {calls : List Call}
    (booted : boot blocks = .ok start) (names : ∀ call ∈ calls, ¬IsFileCall call)
    (run : Steps VfsStep start calls state) : NoExtents state.yafs := by
  obtain ⟨start', bindings, booted', built, next, _⟩ := boot_built blocks
  cases booted.symm.trans booted'
  have sound : Sound start := ⟨0, bindings, built.inv_boot next⟩
  have initially : NoExtents start.yafs := BindsNone.noExtents built.noFiles built.inv
  induction run with
  | refl => exact initially
  | @step current next labels call prior step ih =>
    have prefixNames : ∀ call ∈ labels, ¬IsFileCall call := fun call member =>
      names call (List.mem_append_left _ member)
    obtain ⟨height, bindings, inv⟩ := steps_sound sound prior
    have none : BindsNone bindings := fun key tag =>
      Except.ok.inj ((inv.yafs.rep.lookup key).symm.trans (ih prefixNames key tag))
    obtain ⟨out, ran, after⟩ := perform_noExtents inv none (names call (by simp))
    obtain ⟨ok, ranToo⟩ := step
    obtain rfl := Except.ok.inj (ran.symm.trans ranToo)
    exact after

/-- In every run of calls that meet their condition, a truncate that returns 0 leaves no extent. -/
theorem truncate_removes_all {blocks : Nat → Block} {start mounted state : State}
    {made calls : List Call}
    (booted : boot blocks = .ok start) (names : ∀ call ∈ made, ¬IsFileCall call)
    (making : Steps VfsStep start made mounted)
    (run : Steps (Guarded VfsStep KeepsCount) mounted calls state) :
    ExtentsCounted state.yafs ∧
    ∀ inode after, KeepsCount state (.truncate inode) →
      perform state (.truncate inode) = .ok (after, true) →
      Emptied after.yafs inode := by
  have none := names_noExtents booted names making
  have reached : Sound state ∧ ExtentsCounted state.yafs := by
    refine run.invariant (fun state => Sound state ∧ ExtentsCounted state.yafs) ?_
      ⟨mounted_sound booted making, ?_⟩
    · rintro before call after ⟨beforeSound, counted⟩ ⟨meets, step⟩
      exact ⟨steps_sound beforeSound (.step .refl step), step.counted beforeSound counted meets⟩
    · intro key extent lba record tag bound
      cases (none key tag).symm.trans bound
  obtain ⟨⟨height, bindings, inv⟩, counted⟩ := reached
  refine ⟨counted, fun inode after meets ran => ?_⟩
  obtain ⟨out, ranToo, _, emptied⟩ :=
    truncate_counted inv (inv.yafs.rep.extentsCounted_iff.mp counted) meets
  obtain rfl := Except.ok.inj (ranToo.symm.trans ran)
  exact emptied rfl

/-- One byte in a new file takes two blocks, and its record stays that of a regular file. -/
theorem NewFile.write_byte {bindings : Nat → Option Nat} {lba : Nat}
    (new : NewFile state bindings 1000 lba) :
    ∃ after height' bindings' record, perform state (.write 1000 [1] 0) = .ok (after, true) ∧
      after.initialized = true ∧ after.yafs.rootLba ≠ 0 ∧ YafsInv after.yafs height' bindings' ∧
      after.yafs.device.nextFreeBlock ≤ 204 ∧ bindings' (inodeKey 1000) = some lba ∧
      after.yafs.device.blocks lba = .inode record ∧ record.fileType = ftRegFile ∧
      record.blocks = 1 := by
  have inv := new.inv.yafs
  have few := new.few
  obtain ⟨name, image⟩ := new.image
  obtain ⟨after, provided, next, _⟩ := provide_small inv.rep
    (by unfold fewBlocks btreeMaxKeys; omega)
    (show extentBlock (bindings (extentKey 1000 0)) = none by
      rw [new.noFiles _ (keyTag_extentKey 1000 0)]
      rfl)
  obtain ⟨⟨middle, stored⟩, chunk, -⟩ := writeChunk_spec inv 1000 0 0 [1]
  obtain ⟨isStored, other, provided', same⟩ | ⟨_, noRoom⟩ := writeChunk_provide inv chunk
  · cases isStored
    cases provided.symm.trans provided'
    have loopRan : writeLoop 1000 2 state.yafs 0 0 [1] 0 = .ok ⟨middle, true, 1⟩ := by
      simp [writeLoop, chunk, dataBlockSize]
    obtain ⟨out, count, height', bindings', ran, loop⟩ := writeLoop_stored inv 1000 0 [1] 0
      (show [(1 : UInt8)].length < 2 by decide) (show 0 < dataBlockSize by decide)
    cases loopRan.symm.trans ran
    obtain ⟨final, grew, ⟨_, edits⟩, record⟩ := growInode_grown loop.inv 1000 1
    have bound : bindings' (inodeKey 1000) = some lba :=
      (loop.kept.names _ (by rw [keyTag_inodeKey]; decide)).trans new.bound
    obtain ⟨_, oldRecord, oldImage, middleImage⟩ := loop.record_kept inv bound
    cases oldImage.symm.trans image
    have taken : after.device.nextFreeBlock = middle.device.nextFreeBlock :=
      congrArg (·.device.nextFreeBlock) same
    have data : writeFileData state.yafs 1000 [1] 0 = .ok ⟨final, true, 1⟩ := by
      rw [writeFileData, if_neg (by decide), if_neg (by decide)]
      change (writeLoop 1000 2 state.yafs 0 0 [1] 0 >>= _) = _
      rw [loopRan, ok_bind, if_neg Bool.noConfusion]
      change (growInode middle 1000 1 >>= _) = _
      rw [grew]
      rfl
    have usable : ¬(state.initialized = false ∨ 1000 = 0 ∨ state.yafs.rootLba = 0) := by
      simp [new.ready, new.rooted]
    refine ⟨{ state with yafs := final }, _, bindings', _, ?_, new.ready, ?_, edits.inv, ?_, bound,
      record lba _ bound middleImage, rfl, rfl⟩
    · show writeFile state 1000 [1] 0 = _
      rw [writeFile, if_neg usable, data]
      rfl
    · exact edits.root.trans_ne (loop.inv.rep.rooted_of_bound (inodeKey 1000) (by simp [bound]))
    · show final.device.nextFreeBlock ≤ 204
      rw [edits.next, ← taken, next]
      omega
  · cases noRoom.symm.trans provided

/-- A file of one byte, truncated. -/
theorem truncate_removes_byte : ∃ start mounted written emptied, boot (fun _ => .zero) = .ok start ∧
    Steps VfsStep start [.createFile (some (cstr "/f"))] mounted ∧
    Steps (Guarded VfsStep KeepsCount) mounted [.write 1000 [1] 0] written ∧
    perform written (.truncate 1000) = .ok (emptied, true) ∧ Emptied emptied.yafs 1000 := by
  obtain ⟨start, mounted, bindings, lba, booted, making, new⟩ := newFile fun _ => .zero
  obtain ⟨written, height', bindings', record, ran, ready, rooted, inv, few, bound, image, regular,
      one⟩ :=
    new.write_byte
  have room : HasRoom 1000 1 mounted.yafs 0 :=
    hasRoom_small new.inv.yafs.rep 1000 0 (by have := new.few; unfold fewBlocks btreeMaxKeys; omega)
  have step : Guarded VfsStep KeepsCount mounted (.write 1000 [1] 0) written :=
    ⟨⟨by decide, by decide, .inr (.inl room)⟩, true, ran⟩
  have names : ∀ call ∈ [Call.createFile (some (cstr "/f"))], ¬IsFileCall call := by
    simp [IsFileCall]
  have fits : TruncateFits written.yafs 1000 := by
    intro other otherRecord found otherImage _
    cases (found.symm.trans (inv.rep.lookup _)).trans (congrArg _ bound)
    cases image.symm.trans otherImage
    have shallow := inv.rep.shallow
    have live : liveBlocks written.yafs 1000 1 0 ≤ 1 := by
      unfold liveBlocks liveBlocks
      split <;> decide
    rw [one, inv.rep.btreeHeight_eq]
    have used : liveBlocks written.yafs 1000 1 0 * (height' + 1) ≤ 1 * (height' + 1) :=
      Nat.mul_le_mul_right _ live
    show _ + liveBlocks written.yafs 1000 1 0 * (height' + 1) ≤ ramdiskBlocks
    unfold btreeMaxDepth at shallow
    unfold ramdiskBlocks
    omega
  obtain ⟨dropped, _, loopRan, droppedInv, _, _, kept⟩ := truncateLoop_spec inv 1000 1 0
  obtain ⟨final, wrote, _⟩ := droppedInv.editRecord
    ((kept _ (by rw [keyTag_inodeKey]; decide)).trans bound) { record with size := 0, blocks := 0 }
  have truncated : perform written (.truncate 1000) =
      .ok ({ written with yafs := ⟨final, dropped.rootLba⟩ }, true) := by
    have isRecord : inodeRead written.yafs.device lba = .ok (some record) := by
      obtain ⟨other, otherImage, read⟩ := inv.inodeRead_eq (keyTag_inodeKey 1000) bound
      cases image.symm.trans otherImage
      exact read
    have usable : ¬(written.initialized = false ∨ written.yafs.rootLba = 0) := by
      simp [ready, rooted]
    show truncate written 1000 = _
    rw [truncate, if_neg usable, truncateInode, if_neg (by decide), inv.rep.lookup, ok_bind, bound]
    dsimp only
    rw [isRecord, ok_bind]
    dsimp only
    rw [if_neg (not_not.mpr regular), one]
    change ((truncateLoop 1000 1 written.yafs 0 >>= _) >>= _) = _
    rw [loopRan, ok_bind, wrote]
    rfl
  exact ⟨start, mounted, written, _, booted, making, .step .refl step, truncated,
    (truncate_removes_all booted names making (.step .refl step)).2 1000 _ fits truncated⟩

/-- A write of 2048 blocks runs out of blocks; its extents stay, and `blocks` is still 0. -/
theorem not_extents_counted :
    ¬∀ (blocks : Nat → Block) (start mounted state : State) (made calls : List Call),
    boot blocks = .ok start → (∀ call ∈ made, ¬IsFileCall call) → Steps VfsStep start made mounted →
    (∀ call ∈ calls, IsFileCall call) → Steps VfsStep mounted calls state →
    ExtentsCounted state.yafs := by
  intro counts
  obtain ⟨start, mounted, bindings, lba, booted, making, new⟩ := newFile fun _ => .zero
  obtain ⟨name, image⟩ := new.image
  have inv := new.inv.yafs
  have few := new.few
  have positive := inv.rep.positive
  obtain ⟨buf, size⟩ : ∃ buf : List UInt8, buf.length = 2048 * 4096 :=
    ⟨_, List.length_replicate (a := 0)⟩
  obtain ⟨out, count, height', bindings', ran, loop⟩ :=
    writeLoop_stored inv 1000 0 buf 0 (Nat.lt_add_one buf.length) (show 0 < dataBlockSize by decide)
  obtain ⟨failed, began⟩ : out.ok = false ∧ 0 < count := by
    rcases loop.ended with ⟨_, all⟩ | ⟨failed, _, noRoom⟩
    · have whole : count = 2048 := by
        rw [all, size]
        rfl
      have := loop.room.uses inv.rep (by rw [whole]; decide) fun i _ _ =>
        new.noFiles _ (keyTag_extentKey 1000 i)
      unfold ramdiskBlocks at this
      omega
    · refine ⟨failed, Nat.pos_of_ne_zero fun none => noRoom ?_⟩
      rw [none]
      exact hasRoom_small inv.rep 1000 0 (by unfold fewBlocks btreeMaxKeys; omega)
  have written : writeFileData mounted.yafs 1000 buf 0 = .ok out := by
    rw [writeFileData, if_neg (by omega), if_neg (by decide), Nat.zero_div, Nat.zero_mod, ran,
      ok_bind, if_pos failed]
    rfl
  have performed : perform mounted (.write 1000 buf 0) =
      .ok ({ mounted with yafs := out.state }, out.ok) := by
    have admitted : ¬(mounted.initialized = false ∨ 1000 = 0 ∨ mounted.yafs.rootLba = 0) := by
      simp [new.ready, new.rooted]
    rw [perform, writeFile, if_neg admitted, written]
    rfl
  have counted :=
    counts _ start mounted _ _ [.write 1000 buf 0] booted (by simp [IsFileCall]) making
    (by simp [IsFileCall]) (.step .refl ⟨out.ok, performed⟩)
  have tag := keyTag_extentKey 1000 0
  obtain ⟨extent, bound⟩ := Option.ne_none_iff_exists'.mp
    (mt (loop.inv.fileBlock_eq_none tag).mpr (loop.filled 0 (Nat.le_refl 0) (by omega)))
  have record : bindings' (inodeKey 1000) = some lba :=
    (loop.kept.names _ (by rw [keyTag_inodeKey]; decide)).trans new.bound
  obtain ⟨_, allocated, _⟩ := inv.filed.inode (keyTag_inodeKey 1000) new.bound
  have less := counted (extentKey 1000 0) extent lba _ tag (by rw [loop.inv.rep.lookup, bound])
    (by rw [keyParent_extentKey, loop.inv.rep.lookup]; exact congrArg Except.ok record)
    (loop.kept.records allocated image)
  exact absurd less (Nat.not_lt_zero _)

end M4KK1.Vfs
