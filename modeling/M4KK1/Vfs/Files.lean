import M4KK1.Vfs.NewFile

/-!
# Writing a file and reading it back

A write that returns 0 is read back and leaves the rest alone; it fails on a full ramdisk.
-/

namespace M4KK1.Vfs

open Lib Yafs

def IsYafsInode (state : State) (inode : Nat) : Prop :=
  (∃ key lba, keyTag key = ksInode ∧ keyValue key = inode ∧
    btreeLookup state.yafs.device state.yafs.rootLba key = .ok (some lba)) ∨
  ∃ key, keyTag key = ksDirEntry ∧
    btreeLookup state.yafs.device state.yafs.rootLba key = .ok (some inode)

/-- What a write that returned 0 has done, as `mkrn_yafs_read_file_data` and
`read_inode_raw` see it. -/
structure FileWritten (before : State) (inode offset : Nat) (buf : List UInt8)
    (out : WriteOut) : Prop where
  written : out.written = buf.length
  readBack : readFileData out.state inode offset buf.length = .ok (buf, true)
  outside : ∀ pos, pos < offset ∨ offset + buf.length ≤ pos → ∀ byte,
    readFileData before.yafs inode pos 1 = .ok ([byte], true) →
      readFileData out.state inode pos 1 = .ok ([byte], true)
  allocated : ∀ pos, pos < offset ∨ offset + buf.length ≤ pos → ∀ byte,
    readFileData before.yafs inode pos 1 = .ok ([], true) →
      readFileData out.state inode pos 1 = .ok ([byte], true) → byte = 0
  data : ∀ other, IsYafsInode before other → other ≠ inode → ∀ pos size,
    readFileData out.state other pos size = readFileData before.yafs other pos size
  record : ∀ other, IsYafsInode before other → other ≠ inode →
    readInodeRaw out.state other = readInodeRaw before.yafs other

variable {state : State} {height height' : Nat} {bindings bindings' : Nat → Option Nat}

theorem keyValue_of_inode {key : Nat} (tag : keyTag key = ksInode) : keyValue key = key := by
  have small : key < 2 ^ 60 := by
    unfold keyTag ksTagShift ksInode at tag
    rw [Nat.shiftRight_eq_div_pow] at tag
    omega
  rw [keyValue, ksValueMask, Nat.and_two_pow_sub_one_eq_mod, Nat.mod_eq_of_lt small]

variable {inode : Nat} {yafs : BtreeState}

theorem Inv.inode_lt (inv : Inv state height bindings)
    (isInode : IsYafsInode state inode) : inode < inodeLimit := by
  rcases isInode with ⟨key, lba, tag, value, found⟩ | ⟨key, tag, found⟩
  · rw [inv.yafs.rep.lookup] at found
    rw [← value, keyValue_of_inode tag]
    exact (inv.yafs.filed.inode tag (Except.ok.inj found)).1
  · rw [inv.yafs.rep.lookup] at found
    exact (inv.yafs.filed.entry tag (Except.ok.inj found)).2

theorem inodeLimit_lt : inodeLimit < 2 ^ 44 := by decide

theorem extentOf_ne {other index : Nat} (small : inode < 2 ^ 44) (small' : other < 2 ^ 44)
    (apart : other ≠ inode) : ¬ ExtentOf inode (extentKey other index) := by
  rintro ⟨index', same⟩
  unfold extentKey at same
  rw [makeKey_pair (by decide), makeKey_pair (by decide), Nat.mod_eq_of_lt small,
    Nat.mod_eq_of_lt small'] at same
  omega

section

variable (inv : YafsInv yafs height bindings)

include inv

theorem readFileData_one (inode pos : Nat) :
    readFileData yafs inode pos 1 =
      .ok (if pos < maxFileBlocks * dataBlockSize then
        (byteAt (fileBlocks yafs bindings inode) pos).toList else [], true) := by
  by_cases below : pos < maxFileBlocks * dataBlockSize
  · rw [if_pos below, readFileData_byte inv inode below]
  · have past : pos / dataBlockSize ≥ maxFileBlocks := by
      unfold maxFileBlocks dataBlockSize at *
      omega
    rw [if_neg below, readFileData_eq inv, if_pos (.inr past)]

theorem readFileData_range {offset : Nat} {buf : List UInt8} (wanted : buf ≠ [])
    (fits : offset + buf.length ≤ maxFileBlocks * dataBlockSize)
    (present : ∀ i, i < buf.length →
      byteAt (fileBlocks yafs bindings inode) (offset + i) = some (buf.getD i 0)) :
    readFileData yafs inode offset buf.length = .ok (buf, true) := by
  have positive := List.length_pos_iff.mpr wanted
  have inside : offset % dataBlockSize < dataBlockSize := Nat.mod_lt _ (by decide)
  have position : offset / dataBlockSize * dataBlockSize + offset % dataBlockSize = offset :=
    Nat.div_add_mod' offset dataBlockSize
  have notPast : ¬ (buf.length = 0 ∨ offset / dataBlockSize ≥ maxFileBlocks) := by
    unfold maxFileBlocks dataBlockSize at *
    omega
  have read := readBlocks_out ⟨buf.length, offset / dataBlockSize, offset % dataBlockSize, []⟩
    (fun i => buf.getD i 0) (Nat.lt_succ_self buf.length) inside
    (by simpa only [position] using present)
  rw [readFileData_eq inv, if_neg notPast, read]
  congr 2
  apply List.ext_getElem
  · simp
  · intro i small small'
    simp [List.getElem?_eq_getElem small']

theorem readFileData_same {yafs' : BtreeState} (inv' : YafsInv yafs' height' bindings')
    (same : fileBlocks yafs' bindings' inode = fileBlocks yafs bindings inode)
    (offset size : Nat) :
    readFileData yafs' inode offset size = readFileData yafs inode offset size := by
  rw [readFileData_eq inv, readFileData_eq inv', same]

theorem readInodeRaw_same {yafs' : BtreeState} (inv' : YafsInv yafs' height' bindings')
    (key : bindings' (inodeKey inode) = bindings (inodeKey inode))
    (block : ∀ lba, bindings (inodeKey inode) = some lba →
      yafs'.device.blocks lba = yafs.device.blocks lba) :
    readInodeRaw yafs' inode = readInodeRaw yafs inode := by
  unfold readInodeRaw
  rw [inv.rep.lookup, inv'.rep.lookup, key, ok_bind, ok_bind]
  cases bound : bindings (inodeKey inode) with
  | none => rfl
  | some lba =>
    obtain ⟨record, image, read⟩ := inv.inodeRead_eq (keyTag_inodeKey inode) bound
    obtain ⟨record', image', read'⟩ :=
      inv'.inodeRead_eq (keyTag_inodeKey inode) (key.trans bound)
    have same := block lba bound
    rw [image, image'] at same
    obtain rfl := Block.inode.inj same
    simp only [read, read']

end

theorem writeFileData_written (inv : Inv state height bindings) {offset : Nat}
    {buf : List UInt8} (isInode : IsYafsInode state inode) (wanted : buf ≠ [])
    (fits : offset + buf.length ≤ maxFileBlocks * dataBlockSize) :
    ∃ out, writeFileData state.yafs inode buf offset = .ok out ∧
      (out.ok = false → freeBlocks out.state.device = 0) ∧
      (out.ok = true → FileWritten state inode offset buf out) := by
  have small := inv.inode_lt isInode
  have limit := inodeLimit_lt
  obtain ⟨out, height', bindings', ran, outcome⟩ := writeFileData_spec inv.yafs inode buf offset
  refine ⟨out, ran, fun failed => ?_, fun done => ?_⟩
  · rw [freeBlocks, outcome.short failed, Nat.sub_self]
  obtain ⟨whole, bytes⟩ := outcome.all done (by omega) fits
  have others : ∀ other, IsYafsInode state other → other ≠ inode →
      fileBlocks out.state bindings' other = fileBlocks state.yafs bindings other := by
    intro other isOther apart
    have := inv.inode_lt isOther
    funext index
    exact outcome.files _ (keyTag_extentKey other index) (extentOf_ne (by omega) (by omega) apart)
  have notWritten : ∀ {pos}, pos < offset ∨ offset + buf.length ≤ pos →
      ¬ (offset ≤ pos ∧ pos < offset + buf.length) := by
    intro pos outside
    omega
  constructor
  · exact whole
  · refine readFileData_range outcome.inv wanted fits fun i inside => ?_
    rw [bytes _ (by omega), if_pos (by omega), Nat.add_sub_cancel_left]
  · intro pos outside byte was
    rw [readFileData_one inv.yafs] at was
    rw [readFileData_one outcome.inv, ← was]
    split
    next below =>
      rw [if_pos below] at was
      have there : byteAt (fileBlocks state.yafs bindings inode) pos = some byte := by
        simpa using was
      rw [bytes pos below, if_neg (notWritten outside), there]
      split <;> rfl
    next => rfl
  · intro pos outside byte was now
    rw [readFileData_one inv.yafs] at was
    rw [readFileData_one outcome.inv] at now
    split at now
    next below =>
      rw [if_pos below] at was
      have missing : byteAt (fileBlocks state.yafs bindings inode) pos = none := by
        simpa using was
      rw [bytes pos below, if_neg (notWritten outside), missing] at now
      split at now
      · simpa using now.symm
      · simp at now
    next => simp at now
  · intro other isOther apart pos size
    exact readFileData_same inv.yafs outcome.inv (others other isOther apart) pos size
  · intro other isOther apart
    have := inv.inode_lt isOther
    refine readInodeRaw_same inv.yafs outcome.inv
      (outcome.names _ (by rw [keyTag_inodeKey]; decide)) fun lba bound => ?_
    refine outcome.records (keyTag_inodeKey other) ?_ bound
    rw [inodeKey_eq, inodeKey_eq, Nat.mod_eq_of_lt (by omega), Nat.mod_eq_of_lt (by omega)]
    exact apart

/-- A write below the ceiling runs out of blocks or is a `FileWritten`. -/
theorem write_file_data_round_trip (blocks : Nat → Block) :
    ∃ start, boot blocks = .ok start ∧
      ∀ calls state, Steps VfsStep start calls state →
      ∀ inode offset buf, IsYafsInode state inode → buf ≠ [] →
        offset + buf.length ≤ maxFileBlocks * dataBlockSize →
        ∃ out, writeFileData state.yafs inode buf offset = .ok out ∧
          (out.ok = false → freeBlocks out.state.device = 0) ∧
          (out.ok = true → FileWritten state inode offset buf out) := by
  obtain ⟨start, bindings, booted, built, next, _⟩ := boot_built blocks
  refine ⟨start, booted, fun calls state run inode offset buf isInode wanted fits => ?_⟩
  obtain ⟨height', bindings', inv'⟩ := steps_sound ⟨0, bindings, built.inv_boot next⟩ run
  exact writeFileData_written inv' isInode wanted fits

/-- 5000 bytes from offset 4000 on, over three blocks of a new file. -/
theorem write_file_data_round_trip_new : ∃ start state out, boot (fun _ => .zero) = .ok start ∧
    Steps VfsStep start [.createFile (some (cstr "/f"))] state ∧
    writeFileData state.yafs 1000 (List.replicate 5000 7) 4000 = .ok out ∧
    FileWritten state 1000 4000 (List.replicate 5000 7) out := by
  obtain ⟨start, booted, written⟩ := write_file_data_round_trip fun _ => .zero
  obtain ⟨other, state, bindings, lba, booted', run, new⟩ := newFile fun _ => .zero
  cases booted.symm.trans booted'
  have inv := new.inv.yafs
  have isInode : IsYafsInode state 1000 :=
    .inl ⟨inodeKey 1000, lba, keyTag_inodeKey 1000, by decide,
      (inv.rep.lookup _).trans (congrArg _ new.bound)⟩
  have size : (List.replicate 5000 (7 : UInt8)).length = 5000 := List.length_replicate
  obtain ⟨out, ran, _, stored⟩ := written _ _ run 1000 4000 (List.replicate 5000 7) isInode
    (List.ne_nil_of_length_pos (by rw [size]; decide)) (by rw [size]; decide)
  have room : HasRoom 1000 3 state.yafs 0 :=
    hasRoom_small inv.rep 1000 0 (by have := new.few; unfold fewBlocks btreeMaxKeys; omega)
  refine ⟨start, state, out, booted, run, ran, stored ?_⟩
  obtain ⟨out', ran', steps⟩ := writeFileData_run inv 1000 (List.replicate 5000 7) 4000
  cases ran.symm.trans ran'
  cases steps with
  | nothing => rfl
  | failed _ _ loop isFailed =>
    obtain ⟨ok, _⟩ | ⟨_, fewer, noRoom⟩ := loop.ended
    · exact ok
    · rw [size] at fewer
      exact absurd (room.mono (show _ + 1 ≤ 3 from fewer)) noRoom
  | stored => rfl

end M4KK1.Vfs
