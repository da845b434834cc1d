import M4KK1.Vfs.NewFile
import M4KK1.Vfs.Seek
import M4KK1.Yafs.Contents

/-!
# The end of a file

Reads do not look at the size of a file: they return whole blocks up to the first hole.
-/

namespace M4KK1.Vfs

open Lib Yafs List

/-- A call on the contents of an open file. -/
inductive DataCall where
  | write (fd : Nat) (buf : List UInt8)
  | lseek (fd : Nat) (offset whence : Int)

/-- The entry of a number in the descriptor table, cleared for a number outside. -/
def FdState.descriptor (s : FdState) (fd : Nat) : FileDesc :=
  if inside : fd < maxFds then s.fdTable ⟨fd, inside⟩ else FileDesc.zero

theorem FdState.descriptor_slot (s : FdState) (slot : Fin maxFds) :
    s.descriptor slot.val = s.fdTable slot :=
  dif_pos slot.isLt

/-- The system, with the bytes last written at each offset of one file. -/
structure FileLog where
  state : FdState
  last : Nat → Option UInt8

/-- The bytes last written, with those that a write reports at its offset. -/
def FileLog.laid (log : FileLog) (inode fd : Nat) (buf : List UInt8) :
    Reply Nat → Nat → Option UInt8
  | .done count =>
    let d := log.state.descriptor fd
    if d.yafsInode = inode then overwritten log.last d.offset (buf.take count) else log.last
  | _ => log.last

inductive DataStep (inode : Nat) : FileLog → DataCall → FileLog → Prop where
  | write {log : FileLog} {s' : FdState} {fd : Nat} {buf : List UInt8} {reply : Reply Nat}
      (ran : vfsWrite log.state fd buf = .ok (s', reply)) :
      DataStep inode log (.write fd buf) ⟨s', log.laid inode fd buf reply⟩
  | lseek {log : FileLog} {s' : FdState} {fd : Nat} {offset whence : Int} {reply : Reply Int}
      (ran : vfsLseek log.state fd offset whence = .ok (s', reply)) :
      DataStep inode log (.lseek fd offset whence) ⟨s', log.last⟩

/-- Seeks, and writes that store all of their bytes or none. -/
def WholeCalls (inode : Nat) (log : FileLog) : DataCall → Prop
  | .write fd buf =>
    let d := log.state.descriptor fd
    d.yafsInode < 2 ^ 44 ∧ (d.yafsInode = inode →
      WritesWhole log.state.vfs.yafs inode d.offset buf.length)
  | .lseek .. => True

/-- A file of size 0, without extents. -/
def EmptyFile (yafs : BtreeState) (inode : Nat) : Prop :=
  (∃ lba record, readInodeRaw yafs inode = .ok (some (lba, record)) ∧ record.size = 0) ∧
    ∀ index, ¬HasBlock yafs inode index

structure Reading (s : FdState) (fd : Fin maxFds) (inode offset : Nat) : Prop where
  ready : s.vfs.initialized = true
  plain : s.backend fd = none
  used : (s.fdTable fd).inUse = true
  file : (s.fdTable fd).file ≠ none
  names : (s.fdTable fd).yafsInode = inode
  here : (s.fdTable fd).offset = offset

/-- Reads up to the first that returns 0, and their bytes. -/
def readAll (fd : Nat) : List Nat → FdState → Except Fault (Option (List UInt8))
  | [], _ => return none
  | size :: sizes, s => do
    match ← vfsRead s fd size with
    | (s, .done bytes) =>
      if bytes.length = 0 then return some []
      else do
        let rest ← readAll fd sizes s
        return rest.map (bytes ++ ·)
    | _ => return none

/-- Reads of these sizes hand out the bytes and end. -/
def ReadsAll (s : FdState) (fd : Nat) (sizes : Nat → Nat) (bytes : List UInt8) : Prop :=
  ∃ rounds, readAll fd ((List.range rounds).map sizes) s = .ok (some bytes)

theorem vfsWrite_reply {s s' : FdState} {fd : Nat} {buf : List UInt8} {reply : Reply Nat}
    (ran : vfsWrite s fd buf = .ok (s', reply)) :
    (s'.vfs = s.vfs ∧ ∀ count, reply = .done count → (s.descriptor fd).yafsInode = 0) ∨
    (s.descriptor fd).yafsInode ≠ 0 ∧
      ∃ out, writeFileData s.vfs.yafs (s.descriptor fd).yafsInode buf (s.descriptor fd).offset =
        .ok out ∧
        s'.vfs.yafs = out.state ∧ reply = if out.ok then .done out.written else .refused := by
  unfold vfsWrite at ran
  split at ran
  next inside =>
    have slot : s.descriptor fd = s.fdTable ⟨fd, inside.1⟩ := dif_pos inside.1
    rw [slot]
    split at ran
    next => cases ran; exact .inl ⟨rfl, fun count impossible => nomatch impossible⟩
    next =>
      dsimp only at ran
      split at ran
      next isPipe =>
        obtain ⟨pipes, same⟩ := pipeWrite_pipes s (s.fdTable ⟨fd, inside.1⟩) buf
        have state : s' = { s with pipes := pipes } :=
          (congrArg Prod.fst (Except.ok.inj ran)).symm.trans same
        exact .inl ⟨by rw [state], fun _ _ => isPipe.2⟩
      next =>
        split at ran
        next => cases ran; exact .inl ⟨rfl, fun count impossible => nomatch impossible⟩
        next =>
          split at ran
          next isFile =>
            obtain ⟨out, written, ran⟩ := bind_ok ran
            refine .inr ⟨isFile.1, out, written, ?_⟩
            cases ok : out.ok with
            | true =>
              rw [ok] at ran
              cases ran
              exact ⟨rfl, rfl⟩
            | false =>
              rw [ok] at ran
              cases ran
              exact ⟨rfl, rfl⟩
          next => cases ran; exact .inl ⟨rfl, fun count impossible => nomatch impossible⟩
  next => cases ran; exact .inl ⟨rfl, fun count impossible => nomatch impossible⟩

theorem DataStep.reflects {inode : Nat} (named : inode ≠ 0) (small : inode < 2 ^ 44)
    {log next : FileLog}
    {call : DataCall} (whole : WholeCalls inode log call) (step : DataStep inode log call next)
    {height : Nat} {bindings : Nat → Option Nat}
    (reflects : Reflects log.state.vfs.yafs height bindings inode log.last) :
    ∃ height' bindings', Reflects next.state.vfs.yafs height' bindings' inode next.last := by
  cases step with
  | lseek ran =>
    refine ⟨height, bindings, ?_⟩
    rw [vfsLseek_vfs ran]
    exact reflects
  | @write s' fd buf reply ran =>
    obtain ⟨fits, own⟩ := whole
    rcases vfsWrite_reply ran with ⟨sameVfs, notFile⟩ | ⟨_, out, wrote, after, isReply⟩
    · have sameLast : log.laid inode fd buf reply = log.last := by
        cases reply with
        | done count =>
          refine if_neg fun same => named ?_
          rw [← same, notFile count rfl]
        | refused | special _ | ramfs => rfl
      refine ⟨height, bindings, ?_⟩
      dsimp only
      rw [sameVfs, sameLast]
      exact reflects
    · dsimp only
      rw [after, isReply]
      by_cases same : (log.state.descriptor fd).yafsInode = inode
      · obtain ⟨_, height', bindings', ranToo, kept⟩ := reflects.own small (own same)
        rw [same] at wrote
        cases wrote.symm.trans ranToo
        refine ⟨height', bindings', ?_⟩
        cases ok : out.ok with
        | true =>
          rw [ok, if_pos rfl] at kept
          rw [if_pos rfl, FileLog.laid, if_pos same]
          exact kept
        | false =>
          rw [ok, if_neg Bool.noConfusion] at kept
          rw [if_neg Bool.noConfusion]
          exact kept
      · obtain ⟨_, height', bindings', ranToo, outcome⟩ := writeFileData_spec reflects.inv
          (log.state.descriptor fd).yafsInode buf (log.state.descriptor fd).offset
        cases wrote.symm.trans ranToo
        refine ⟨height', bindings', ?_⟩
        have sameLast : log.laid inode fd buf (if out.ok then .done out.written else .refused) =
            log.last := by
          split
          next => exact if_neg same
          next => rfl
        rw [sameLast]
        exact reflects.other small fits same outcome

variable {s : FdState} {fd : Fin maxFds} {inode offset hole height : Nat}
    {bindings : Nat → Option Nat}

theorem Reading.moved (reading : Reading s fd inode offset) (offset' : Nat) :
    Reading (s.setFd fd { s.fdTable fd with offset := offset' }) fd inode offset' := by
  have entry : (s.setFd fd { s.fdTable fd with offset := offset' }).fdTable fd =
      { s.fdTable fd with offset := offset' } := by
    rw [FdState.setFd_fdTable, Function.update_self]
  exact ⟨reading.ready,
    reading.plain, by rw [entry]; exact reading.used, by rw [entry]; exact reading.file,
    by rw [entry]; exact reading.names, by rw [entry]⟩

theorem Reading.vfsRead_eq (reading : Reading s fd inode offset) (named : inode ≠ 0)
    (rooted : s.vfs.yafs.rootLba ≠ 0) (inv : YafsInv s.vfs.yafs height bindings)
    (first : FirstHole (fileBlocks s.vfs.yafs bindings inode) hole) (near : hole ≤ ramdiskBlocks)
    (before : offset ≤ hole * dataBlockSize) (size : Nat) :
    ∃ s', vfsRead s fd size =
      .ok (s', .done ((List.range (min size (hole * dataBlockSize - offset))).map fun i =>
        contentAt (fileBlocks s.vfs.yafs bindings inode) (offset + i))) ∧
      s'.vfs = s.vfs ∧ Reading s' fd inode (offset + min size (hole * dataBlockSize - offset)) := by
  have notPipe : ¬(s.fdTable fd).IsPipe := fun isPipe => named (reading.names.symm.trans isPipe.2)
  have small : hole < maxFileBlocks := Nat.lt_of_le_of_lt near (by decide)
  have noWrap : offset + min size (hole * dataBlockSize - offset) < 2 ^ 32 := by
    unfold maxFileBlocks dataBlockSize at *
    omega
  have read := readFileData_upto inv first small before size
  refine ⟨s.setFd fd
    { s.fdTable fd with offset := offset + min size (hole * dataBlockSize - offset) }, ?_, rfl,
    reading.moved _⟩
  rw [vfsRead, dif_pos ⟨fd.isLt, reading.ready⟩, reading.plain]
  dsimp only
  rw [if_neg notPipe, if_neg (by simp [reading.used, reading.file]),
    if_pos ⟨by rw [reading.names]; exact named, rooted⟩, reading.names, reading.here, read, ok_bind]
  dsimp only
  rw [if_pos rfl, length_map, length_range, Nat.mod_eq_of_lt noWrap]
  rfl

theorem readAll_cases (reading : Reading s fd inode offset) (named : inode ≠ 0)
    (rooted : s.vfs.yafs.rootLba ≠ 0) (inv : YafsInv s.vfs.yafs height bindings)
    (first : FirstHole (fileBlocks s.vfs.yafs bindings inode) hole) (near : hole ≤ ramdiskBlocks)
    (before : offset ≤ hole * dataBlockSize) (sizes : List Nat)
    (positive : ∀ size ∈ sizes, 0 < size) :
    ∃ result, readAll fd sizes s = .ok result ∧
      (result = some ((List.range (hole * dataBlockSize - offset)).map fun i =>
          contentAt (fileBlocks s.vfs.yafs bindings inode) (offset + i)) ∨
        (result = none ∧ sizes.length ≤ hole * dataBlockSize - offset)) := by
  induction sizes generalizing s offset with
  | nil => exact ⟨none, rfl, .inr ⟨rfl, Nat.zero_le _⟩⟩
  | cons size sizes ih =>
    have wanted := positive size mem_cons_self
    obtain ⟨s', read, sameVfs, reading'⟩ :=
      reading.vfsRead_eq named rooted inv first near before size
    rw [readAll, read, ok_bind]
    dsimp only
    rw [length_map, length_range]
    by_cases ended : min size (hole * dataBlockSize - offset) = 0
    · rw [if_pos ended]
      have nothing : hole * dataBlockSize - offset = 0 := by omega
      refine ⟨_, rfl, .inl ?_⟩
      rw [nothing]
      rfl
    · rw [if_neg ended]
      rw [← sameVfs] at rooted inv first
      obtain ⟨result, rest, outcome⟩ := ih reading' rooted inv first (by omega)
        fun other member => positive other (mem_cons_of_mem _ member)
      rw [sameVfs] at outcome
      rw [rest, ok_bind]
      refine ⟨_, rfl, outcome.imp (fun whole => ?_) fun ⟨tooFew, few⟩ => ⟨by rw [tooFew]; rfl, ?_⟩⟩
      · have split : hole * dataBlockSize - offset = min size (hole * dataBlockSize - offset) +
            (hole * dataBlockSize - (offset + min size (hole * dataBlockSize - offset))) := by omega
        conv_rhs => rw [split, map_range_split]
        rw [whole]
        rfl
      · rw [length_cons]
        omega

theorem readsAll_iff (reading : Reading s fd inode 0) (named : inode ≠ 0)
    (rooted : s.vfs.yafs.rootLba ≠ 0) (inv : YafsInv s.vfs.yafs height bindings)
    (first : FirstHole (fileBlocks s.vfs.yafs bindings inode) hole) (near : hole ≤ ramdiskBlocks)
    {sizes : Nat → Nat} (positive : ∀ round, 0 < sizes round) (bytes : List UInt8) :
    ReadsAll s fd sizes bytes ↔
      bytes = (List.range (hole * dataBlockSize)).map
        (contentAt (fileBlocks s.vfs.yafs bindings inode)) := by
  have anyRounds (rounds : Nat) := readAll_cases reading named rooted inv first near (Nat.zero_le _)
    ((List.range rounds).map sizes) (forall_mem_map.mpr fun round _ => positive round)
  simp only [Nat.sub_zero, Nat.zero_add, length_map, length_range] at anyRounds
  constructor
  · rintro ⟨rounds, ran⟩
    obtain ⟨result, ranToo, outcome⟩ := anyRounds rounds
    cases ran.symm.trans ranToo
    rcases outcome with whole | ⟨impossible, _⟩
    · exact Option.some.inj whole
    · cases impossible
  · rintro rfl
    obtain ⟨result, ran, whole | ⟨_, few⟩⟩ := anyRounds (hole * dataBlockSize + 1)
    · exact ⟨_, whole ▸ ran⟩
    · omega

theorem readInodeRaw_eq {yafs : BtreeState} (inv : YafsInv yafs height bindings) {lba : Nat}
    {record : InodeValue}
    (bound : bindings (inodeKey inode) = some lba)
    (image : yafs.device.blocks lba = .inode record) :
    readInodeRaw yafs inode = .ok (some (lba, record)) := by
  obtain ⟨_, sameImage, read⟩ := inv.inodeRead_eq (keyTag_inodeKey inode) bound
  cases sameImage.symm.trans image
  rw [readInodeRaw, inv.rep.lookup, bound, ok_bind]
  dsimp only
  rw [read]
  rfl

theorem EmptyFile.reflects {yafs : BtreeState} (inv : YafsInv yafs height bindings)
    (empty : EmptyFile yafs inode) :
    Reflects yafs height bindings inode fun _ => none := by
  obtain ⟨⟨lba, record, read, _⟩, holes⟩ := empty
  have none (index : Nat) : fileBlocks yafs bindings inode index = none :=
    not_not.mp (mt (inv.hasBlock_iff inode index).mpr (holes index))
  refine ⟨inv, ?_, fun pos _ => ?_⟩
  · unfold readInodeRaw at read
    rw [inv.rep.lookup, ok_bind] at read
    cases bound : bindings (inodeKey inode) with
    | none =>
      rw [bound] at read
      cases read
    | some lba' =>
      obtain ⟨record', image, _⟩ := inv.inodeRead_eq (keyTag_inodeKey inode) bound
      exact ⟨lba', record', bound, image, fun index _ present => absurd (none index) present⟩
  · rw [contentAt, byteAt, none]
    rfl

theorem reflects_read_iff (named : inode ≠ 0) {last : Nat → Option UInt8}
    (reflects : Reflects s.vfs.yafs height bindings inode last) :
    ∃ lba record, readInodeRaw s.vfs.yafs inode = .ok (some (lba, record)) ∧
      ∀ fd, Reading s fd inode 0 → ∀ sizes : Nat → Nat, (∀ round, 0 < sizes round) →
        (ReadsAll s fd sizes ((List.range record.size).map fun pos => (last pos).getD 0) ↔
          WholeBlocks s.vfs.yafs inode record.size) := by
  obtain ⟨lba, record, bound, image, below⟩ := reflects.sized
  have inv := reflects.inv
  refine ⟨lba, record, readInodeRaw_eq inv bound image, fun fd reading sizes positive => ?_⟩
  obtain ⟨hole, near, first⟩ := inv.exists_hole inode
  have rooted :=
    inv.rep.rooted_of_bound (inodeKey inode) (by rw [bound]; exact Option.some_ne_none lba)
  rw [readsAll_iff reading named rooted inv first near positive, ← first.eq_size_iff inv near below]
  constructor
  · intro same
    have lengths := congrArg List.length same
    rw [length_map, length_range, length_map, length_range] at lengths
    exact lengths.symm
  · intro same
    rw [← same]
    refine map_congr_left fun pos member => (reflects.bytes pos ?_).symm
    have limit : hole ≤ maxFileBlocks := near.trans (by decide)
    exact Nat.lt_of_lt_of_le (mem_range.mp member) (Nat.mul_le_mul_right dataBlockSize limit)

theorem Reading.descriptor_eq (reading : Reading s fd inode offset) :
    s.descriptor fd.val = s.fdTable fd ∧ (s.descriptor fd.val).yafsInode = inode ∧
      (s.descriptor fd.val).offset = offset := by
  rw [s.descriptor_slot]
  exact ⟨rfl, reading.names, reading.here⟩

theorem Reading.vfsWrite_eq (reading : Reading s fd inode offset) (named : inode ≠ 0)
    (rooted : s.vfs.yafs.rootLba ≠ 0) {buf : List UInt8} {out : WriteOut}
    (wrote : writeFileData s.vfs.yafs inode buf offset = .ok out) (ok : out.ok = true) :
    ∃ s', vfsWrite s fd buf = .ok (s', .done out.written) ∧ s'.vfs.yafs = out.state ∧
      Reading s' fd inode ((offset + out.written) % 2 ^ 32) := by
  have notPipe : ¬(s.fdTable fd).IsPipe := fun isPipe => named (reading.names.symm.trans isPipe.2)
  have stored : Reading { s with vfs := { s.vfs with yafs := out.state } } fd inode offset :=
    { reading with }
  refine ⟨({ s with vfs := { s.vfs with yafs := out.state } } : FdState).setFd fd
    { s.fdTable fd with offset := (offset + out.written) % 2 ^ 32 }, ?_, rfl, stored.moved _⟩
  rw [vfsWrite, dif_pos ⟨fd.isLt, reading.ready⟩, reading.plain]
  dsimp only
  rw [if_neg notPipe, if_neg (by simp [reading.used, reading.file]),
    if_pos ⟨by rw [reading.names]; exact named, rooted⟩, reading.names, reading.here, wrote,
    ok_bind, ok]
  rfl

theorem Reading.seek_begin (reading : Reading s fd inode offset) (named : inode ≠ 0)
    (rooted : s.vfs.yafs.rootLba ≠ 0) :
    ∃ s', vfsLseek s fd 0 seekSet = .ok (s', .done 0) ∧ s'.vfs = s.vfs ∧ Reading s' fd inode 0 := by
  have notPipe : ¬(s.fdTable fd).IsPipe := fun isPipe => named (reading.names.symm.trans isPipe.2)
  obtain ⟨file, isFile⟩ := Option.ne_none_iff_exists'.mp reading.file
  have notDev : ¬s.devfs.IsFd fd := (FdState.backend_eq_none.mp reading.plain).2.2.2
  have target : (max ((0 : Int) + 0) 0).toNat % 2 ^ 32 = 0 := by decide
  have zero : signed 32 0 = 0 := by decide
  refine ⟨s.setFd fd { s.fdTable fd with offset := 0 }, ?_, rfl, reading.moved 0⟩
  rw [vfsLseek, dif_pos ⟨fd.isLt, reading.ready⟩, if_neg notDev]
  dsimp only
  rw [reading.used, isFile]
  dsimp only
  rw [if_neg notPipe, if_pos ⟨by rw [reading.names]; exact named, rooted⟩, yafsBase, if_pos rfl,
    pure_eq_ok, ok_bind]
  dsimp only
  rw [target, zero]
  rfl

theorem NewFile.write {state : State} {lba : Nat} (new : NewFile state bindings inode lba)
    {buf : List UInt8}
    (some : buf.length ≠ 0) (short : buf.length ≤ dataBlockSize) :
    WritesWhole state.yafs inode 0 buf.length ∧ ∃ out,
    writeFileData state.yafs inode buf 0 = .ok out ∧
      out.ok = true ∧ out.written = buf.length ∧ out.state.rootLba ≠ 0 ∧
      HasBlock out.state inode 0 ∧
      ∃ record, readInodeRaw out.state inode = .ok (.some (lba, record)) ∧
        record.size = buf.length := by
  have few := new.few
  obtain ⟨name, image⟩ := new.image
  have one : chunkCount 0 buf.length = 1 := by
    rw [chunkCount, if_neg some]
    unfold dataBlockSize at *
    omega
  have room : HasRoom inode 1 state.yafs 0 :=
    hasRoom_small new.inv.yafs.rep inode 0 (by unfold fewBlocks btreeMaxKeys; omega)
  have fits : 0 + buf.length ≤ fileCeiling := by
    unfold fileCeiling maxFileBlocks dataBlockSize at *
    omega
  have whole : WritesWhole state.yafs inode 0 buf.length := by
    refine .inr (.inr ⟨fits, ?_⟩)
    rw [Nat.zero_div, Nat.zero_mod, one]
    exact room
  obtain ⟨out, ran, run⟩ := writeFileData_run new.inv.yafs inode buf 0
  cases run with
  | nothing refused => exact absurd refused (not_or.mpr ⟨some, by decide⟩)
  | failed _ _ loop isFailed =>
    rcases loop.ended with ⟨ok, _⟩ | ⟨_, less, noRoom⟩
    · cases isFailed.symm.trans ok
    · rw [Nat.zero_mod, one] at less
      rw [Nat.zero_div] at noRoom
      exact absurd (room.mono less) noRoom
  | @stored out after count height' bindings' _ _ loop ok updated =>
    obtain ⟨afterHeight, edits⟩ := updated.edits
    have tag := keyTag_inodeKey inode
    obtain ⟨stillBound, middleImage⟩ := loop.record_still new.inv.yafs new.bound image
    have newImage := updated.record lba _ stillBound middleImage
    have newSize :=
      loop.newSize ok (by unfold fileCeiling maxFileBlocks dataBlockSize at fits; omega)
    have counted := loop.count_eq ok
    rw [newSize] at newImage
    rw [Nat.zero_mod, one] at counted
    have present : fileBlocks after bindings' inode 0 ≠ none := by
      rw [fileBlocks, edits.files _ (keyTag_extentKey inode 0)]
      exact loop.filled 0 (Nat.le_of_eq (Nat.zero_div _)) (by rw [counted]; exact Nat.succ_pos _)
    refine ⟨whole, _, ran, rfl, ?_, ?_, (edits.inv.hasBlock_iff inode 0).mpr present, _,
      readInodeRaw_eq edits.inv stillBound newImage, ?_⟩
    · have stored := loop.written
      rw [counted, Nat.zero_mod] at stored
      dsimp only
      omega
    · exact edits.inv.rep.rooted_of_bound (inodeKey inode)
        (by rw [stillBound]; exact Option.some_ne_none lba)
    · unfold grown
      dsimp only
      split <;> omega

theorem newFile_written (blocks : Nat → Block) (buf : List UInt8) (some : buf.length ≠ 0)
    (short : buf.length ≤ dataBlockSize) :
    ∃ start initial final, boot blocks = .ok start ∧
      Steps VfsStep start [.createFile (.some (cstr "/f"))] initial.vfs ∧
      EmptyFile initial.vfs.yafs 1000 ∧
      Steps (Guarded (DataStep 1000) (WholeCalls 1000)) ⟨initial, fun _ => none⟩
        [.write 0 buf, .lseek 0 0 seekSet] final ∧
      Reading final.state 0 1000 0 ∧ HasBlock final.state.vfs.yafs 1000 0 ∧
      ∃ lba record, readInodeRaw final.state.vfs.yafs 1000 = .ok (.some (lba, record)) ∧
        record.size = buf.length := by
  obtain ⟨start, state, bindings, lba, booted, making, new⟩ := newFile blocks
  obtain ⟨whole, out, wrote, ok, written, rooted, present, record, isRecord, size⟩ :=
    new.write some short
  have opened : Reading ((initialFds state).setFd 0 ⟨.some 0, 0, 0, true, 1000⟩) 0 1000 0 := by
    refine ⟨new.ready, initial_plain state 0, ?_, ?_, ?_, ?_⟩
    all_goals rw [FdState.setFd_fdTable, Function.update_self]
    exact Option.some_ne_none 0
  obtain ⟨middle, ran, sameYafs, middleReading⟩ :=
    opened.vfsWrite_eq (by decide) new.rooted wrote ok
  rw [← sameYafs] at rooted present isRecord
  obtain ⟨final, sought, sameVfs, finalReading⟩ := middleReading.seek_begin (by decide) rooted
  rw [← sameVfs] at present isRecord
  have isEmpty : EmptyFile state.yafs 1000 := by
    obtain ⟨name, image⟩ := new.image
    refine ⟨⟨lba, _, readInodeRaw_eq new.inv.yafs new.bound image, rfl⟩, fun index => ?_⟩
    · rw [new.inv.yafs.hasBlock_iff, fileBlocks,
        fileBlock_none (new.noFiles _ (keyTag_extentKey 1000 index))]
      exact fun present => present rfl
  obtain ⟨_, sameInode, sameOffset⟩ := opened.descriptor_eq
  have wholeCall : WholeCalls 1000 ⟨(initialFds state).setFd 0 ⟨.some 0, 0, 0, true, 1000⟩,
    fun _ => none⟩
      (.write 0 buf) := by
    refine ⟨?_, fun _ => ?_⟩
    · exact lt_of_eq_of_lt sameInode (by decide)
    · rw [show FdState.descriptor _ 0 = FdState.descriptor _ (0 : Fin maxFds).val from rfl,
        sameOffset]
      exact whole
  exact ⟨start, _, _, booted, making, isEmpty,
    .step (.step .refl ⟨wholeCall, .write ran⟩) ⟨trivial, .lseek sought⟩, finalReading, present,
    lba, record,
    isRecord, size⟩

theorem run_reflects {blocks : Nat → Block} {start : State} {made : List Call} {initial : FdState}
    {number : Nat}
    {calls : List DataCall} {final : FileLog} (booted : boot blocks = .ok start)
    (making : Steps VfsStep start made initial.vfs) (empty : EmptyFile initial.vfs.yafs number)
    (named : number ≠ 0)
    (small : number < 2 ^ 44)
    (run :
      Steps (Guarded (DataStep number) (WholeCalls number)) ⟨initial, fun _ => none⟩ calls final) :
    ∃ height bindings, Reflects final.state.vfs.yafs height bindings number final.last := by
  obtain ⟨_, _, initially⟩ := mounted_sound booted making
  refine run.invariant (fun log => ∃ height bindings,
    Reflects log.state.vfs.yafs height bindings number log.last)
    ?_ ⟨_, _, empty.reflects initially.yafs⟩
  rintro log call next ⟨height, bindings, reflects⟩ ⟨whole, step⟩
  exact step.reflects named small whole reflects

/-- The sequential read is right if and only if the file has all its blocks and they make up its
size. -/
theorem sequential_read_iff {blocks : Nat → Block} {start : State} {made : List Call}
    {initial : FdState}
    {number : Nat} {calls : List DataCall} {final : FileLog}
    (booted : boot blocks = .ok start) (making : Steps VfsStep start made initial.vfs)
    (empty : EmptyFile initial.vfs.yafs number) (named : number ≠ 0) (small : number < 2 ^ 44)
    (run :
      Steps (Guarded (DataStep number) (WholeCalls number)) ⟨initial, fun _ => none⟩ calls final) :
    ∃ lba record, readInodeRaw final.state.vfs.yafs number = .ok (some (lba, record)) ∧
      ∀ fd, Reading final.state fd number 0 → ∀ sizes : Nat → Nat, (∀ round, 0 < sizes round) →
        (ReadsAll final.state fd sizes ((List.range record.size).map fun pos =>
          (final.last pos).getD 0) ↔
          WholeBlocks final.state.vfs.yafs number record.size) := by
  obtain ⟨_, _, reflects⟩ := run_reflects booted making empty named small run
  exact reflects_read_iff named reflects

/-- A block of sevens read back in pieces of 512 bytes. -/
theorem sequential_read_block : ∃ start initial final, boot (fun _ => .zero) = .ok start ∧
    Steps VfsStep start [.createFile (some (cstr "/f"))] initial.vfs ∧
    Steps (Guarded (DataStep 1000) (WholeCalls 1000)) ⟨initial, fun _ => none⟩
      [.write 0 (List.replicate 4096 7), .lseek 0 0 seekSet] final ∧
    ReadsAll final.state 0 (fun _ => 512) ((List.range 4096).map fun pos =>
      (final.last pos).getD 0) := by
  have size : (List.replicate 4096 (7 : UInt8)).length = 4096 := length_replicate
  obtain ⟨start, initial, final, booted, making, empty, run, reading, present, lba, record,
      isRecord, recordSize⟩ :=
    newFile_written (fun _ => .zero) (List.replicate 4096 7) (by rw [size]; decide)
      (by rw [size]; decide)
  rw [size] at recordSize
  obtain ⟨lba', record', isRecord', iff⟩ :=
    sequential_read_iff booted making empty (by decide) (by decide) run
  cases isRecord.symm.trans isRecord'
  have whole : WholeBlocks final.state.vfs.yafs 1000 record.size := by
    rw [recordSize]
    refine ⟨rfl, fun index less => ?_⟩
    rw [Nat.lt_one_iff.mp less]
    exact present
  refine ⟨start, initial, final, booted, making, run, ?_⟩
  rw [← recordSize]
  exact (iff 0 reading _ fun _ => by decide).mpr whole

/-- One byte is written to a new file; its sequential read returns 4096. -/
theorem not_reads_size :
    ¬∀ (blocks : Nat → Block) (start : State) (made : List Call) (initial : FdState)
    (number : Nat) (calls : List DataCall) (final : FileLog), boot blocks = .ok start →
    Steps VfsStep start made initial.vfs → EmptyFile initial.vfs.yafs number → number ≠ 0 →
    number < 2 ^ 44 →
    Steps (DataStep number) ⟨initial, fun _ => none⟩ calls final →
    ∃ lba record, readInodeRaw final.state.vfs.yafs number = .ok (some (lba, record)) ∧
      ∀ fd, Reading final.state fd number 0 → ∀ sizes : Nat → Nat, (∀ round, 0 < sizes round) →
        ReadsAll final.state fd sizes ((List.range record.size).map fun pos =>
          (final.last pos).getD 0) := by
  intro reads
  obtain ⟨start, initial, final, booted, making, empty, run, reading, _, lba, record, isRecord,
      recordSize⟩ :=
    newFile_written (fun _ => .zero) [1] (by decide) (by decide)
  obtain ⟨lba', record', isRecord', all⟩ :=
    reads _ start _ initial 1000 _ final booted making empty (by decide)
    (by decide) (run.mono fun _ _ _ guarded => guarded.2)
  cases isRecord.symm.trans isRecord'
  obtain ⟨_, _, reflects⟩ := run_reflects booted making empty (by decide) (by decide) run
  obtain ⟨lba', record', isRecord', iff⟩ := reflects_read_iff (by decide) reflects
  cases isRecord.symm.trans isRecord'
  have whole :=
    (iff 0 reading (fun _ => 1) fun _ => by decide).mp (all 0 reading _ fun _ => by decide)
  rw [recordSize] at whole
  exact absurd whole.1 (by decide)

end M4KK1.Vfs
