import M4KK1.Yafs.FileData
import M4KK1.Yafs.NamespaceCalls

/-!
# What file reads, writes and truncations do

Data blocks by index; a chunk of a write changes one of them and nothing else.
-/

namespace M4KK1.Yafs

open Lib Function List

variable {state : BtreeState} {height : Nat} {bindings : Nat → Option Nat}

def fileBlock (device : Device) (bindings : Nat → Option Nat) (key : Nat) :
    Option (Nat → UInt8) :=
  match bindings key with
  | none => none
  | some extent =>
    match device.blocks (extentLba extent) with
    | .data bytes => some bytes
    | _ => none

def fileBlocks (state : BtreeState) (bindings : Nat → Option Nat) (inode index : Nat) :
    Option (Nat → UInt8) :=
  fileBlock state.device bindings (extentKey inode index)

variable {key : Nat}

theorem fileBlock_none {device : Device} (unbound : bindings key = none) :
    fileBlock device bindings key = none := by
  simp [fileBlock, unbound]

theorem fileBlock_some {device : Device} {extent : Nat} {bytes : Nat → UInt8}
    (bound : bindings key = some extent) (image : device.blocks (extentLba extent) = .data bytes) :
    fileBlock device bindings key = some bytes := by
  simp [fileBlock, bound, image]

theorem YafsInv.dataRead_eq (inv : YafsInv state height bindings) {extent : Nat}
    (tag : keyTag key = ksExtent) (bound : bindings key = some extent) :
    ∃ bytes, state.device.blocks (extentLba extent) = .data bytes ∧
      fileBlock state.device bindings key = some bytes ∧
      dataRead state.device (extentLba extent) = .ok (some bytes) ∧ extentLength extent = 1 := by
  obtain ⟨single, allocated, bytes, image⟩ := inv.filed.extent tag bound
  have limit := inv.rep.limit
  have readable : ¬ extentLba extent ≥ ramdiskBlocks := by omega
  refine ⟨bytes, image, fileBlock_some bound image, ?_, single⟩
  simp [dataRead, devRead, readable, image, Block.asData]

def readBlocks (block : Nat → Option (Nat → UInt8)) : Nat → ReadCursor → ReadCursor
  | 0, cursor => cursor
  | fuel + 1, cursor =>
    if cursor.remaining = 0 then cursor
    else
      match block cursor.blockIdx with
      | none => cursor
      | some bytes => readBlocks block fuel (cursor.take bytes)

theorem ReadCursor.take_remaining {cursor : ReadCursor} (wanted : cursor.remaining ≠ 0)
    (inside : cursor.blockOff < dataBlockSize) (bytes : Nat → UInt8) :
    (cursor.take bytes).remaining < cursor.remaining ∧
    (cursor.take bytes).blockOff < dataBlockSize := by
  unfold ReadCursor.take dataBlockSize at *
  simp only
  omega

theorem readLoop_eq (inv : YafsInv state height bindings) (inode : Nat) {fuel : Nat}
    (cursor : ReadCursor) (enough : cursor.remaining < fuel)
    (inside : cursor.blockOff < dataBlockSize) :
    readLoop state inode fuel cursor =
      .ok (readBlocks (fileBlocks state bindings inode) fuel cursor, true) := by
  induction fuel generalizing cursor with
  | zero => omega
  | succ fuel ih =>
    unfold readLoop readBlocks
    by_cases none : cursor.remaining = 0
    · simp only [none, if_true, pure_eq_ok]
    · simp only [none, if_false]
      rw [inv.rep.lookup, ok_bind]
      cases bound : bindings (extentKey inode cursor.blockIdx) with
      | none => simp only [fileBlocks, fileBlock_none bound, pure_eq_ok]
      | some extent =>
        obtain ⟨bytes, _, block, read, single⟩ := inv.dataRead_eq (keyTag_extentKey _ _) bound
        obtain ⟨less, stillInside⟩ := ReadCursor.take_remaining none inside bytes
        simp only [fileBlocks, block]
        rw [single, if_neg Nat.one_ne_zero]
        simp only [readExtent, none, if_false, Nat.add_zero]
        rw [read]
        simp only [ok_bind, pure_eq_ok, Bool.true_eq_false, if_false]
        exact ih _ (by omega) stillInside

theorem readFileData_eq (inv : YafsInv state height bindings) (inode offset size : Nat) :
    readFileData state inode offset size =
      .ok (if size = 0 ∨ offset / dataBlockSize ≥ maxFileBlocks then []
        else (readBlocks (fileBlocks state bindings inode) (size + 1)
          ⟨size, offset / dataBlockSize, offset % dataBlockSize, []⟩).out, true) := by
  unfold readFileData
  by_cases empty : size = 0
  · simp [empty]
  · by_cases past : offset / dataBlockSize ≥ maxFileBlocks
    · simp [empty, past]
    · simp only [empty, past, if_false, or_self]
      have inside : offset % dataBlockSize < dataBlockSize := Nat.mod_lt _ (by decide)
      rw [readLoop_eq inv inode _ (Nat.lt_succ_self size) inside]
      rfl

def byteAt (block : Nat → Option (Nat → UInt8)) (pos : Nat) : Option UInt8 :=
  (block (pos / dataBlockSize)).map fun bytes => bytes (pos % dataBlockSize)

theorem byteAt_block (block : Nat → Option (Nat → UInt8)) {index offset : Nat}
    (inside : offset < dataBlockSize) :
    byteAt block (index * dataBlockSize + offset) = (block index).map fun bytes =>
      bytes offset := by
  unfold dataBlockSize at inside
  have quotient : (index * 4096 + offset) / 4096 = index := by omega
  have rest : (index * 4096 + offset) % 4096 = offset := by omega
  simp only [byteAt, dataBlockSize, quotient, rest]

theorem readBlocks_out {block : Nat → Option (Nat → UInt8)} {fuel : Nat} (cursor : ReadCursor)
    (content : Nat → UInt8) (enough : cursor.remaining < fuel)
    (inside : cursor.blockOff < dataBlockSize)
    (present : ∀ i, i < cursor.remaining →
      byteAt block (cursor.blockIdx * dataBlockSize + cursor.blockOff + i) = some (content i)) :
    (readBlocks block fuel cursor).out = cursor.out ++
    (List.range cursor.remaining).map content := by
  induction fuel generalizing cursor content with
  | zero => omega
  | succ fuel ih =>
    unfold readBlocks
    by_cases none : cursor.remaining = 0
    · simp [none]
    · rw [if_neg none]
      have first := present 0 (Nat.pos_of_ne_zero none)
      rw [Nat.add_zero, byteAt_block block inside] at first
      cases found : block cursor.blockIdx with
      | none => simp [found] at first
      | some bytes =>
        obtain ⟨less, stillInside⟩ := ReadCursor.take_remaining none inside bytes
        simp only
        have copied : ∀ i, i < min (dataBlockSize - cursor.blockOff) cursor.remaining →
            bytes (cursor.blockOff + i) = content i := by
          intro i small
          have here := present i (by omega)
          rw [Nat.add_assoc, byteAt_block block (by omega), found] at here
          exact Option.some.inj here
        rw [ih (cursor.take bytes)
          (fun i => content (min (dataBlockSize - cursor.blockOff) cursor.remaining + i)) (by omega)
          stillInside ?_]
        · have split : cursor.remaining =
              min (dataBlockSize - cursor.blockOff) cursor.remaining +
                (cursor.take bytes).remaining := by
            simp only [ReadCursor.take]
            omega
          conv_rhs => rw [split, range_add]
          simp only [ReadCursor.take, map_append, map_map, append_assoc]
          congr 2
          exact map_congr_left fun i member => copied i (mem_range.mp member)
        · intro i small
          have here := present (min (dataBlockSize - cursor.blockOff) cursor.remaining + i)
            (by simp only [ReadCursor.take] at small; omega)
          rw [← here]
          apply congrArg (byteAt block)
          simp only [ReadCursor.take, dataBlockSize] at small ⊢
          unfold dataBlockSize at inside
          omega

theorem readFileData_byte (inv : YafsInv state height bindings) (inode : Nat) {pos : Nat}
    (below : pos < maxFileBlocks * dataBlockSize) :
    readFileData state inode pos 1 = .ok ((byteAt (fileBlocks state bindings inode) pos).toList,
      true) := by
  have notPast : ¬ pos / dataBlockSize ≥ maxFileBlocks := by
    unfold maxFileBlocks dataBlockSize at *
    omega
  rw [readFileData_eq inv, if_neg (by omega)]
  unfold readBlocks byteAt
  simp only [Nat.one_ne_zero, if_false]
  cases fileBlocks state bindings inode (pos / dataBlockSize) with
  | none => rfl
  | some bytes =>
    have inside : pos % dataBlockSize < dataBlockSize := Nat.mod_lt _ (by decide)
    have one : min (dataBlockSize - pos % dataBlockSize) 1 = 1 := by omega
    simp [readBlocks, ReadCursor.take, one]

theorem extentKey_inj {inode inode' index index' : Nat} (small : inode < 2 ^ 44)
    (small' : inode' < 2 ^ 44) (below : index < maxFileBlocks) (below' : index' < maxFileBlocks)
    (same : extentKey inode index = extentKey inode' index') :
    inode = inode' ∧ index = index' := by
  unfold maxFileBlocks at below below'
  unfold extentKey at same
  rw [makeKey_pair (by decide), makeKey_pair (by decide), Nat.mod_eq_of_lt small,
    Nat.mod_eq_of_lt small'] at same
  omega

/-- Every block but those of extent keys in `changed` keeps its contents. -/
structure KeepsFiles (before after : Device) (bindings bindings' : Nat → Option Nat)
    (changed : Nat → Prop) : Prop where
  keeps : KeepsKinds before after
  names : ∀ key, keyTag key ≠ ksExtent → bindings' key = bindings key
  records : ∀ {lba : Nat} {record : InodeValue}, lba < before.nextFreeBlock →
    before.blocks lba = .inode record → after.blocks lba = .inode record
  blocks : ∀ key, keyTag key = ksExtent → ¬ changed key →
    fileBlock after bindings' key = fileBlock before bindings key

theorem KeepsFiles.refl (device : Device) (bindings : Nat → Option Nat) (changed : Nat → Prop) :
    KeepsFiles device device bindings bindings changed :=
  ⟨.refl device, fun _ _ => rfl, fun _ image => image, fun _ _ _ => rfl⟩

theorem KeepsFiles.trans {first second third : Device} {map map' map'' : Nat → Option Nat}
    {changed : Nat → Prop} (left : KeepsFiles first second map map' changed)
    (right : KeepsFiles second third map' map'' changed) :
    KeepsFiles first third map map'' changed where
  keeps := left.keeps.trans right.keeps
  names key other := (right.names key other).trans (left.names key other)
  records allocated image := right.records (Nat.lt_of_lt_of_le allocated left.keeps.next_le)
    (left.records allocated image)
  blocks key tag same := (right.blocks key tag same).trans (left.blocks key tag same)

theorem KeepsFiles.mono {before after : Device} {map map' : Nat → Option Nat}
    {changed changed' : Nat → Prop} (kept : KeepsFiles before after map map' changed)
    (wider : ∀ key, changed key → changed' key) : KeepsFiles before after map map' changed' :=
  { kept with
    blocks := fun key tag same => kept.blocks key tag fun touched => same (wider key touched) }

theorem YafsInv.keepsFiles (inv : YafsInv state height bindings) {after : Device}
    (frame : Extends state.device after) (changed : Nat → Prop) :
    KeepsFiles state.device after bindings bindings changed where
  keeps := frame.keepsKinds
  names _ _ := rfl
  records allocated image := (frame.kept _ allocated).trans image
  blocks key tag _ := by
    cases bound : bindings key with
    | none => rw [fileBlock_none bound, fileBlock_none bound]
    | some extent =>
      obtain ⟨_, allocated, bytes, image⟩ := inv.filed.extent tag bound
      rw [fileBlock_some bound image, fileBlock_some bound ((frame.kept _ allocated).trans image)]

/-- The chunk lies over the old block. -/
def Overlaid (old : Option (Nat → UInt8)) (offset : Nat) (chunk : List UInt8)
    (new : Option (Nat → UInt8)) : Prop :=
  ∃ bytes, new = some bytes ∧ ∀ i, i < dataBlockSize →
    bytes i = overlay (old.getD fun _ => 0) offset chunk i

inductive ChunkOutcome (state : BtreeState) (height : Nat) (bindings : Nat → Option Nat)
    (key offset : Nat) (chunk : List UInt8) : BtreeState × Bool → Prop where
  | full {after : Device} (frame : Extends state.device after)
      (used : after.nextFreeBlock = ramdiskBlocks) :
      ChunkOutcome state height bindings key offset chunk (⟨after, state.rootLba⟩, false)
  | stored {after : BtreeState} {height' : Nat} {bindings' : Nat → Option Nat}
      (inv : YafsInv after height' bindings')
      (rooted : state.rootLba ≠ 0 → after.rootLba ≠ 0)
      (kept : KeepsFiles state.device after.device bindings bindings' (· = key))
      (block : Overlaid (fileBlock state.device bindings key) offset chunk
        (fileBlock after.device bindings' key)) :
      ChunkOutcome state height bindings key offset chunk (after, true)

theorem YafsInv.writeData (inv : YafsInv state height bindings) {extent : Nat}
    (tag : keyTag key = ksExtent) (bound : bindings key = some extent) (bytes : Nat → UInt8) :
    ∃ after, devWrite state.device (extentLba extent) (.data bytes) = (after, true) ∧
      YafsInv ⟨after, state.rootLba⟩ height bindings ∧
      KeepsFiles state.device after bindings bindings (· = key) ∧
      fileBlock after bindings key = some bytes := by
  obtain ⟨_, allocated, old, image⟩ := inv.filed.extent tag bound
  have limit := inv.rep.limit
  have writable : ¬ extentLba extent ≥ ramdiskBlocks := by omega
  have keeps := keepsKinds_writeData image bytes
  refine ⟨_, if_neg writable, inv.frame keeps limit, ⟨keeps, fun _ _ => rfl, ?_, ?_⟩,
    fileBlock_some bound (by simp)⟩
  · intro lba record _ recordImage
    have apart : lba ≠ extentLba extent := by
      rintro rfl
      rw [image] at recordImage
      cases recordImage
    simpa [update_of_ne apart] using recordImage
  · intro other otherTag different
    cases otherBound : bindings other with
    | none => rw [fileBlock_none otherBound, fileBlock_none otherBound]
    | some extent' =>
      have apart : extentLba extent' ≠ extentLba extent := by
        intro same
        apply different
        apply inv.filed.apart otherBound bound
        · exact show _ = some (extentLba extent') by
            simp [ownedBlock, otherTag, ksExtent, ksInode]
        · simp [ownedBlock, tag, ksExtent, ksInode, same]
      simp [fileBlock, otherBound, update_of_ne apart]

theorem writeChunk_spec (inv : YafsInv state height bindings) (inode index offset : Nat)
    (chunk : List UInt8) :
    ∃ out, writeChunk state inode index offset chunk = .ok out ∧
      ChunkOutcome state height bindings (extentKey inode index) offset chunk out := by
  have tag := keyTag_extentKey inode index
  have positive := inv.rep.positive
  unfold writeChunk
  rw [inv.rep.lookup, ok_bind]
  generalize extentKey inode index = key at tag
  cases bound : bindings key with
  | some extent =>
    obtain ⟨bytes, _, block, read, single⟩ := inv.dataRead_eq tag bound
    simp only [extentBlock, single, Nat.one_ne_zero, if_false]
    by_cases whole : offset = 0 ∧ chunk.length = dataBlockSize
    · obtain ⟨after, written, afterInv, kept, newBlock⟩ :=
        inv.writeData tag bound (overlay (fun _ => 0) 0 chunk)
      rw [if_pos whole, written]
      refine ⟨_, rfl, .stored afterInv id kept ⟨_, newBlock, fun i inside => ?_⟩⟩
      rw [whole.1]
      simp only [overlay, whole.2, Nat.zero_add, Nat.zero_le, true_and, if_pos inside]
    · obtain ⟨after, written, afterInv, kept, newBlock⟩ :=
        inv.writeData tag bound (overlay bytes offset chunk)
      rw [if_neg whole, read, ok_bind]
      simp only [written]
      refine ⟨_, rfl, .stored afterInv id kept ⟨_, newBlock, fun i inside => ?_⟩⟩
      rw [block, Option.getD_some]
  | none =>
    simp only [extentBlock]
    cases devAllocBlock_stocked inv.rep.limit
        (.data (overlay (fun _ => 0) offset chunk)) with
    | full used alloc =>
      rw [alloc]
      exact ⟨_, rfl, .full (.refl _) used⟩
    | stored taken stored room alloc write frame next image =>
      simp only [alloc, write]
      rw [if_neg (by omega)]
      have rep := inv.rep.frame frame.keepsNodes (by omega)
      obtain ⟨out, ran, outcome⟩ :=
        btreeInsert_spec rep key (extentPack state.device.nextFreeBlock blocksPerExtent)
      rw [ran, ok_bind]
      cases outcome with
      | failed grown short used =>
        refine ⟨_, rfl, .full ((frame.trans grown).trans (extends_devFreeBlock _ _)) ?_⟩
        simpa using used
      | inserted after grown taken newRep rooted =>
        have fits : state.device.nextFreeBlock < 2 ^ 48 := by
          unfold ramdiskBlocks at room
          omega
        have packed := extentLba_extentPack fits blocksPerExtent
        have allocated : state.device.nextFreeBlock < stored.nextFreeBlock := by omega
        have newImage := (grown.kept _ allocated).trans image
        have single : extentLength (extentPack state.device.nextFreeBlock blocksPerExtent) = 1 :=
          extentLength_extentPack fits (by decide)
        have filed := inv.filed.addExtent (frame.trans grown).keepsKinds tag single
          (Nat.le_of_eq packed.symm)
          (by rw [packed]; exact Nat.lt_of_lt_of_le allocated grown.next_le)
          (by rw [packed]; exact newImage)
        have old := inv.keepsFiles (frame.trans grown) (· = key)
        refine ⟨_, rfl, .stored ⟨newRep, filed⟩ (fun _ => rooted)
          ⟨old.keeps, ?_, old.records, ?_⟩
          ⟨overlay (fun _ => 0) offset chunk, ?_, fun i inside => ?_⟩⟩
        · intro other otherTag
          exact update_of_ne (fun same : other = key => otherTag (same ▸ tag)) _ _
        · intro other otherTag different
          rw [← old.blocks other otherTag different]
          simp only [fileBlock, update_of_ne different]
        · exact fileBlock_some (update_self ..) (by rw [packed]; exact newImage)
        · rw [fileBlock_none bound, Option.getD_none]

/-- A block that holds one of `len` bytes from `pos` on. -/
def Touched (pos len index : Nat) : Prop :=
  0 < len ∧ index * dataBlockSize < pos + len ∧ pos < (index + 1) * dataBlockSize

instance (pos len index : Nat) : Decidable (Touched pos len index) :=
  inferInstanceAs (Decidable (_ ∧ _ ∧ _))

/-- The bytes of a file once `buf` is laid over them from `pos` on. -/
def Written (before after : Nat → Option (Nat → UInt8)) (pos : Nat) (buf : List UInt8) : Prop :=
  ∀ p, p < maxFileBlocks * dataBlockSize → byteAt after p =
    if pos ≤ p ∧ p < pos + buf.length then some (buf.getD (p - pos) 0)
    else if Touched pos buf.length (p / dataBlockSize) then some ((byteAt before p).getD 0)
    else byteAt before p

theorem written_cons {before middle after : Nat → Option (Nat → UInt8)} {index offset : Nat}
    {buf : List UInt8} (inside : offset < dataBlockSize) (some : 0 < buf.length)
    (first : Overlaid (before index) offset
      (buf.take (min (dataBlockSize - offset) buf.length)) (middle index))
    (others : ∀ other, other < maxFileBlocks → other ≠ index → middle other = before other)
    (rest : Written middle after ((index + 1) * dataBlockSize)
      (buf.drop (min (dataBlockSize - offset) buf.length))) :
    Written before after (index * dataBlockSize + offset) buf := by
  intro p below
  have restHere := rest p below
  rw [length_drop] at restHere
  have quotient : p / dataBlockSize < maxFileBlocks := by
    unfold dataBlockSize maxFileBlocks at *
    omega
  by_cases here : p / dataBlockSize = index
  · -- The rest begins in a later block.
    have notRest : ¬ ((index + 1) * dataBlockSize ≤ p ∧ p < (index + 1) * dataBlockSize +
        (buf.length - min (dataBlockSize - offset) buf.length)) := by
      unfold dataBlockSize at *
      omega
    have notTouched : ¬ Touched ((index + 1) * dataBlockSize)
        (buf.length - min (dataBlockSize - offset) buf.length) (p / dataBlockSize) := by
      rw [here]
      rintro ⟨_, _, less⟩
      omega
    rw [if_neg notRest, if_neg notTouched] at restHere
    obtain ⟨bytes, present, overlaid⟩ := first
    have modulus : p % dataBlockSize < dataBlockSize := Nat.mod_lt _ (by decide)
    have whole : p = index * dataBlockSize + p % dataBlockSize := by
      unfold dataBlockSize at *
      omega
    rw [restHere, whole, byteAt_block middle modulus, present, Option.map_some,
      overlaid _ modulus, byteAt_block before modulus]
    have touched : Touched (index * dataBlockSize + offset) buf.length
        ((index * dataBlockSize + p % dataBlockSize) / dataBlockSize) := by
      rw [← whole, here]
      unfold Touched dataBlockSize at *
      omega
    rw [if_pos touched]
    unfold overlay
    by_cases covered : offset ≤ p % dataBlockSize ∧ p % dataBlockSize <
        offset + (buf.take (min (dataBlockSize - offset) buf.length)).length
    · rw [List.length_take] at covered
      rw [if_pos (by rw [List.length_take]; exact covered), if_pos (by omega)]
      have index : index * dataBlockSize + p % dataBlockSize -
          (index * dataBlockSize + offset) = p % dataBlockSize - offset := by omega
      rw [index, getD_eq_getElem?_getD, getD_eq_getElem?_getD, getElem?_take_of_lt (by omega)]
    · rw [if_neg covered]
      rw [List.length_take] at covered
      rw [if_neg (by omega)]
      cases before index <;> rfl
  · have same : byteAt middle p = byteAt before p := by
      unfold byteAt
      rw [others _ quotient here]
    rw [restHere, same]
    by_cases covered : index * dataBlockSize + offset ≤ p ∧
        p < index * dataBlockSize + offset + buf.length
    · have restCovered : (index + 1) * dataBlockSize ≤ p ∧ p < (index + 1) * dataBlockSize +
          (buf.length - min (dataBlockSize - offset) buf.length) := by
        unfold dataBlockSize at *
        omega
      have position : min (dataBlockSize - offset) buf.length +
          (p - (index + 1) * dataBlockSize) = p - (index * dataBlockSize + offset) := by
        unfold dataBlockSize at *
        omega
      rw [if_pos covered, if_pos restCovered, getD_eq_getElem?_getD,
        getD_eq_getElem?_getD, getElem?_drop, position]
    · have restUncovered : ¬ ((index + 1) * dataBlockSize ≤ p ∧ p < (index + 1) * dataBlockSize +
          (buf.length - min (dataBlockSize - offset) buf.length)) := by
        unfold dataBlockSize at *
        omega
      have sameTouched : Touched ((index + 1) * dataBlockSize)
            (buf.length - min (dataBlockSize - offset) buf.length) (p / dataBlockSize) ↔
          Touched (index * dataBlockSize + offset) buf.length (p / dataBlockSize) := by
        unfold Touched dataBlockSize at *
        omega
      rw [if_neg covered, if_neg restUncovered]
      exact if_congr sameTouched rfl rfl

def ExtentOf (inode key : Nat) : Prop := ∃ index, key = extentKey inode index

/-- What every run of the write loop leaves behind, and what a run that returns 0
wrote. -/
structure LoopOutcome (state : BtreeState) (bindings : Nat → Option Nat) (inode pos : Nat)
    (buf : List UInt8) (written height' : Nat) (bindings' : Nat → Option Nat) (out : WriteOut) :
    Prop where
  inv : YafsInv out.state height' bindings'
  rooted : state.rootLba ≠ 0 → out.state.rootLba ≠ 0
  kept : KeepsFiles state.device out.state.device bindings bindings' (ExtentOf inode)
  short : out.ok = false → out.state.device.nextFreeBlock = ramdiskBlocks
  all : out.ok = true → out.written = written + buf.length
  bytes : out.ok = true → inode < 2 ^ 44 → pos + buf.length ≤ maxFileBlocks * dataBlockSize →
    Written (fileBlocks state bindings inode) (fileBlocks out.state bindings' inode) pos buf

theorem writeLoop_spec (inv : YafsInv state height bindings) (inode : Nat) {fuel : Nat}
    (index : Nat) {offset : Nat} (buf : List UInt8) (written : Nat) (enough : buf.length < fuel)
    (inside : offset < dataBlockSize) :
    ∃ out height' bindings', writeLoop inode fuel state index offset buf written = .ok out ∧
      LoopOutcome state bindings inode (index * dataBlockSize + offset) buf written height'
        bindings' out := by
  induction fuel generalizing state height bindings index offset buf written with
  | zero => omega
  | succ fuel ih =>
    unfold writeLoop
    by_cases empty : buf.length = 0
    · rw [if_pos empty]
      refine ⟨_, height, bindings, rfl, inv, id, .refl _ _ _, (fun failed => nomatch failed),
        fun _ => by simp only; omega, fun _ _ _ p below => ?_⟩
      have notTouched : ¬ Touched (index * dataBlockSize + offset) buf.length
          (p / dataBlockSize) := by
        rintro ⟨some, _⟩
        omega
      rw [if_neg (by omega), if_neg notTouched]
    · rw [if_neg empty]
      obtain ⟨⟨middle, stored⟩, ran, outcome⟩ := writeChunk_spec inv inode index offset
        (buf.take (min (dataBlockSize - offset) buf.length))
      simp only
      rw [ran, ok_bind]
      cases outcome with
      | full frame used =>
        exact ⟨_, height, bindings, rfl, inv.frame frame.keepsKinds (Nat.le_of_eq used), id,
          inv.keepsFiles frame _, fun _ => used, (fun ok => nomatch ok), fun ok => nomatch ok⟩
      | @stored _ _ middleMap middleInv middleRooted kept block =>
        simp only [Bool.true_eq_false, if_false]
        obtain ⟨out, height', bindings', restRan, rest⟩ := ih middleInv (index + 1)
          (buf.drop (min (dataBlockSize - offset) buf.length))
          (written + min (dataBlockSize - offset) buf.length)
          (by rw [length_drop]; omega) (show 0 < dataBlockSize by decide)
        refine ⟨out, height', bindings', restRan, rest.inv,
          fun isRooted => rest.rooted (middleRooted isRooted),
          (kept.mono fun key same => ⟨index, same⟩).trans rest.kept, rest.short,
          fun ok => ?_, fun ok small fits => ?_⟩
        · have := rest.all ok
          rw [length_drop] at this
          omega
        · have restBytes := rest.bytes ok small
          rw [length_drop, Nat.add_zero] at restBytes
          have below : index < maxFileBlocks := by
            unfold dataBlockSize maxFileBlocks at *
            omega
          have others : ∀ other, other < maxFileBlocks → other ≠ index →
              fileBlocks middle middleMap inode other = fileBlocks state bindings inode other := by
            intro other otherBelow different
            refine kept.blocks _ (keyTag_extentKey _ _) fun same => different ?_
            exact (extentKey_inj small small otherBelow below same).2
          have first : Overlaid (fileBlocks state bindings inode index) offset
              (buf.take (min (dataBlockSize - offset) buf.length))
              (fileBlocks middle middleMap inode index) := block
          refine written_cons inside (Nat.pos_of_ne_zero empty) first others (restBytes ?_)
          unfold dataBlockSize maxFileBlocks at *
          omega

/-- A rewrite of the record of one inode number, if it has one. -/
structure EditsRecord (state after : BtreeState) (height : Nat) (bindings : Nat → Option Nat)
    (inode : Nat) : Prop where
  inv : YafsInv after height bindings
  root : after.rootLba = state.rootLba
  next : after.device.nextFreeBlock = state.device.nextFreeBlock
  keeps : KeepsKinds state.device after.device
  files : ∀ key, keyTag key = ksExtent →
    fileBlock after.device bindings key = fileBlock state.device bindings key
  others : ∀ lba, bindings (inodeKey inode) ≠ some lba →
    after.device.blocks lba = state.device.blocks lba

theorem EditsRecord.refl (inv : YafsInv state height bindings) (inode : Nat) :
    EditsRecord state state height bindings inode :=
  ⟨inv, rfl, rfl, .refl _, fun _ _ => rfl, fun _ _ => rfl⟩

theorem YafsInv.editRecord (inv : YafsInv state height bindings) {inode lba : Nat}
    (bound : bindings (inodeKey inode) = some lba) (record : InodeValue) :
    ∃ after, devWrite state.device lba (.inode record) = (after, true) ∧
      EditsRecord state ⟨after, state.rootLba⟩ height bindings inode := by
  obtain ⟨after, written, keeps, next, blocks, afterInv⟩ :=
    inv.writeInode (keyTag_inodeKey inode) bound record
  obtain ⟨old, image, _⟩ := inv.inodeRead_eq (keyTag_inodeKey inode) bound
  refine ⟨after, written, afterInv, rfl, next, keeps, fun key tag => ?_, fun other apart => ?_⟩
  · cases extentBound : bindings key with
    | none => rw [fileBlock_none extentBound, fileBlock_none extentBound]
    | some extent =>
      obtain ⟨_, _, bytes, data⟩ := inv.filed.extent tag extentBound
      have apart : extentLba extent ≠ lba := by
        rintro rfl
        rw [image] at data
        cases data
      simp only [fileBlock, extentBound, blocks, update_of_ne apart]
  · have different : other ≠ lba := fun same => apart (same ▸ bound)
    simp only [blocks, update_of_ne different]

theorem growInode_spec (inv : YafsInv state height bindings) (inode newSize : Nat) :
    ∃ after, growInode state inode newSize = .ok after ∧
      EditsRecord state after height bindings inode := by
  unfold growInode
  rw [inv.rep.lookup, ok_bind]
  cases bound : bindings (inodeKey inode) with
  | none => exact ⟨_, rfl, .refl inv inode⟩
  | some lba =>
    obtain ⟨record, _, read⟩ := inv.inodeRead_eq (keyTag_inodeKey inode) bound
    simp only
    rw [read, ok_bind]
    obtain ⟨after, written, edits⟩ := inv.editRecord bound
      { record with
        size := if newSize > record.size then newSize else record.size
        blocks := if (newSize + dataBlockSize - 1) % 2 ^ 64 / dataBlockSize > record.blocks then
            (newSize + dataBlockSize - 1) % 2 ^ 64 / dataBlockSize
          else record.blocks }
    simp only [written]
    exact ⟨_, rfl, edits⟩

/-- What a write leaves behind, and what a write that returns 0 wrote. -/
structure WriteOutcome (state : BtreeState) (bindings : Nat → Option Nat) (inode offset : Nat)
    (buf : List UInt8) (height' : Nat) (bindings' : Nat → Option Nat) (out : WriteOut) :
    Prop where
  inv : YafsInv out.state height' bindings'
  rooted : state.rootLba ≠ 0 → out.state.rootLba ≠ 0
  keeps : KeepsKinds state.device out.state.device
  names : ∀ key, keyTag key ≠ ksExtent → bindings' key = bindings key
  records : ∀ {key lba : Nat}, keyTag key = ksInode → key ≠ inodeKey inode →
    bindings key = some lba → out.state.device.blocks lba = state.device.blocks lba
  files : ∀ key, keyTag key = ksExtent → ¬ ExtentOf inode key →
    fileBlock out.state.device bindings' key = fileBlock state.device bindings key
  short : out.ok = false → out.state.device.nextFreeBlock = ramdiskBlocks
  all : out.ok = true → inode < 2 ^ 44 →
    offset + buf.length ≤ maxFileBlocks * dataBlockSize → out.written = buf.length ∧
      Written (fileBlocks state bindings inode) (fileBlocks out.state bindings' inode) offset buf

theorem writeFileData_spec (inv : YafsInv state height bindings) (inode : Nat) (buf : List UInt8)
    (offset : Nat) :
    ∃ out height' bindings', writeFileData state inode buf offset = .ok out ∧
      WriteOutcome state bindings inode offset buf height' bindings' out := by
  unfold writeFileData
  by_cases empty : buf.length = 0
  · rw [if_pos empty]
    refine ⟨_, height, bindings, rfl, inv, id, .refl _, fun _ _ => rfl, fun _ _ _ => rfl,
      fun _ _ _ => rfl, (fun failed => nomatch failed), fun _ _ _ => ⟨empty.symm, fun p _ => ?_⟩⟩
    have notTouched : ¬ Touched offset buf.length (p / dataBlockSize) := fun touched =>
      absurd touched.1 (by omega)
    rw [if_neg (by omega), if_neg notTouched]
  rw [if_neg empty]
  by_cases past : offset / dataBlockSize ≥ maxFileBlocks
  · rw [if_pos past]
    refine ⟨_, height, bindings, rfl, inv, id, .refl _, fun _ _ => rfl, fun _ _ _ => rfl,
      fun _ _ _ => rfl, (fun failed => nomatch failed), fun _ _ fits => ?_⟩
    unfold maxFileBlocks dataBlockSize at *
    omega
  rw [if_neg past]
  have inside : offset % dataBlockSize < dataBlockSize := Nat.mod_lt _ (by decide)
  have position : offset / dataBlockSize * dataBlockSize + offset % dataBlockSize = offset :=
    Nat.div_add_mod' offset dataBlockSize
  obtain ⟨out, height', bindings', ran, loop⟩ := writeLoop_spec inv inode
    (offset / dataBlockSize) buf 0 (Nat.lt_succ_self _) inside
  rw [position] at loop
  rw [ran, ok_bind]
  have records : ∀ {key lba : Nat}, keyTag key = ksInode → bindings key = some lba →
      out.state.device.blocks lba = state.device.blocks lba := by
    intro key lba tag bound
    obtain ⟨_, allocated, record, image⟩ := inv.filed.inode tag bound
    rw [loop.kept.records allocated image, image]
  cases ok : out.ok with
  | false =>
    refine ⟨out, height', bindings', rfl, loop.inv, loop.rooted, loop.kept.keeps, loop.kept.names,
      fun tag _ bound => records tag bound, loop.kept.blocks, fun _ => loop.short ok, fun done =>
        ?_⟩
    rw [ok] at done
    cases done
  | true =>
    obtain ⟨after, grew, edits⟩ :=
      growInode_spec loop.inv inode ((offset + out.written) % 2 ^ 64)
    simp only [Bool.true_eq_false, if_false]
    rw [grew, ok_bind]
    refine ⟨_, height', bindings', rfl, edits.inv,
      fun isRooted => by simpa [edits.root] using loop.rooted isRooted,
      loop.kept.keeps.trans edits.keeps, loop.kept.names, ?_, ?_, (fun failed => nomatch failed),
      fun _ small fits => ⟨by simpa using loop.all ok, ?_⟩⟩
    · intro key lba tag different bound
      rw [← records tag bound]
      apply edits.others
      intro same
      have boundAfter : bindings' key = some lba :=
        (loop.kept.names key (by rw [tag]; decide)).trans bound
      apply different
      apply loop.inv.filed.apart boundAfter same
      · exact show _ = some lba by simp [ownedBlock, tag]
      · simp [ownedBlock]
    · intro key tag notThis
      rw [edits.files key tag]
      exact loop.kept.blocks key tag notThis
    · have same : fileBlocks after bindings' inode = fileBlocks out.state bindings' inode :=
        funext fun index => edits.files _ (keyTag_extentKey inode index)
      simp only [same]
      exact loop.bytes ok small fits

theorem truncateLoop_spec (inv : YafsInv state height bindings) (inode remaining index : Nat) :
    ∃ after bindings', truncateLoop inode remaining state index = .ok after ∧
      YafsInv after height bindings' ∧ Extends state.device after.device ∧
      (state.rootLba ≠ 0 → after.rootLba ≠ 0) ∧
      ∀ key, keyTag key ≠ ksExtent → bindings' key = bindings key := by
  induction remaining generalizing state bindings index with
  | zero => exact ⟨_, _, rfl, inv, .refl _, id, fun _ _ => rfl⟩
  | succ remaining ih =>
    unfold truncateLoop
    rw [inv.rep.lookup, ok_bind]
    cases bound : bindings (extentKey inode index) with
    | none => exact ih inv (index + 1)
    | some extent =>
      have freed := inv.freeBlock (extentLba extent)
      have freeFrame := extends_devFreeBlock state.device (extentLba extent)
      obtain ⟨out, ran, outcome⟩ := btreeDelete_spec freed.rep (extentKey inode index)
      simp only
      rw [ran, ok_bind]
      have stillBound : bindings (extentKey inode index) ≠ none := by simp [bound]
      cases outcome with
      | noTree _ unbound => exact absurd unbound stillBound
      | absent _ unbound => exact absurd unbound stillBound
      | failed rooted _ frame short used =>
        obtain ⟨after, bindings', restRan, afterInv, restFrame, restRooted, names⟩ :=
          ih (freed.frame frame.keepsKinds (Nat.le_of_eq used)) (index + 1)
        exact ⟨after, bindings', restRan, afterInv, (freeFrame.trans frame).trans restFrame,
          restRooted, names⟩
      | deleted middle _ frame next rep rooted =>
        obtain ⟨after, bindings', restRan, afterInv, restFrame, restRooted, names⟩ :=
          ih ⟨rep, (freed.filed.frame frame.keepsKinds).remove _⟩ (index + 1)
        refine ⟨after, bindings', restRan, afterInv, (freeFrame.trans frame).trans restFrame,
          fun _ => restRooted rooted, fun key other => (names key other).trans ?_⟩
        have apart : key ≠ extentKey inode index := by
          rintro rfl
          exact other (keyTag_extentKey inode index)
        exact update_of_ne apart _ _

/-- A truncate changes nothing but extents. -/
theorem truncateInode_spec (inv : YafsInv state height bindings) (inode : Nat) :
    ∃ out bindings', truncateInode state inode = .ok out ∧ YafsInv out.1 height bindings' ∧
      KeepsKinds state.device out.1.device ∧ (state.rootLba ≠ 0 → out.1.rootLba ≠ 0) ∧
      ∀ key, keyTag key ≠ ksExtent → bindings' key = bindings key := by
  unfold truncateInode
  by_cases zero : inode = 0
  · rw [if_pos zero]
    exact ⟨_, _, rfl, inv, .refl _, id, fun _ _ => rfl⟩
  rw [if_neg zero, inv.rep.lookup, ok_bind]
  cases bound : bindings (inodeKey inode) with
  | none => exact ⟨_, _, rfl, inv, .refl _, id, fun _ _ => rfl⟩
  | some lba =>
    obtain ⟨record, _, read⟩ := inv.inodeRead_eq (keyTag_inodeKey inode) bound
    simp only
    rw [read, ok_bind]
    simp only
    by_cases other : record.fileType ≠ ftRegFile
    · rw [if_pos other]
      exact ⟨_, _, rfl, inv, .refl _, id, fun _ _ => rfl⟩
    · rw [if_neg other]
      obtain ⟨after, bindings', ran, afterInv, frame, rooted, names⟩ :=
        truncateLoop_spec inv inode (min record.blocks maxFileBlocks) 0
      have stillBound : bindings' (inodeKey inode) = some lba :=
        (names _ (by rw [keyTag_inodeKey]; decide)).trans bound
      obtain ⟨final, written, edits⟩ :=
        afterInv.editRecord stillBound { record with size := 0, blocks := 0 }
      rw [ran, ok_bind]
      simp only [written]
      exact ⟨_, _, rfl, edits.inv, frame.keepsKinds.trans edits.keeps, rooted, names⟩

end M4KK1.Yafs
