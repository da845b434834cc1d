import M4KK1.Yafs.Room

/-!
# The block-index ceiling of a file

An index has 16 bits and is checked once, so a transfer past the ceiling goes on in block 0.
-/

namespace M4KK1.Yafs

open Lib

/-- The first byte of a file that no block index reaches: `65536 * 4096`. -/
def fileCeiling : Nat := maxFileBlocks * dataBlockSize

/-- The block of the file is stored. -/
def HasBlock (state : BtreeState) (inode index : Nat) : Prop :=
  ∃ extent, btreeLookup state.device state.rootLba (extentKey inode index) = .ok (some extent)

/-- A read that succeeds with no more than there is below the ceiling. -/
def ReadsBelow (state : BtreeState) (inode offset size : Nat) : Prop :=
  ∃ bytes, readFileData state inode offset size = .ok (bytes, true) ∧
    bytes.length ≤ fileCeiling - offset

/-- A write touches bytes below the ceiling only, and no block before its first. -/
def WritesBelow (state : BtreeState) (inode offset : Nat) (buf : List UInt8) : Prop :=
  ∃ out, writeFileData state inode buf offset = .ok out ∧ out.written ≤ fileCeiling - offset ∧
    ∀ pos, pos / dataBlockSize < offset / dataBlockSize →
      readFileData out.state inode pos 1 = readFileData state inode pos 1

/-- The transfer begins below the ceiling and ends above it. -/
def Crosses (offset len : Nat) : Prop := offset < fileCeiling ∧ fileCeiling < offset + len

/-- A read that goes on in block 0. -/
def ReadsOn (state : BtreeState) (inode offset size : Nat) : Prop :=
  Crosses offset size ∧ HasBlock state inode 0 ∧
    ∀ index, offset / dataBlockSize ≤ index → index < maxFileBlocks → HasBlock state inode index

/-- A write that crosses the ceiling and has room for all blocks up to it, and for block 0. -/
def WritesOn (state : BtreeState) (inode offset : Nat) (buf : List UInt8) : Prop :=
  Crosses offset buf.length ∧
    HasRoom inode (maxFileBlocks - offset / dataBlockSize + 1) state (offset / dataBlockSize)

theorem readBlocks_count (block : Nat → Option (Nat → UInt8)) {fuel : Nat} (cursor : ReadCursor)
    (enough : cursor.remaining < fuel) (inside : cursor.blockOff < dataBlockSize) :
    ∃ count, (∀ i < count, block (cursor.blockIdx + i) ≠ none) ∧
      (count = chunkCount cursor.blockOff cursor.remaining ∨
        (count < chunkCount cursor.blockOff cursor.remaining ∧
          block (cursor.blockIdx + count) = none)) ∧
      (readBlocks block fuel cursor).out.length =
        cursor.out.length + min cursor.remaining (count * dataBlockSize - cursor.blockOff) := by
  induction fuel generalizing cursor with
  | zero => omega
  | succ fuel ih =>
    unfold readBlocks
    by_cases empty : cursor.remaining = 0
    · rw [if_pos empty, empty]
      exact ⟨0, fun i below => absurd below (Nat.not_lt_zero i),
        .inl rfl, by rw [Nat.zero_min]; rfl⟩
    · rw [if_neg empty]
      have more := chunkCount_succ inside empty
      cases found : block cursor.blockIdx with
      | none =>
        refine ⟨0, fun i below => absurd below (Nat.not_lt_zero i), .inr ⟨by omega, found⟩, ?_⟩
        dsimp only
        omega
      | some bytes =>
        obtain ⟨less, stillInside⟩ := cursor.take_remaining empty inside bytes
        obtain ⟨count, present, ended, amount⟩ := ih (cursor.take bytes) (by omega) stillInside
        have nextIdx : (cursor.take bytes).blockIdx = cursor.blockIdx + 1 := rfl
        have nextOff : (cursor.take bytes).blockOff = 0 := rfl
        have nextRemaining : (cursor.take bytes).remaining =
            cursor.remaining - min (dataBlockSize - cursor.blockOff) cursor.remaining := rfl
        have nextOut : (cursor.take bytes).out.length =
            cursor.out.length + min (dataBlockSize - cursor.blockOff) cursor.remaining := by
          simp [ReadCursor.take]
        rw [nextIdx] at present
        rw [nextIdx, nextOff, nextRemaining] at ended
        rw [nextOff, nextRemaining, nextOut] at amount
        have shift (i : Nat) : cursor.blockIdx + (i + 1) = cursor.blockIdx + 1 + i := by omega
        refine ⟨count + 1, fun i below => ?_, ?_, ?_⟩
        · cases i with
          | zero => simp [found]
          | succ i =>
            rw [shift]
            exact present i (Nat.lt_of_succ_lt_succ below)
        · rw [shift, more]
          exact ended.imp (congrArg (· + 1)) fun short => ⟨Nat.succ_lt_succ short.1, short.2⟩
        · rw [amount]
          unfold dataBlockSize at *
          omega

theorem extentKey_wraps (inode index : Nat) :
    extentKey inode (index + maxFileBlocks) = extentKey inode index := by
  unfold extentKey maxFileBlocks
  rw [makeKey_pair (by decide), makeKey_pair (by decide)]
  omega

variable {offset : Nat} {bindings' : Nat → Option Nat}

theorem ceiling_sub (below : offset / dataBlockSize < maxFileBlocks) : fileCeiling - offset =
      (maxFileBlocks - offset / dataBlockSize) * dataBlockSize - offset % dataBlockSize := by
  unfold fileCeiling maxFileBlocks dataBlockSize at *
  omega

theorem index_lt_iff : offset / dataBlockSize < maxFileBlocks ↔ offset < fileCeiling := by
  unfold fileCeiling maxFileBlocks dataBlockSize
  omega

variable {state : BtreeState} {height : Nat} {bindings : Nat → Option Nat}

theorem YafsInv.hasBlock_iff (inv : YafsInv state height bindings) (inode index : Nat) :
    HasBlock state inode index ↔ fileBlocks state bindings inode index ≠ none := by
  unfold HasBlock fileBlocks
  rw [inv.rep.lookup]
  cases bound : bindings (extentKey inode index) with
  | none => simp [fileBlock_none bound]
  | some extent =>
    obtain ⟨bytes, _, block, _⟩ := inv.dataRead_eq (keyTag_extentKey inode index) bound
    simp [block]

/-- A read stays below the ceiling exactly if it does not go on past it. -/
theorem readsBelow_iff (inv : YafsInv state height bindings) (inode offset size : Nat) :
    ReadsBelow state inode offset size ↔ ¬ReadsOn state inode offset size := by
  unfold ReadsBelow
  rw [readFileData_eq inv]
  by_cases nothing : size = 0 ∨ offset / dataBlockSize ≥ maxFileBlocks
  · rw [if_pos nothing]
    refine ⟨fun _ ⟨⟨starts, ends⟩, _⟩ => ?_, fun _ => ⟨[], rfl, Nat.zero_le _⟩⟩
    rw [← index_lt_iff] at starts
    unfold fileCeiling maxFileBlocks dataBlockSize at *
    omega
  rw [if_neg nothing]
  obtain ⟨some, starts⟩ := not_or.mp nothing
  have below := Nat.lt_of_not_le starts
  have inside : offset % dataBlockSize < dataBlockSize := Nat.mod_lt _ (by decide)
  obtain ⟨count, present, ended, amount⟩ := readBlocks_count (fileBlocks state bindings inode)
    ⟨size, offset / dataBlockSize, offset % dataBlockSize, []⟩ (Nat.lt_succ_self size) inside
  dsimp only at present ended amount
  have toCeiling := ceiling_sub below
  have wraps : fileBlocks state bindings inode
    (offset / dataBlockSize + (maxFileBlocks - offset / dataBlockSize)) =
      fileBlocks state bindings inode 0 := by
    unfold fileBlocks
    rw [Nat.add_sub_cancel' below.le, ← Nat.zero_add maxFileBlocks, extentKey_wraps]
  constructor
  · rintro ⟨bytes, isRead, short⟩ ⟨⟨_, ends⟩, zero, all⟩
    have longer : (maxFileBlocks - offset / dataBlockSize) * dataBlockSize -
        offset % dataBlockSize < size := by
      omega
    have further : maxFileBlocks - offset / dataBlockSize < count := by
      rcases ended with whole | ⟨_, missing⟩
      · rw [whole]
        exact lt_chunkCount.mpr longer
      · by_contra stops
        rcases Nat.lt_or_eq_of_le (Nat.le_of_not_lt stops) with earlier | here
        · exact (inv.hasBlock_iff inode _).mp (all _ (Nat.le_add_right _ _) (by omega)) missing
        · rw [here, wraps] at missing
          exact (inv.hasBlock_iff inode 0).mp zero missing
    have isOut := congrArg Prod.fst (Except.ok.inj isRead)
    dsimp only at isOut
    rw [← isOut, amount, toCeiling] at short
    have : (maxFileBlocks - offset / dataBlockSize + 1) * dataBlockSize ≤ count * dataBlockSize :=
      Nat.mul_le_mul_right _ further
    unfold dataBlockSize at *
    simp only [List.length_nil] at short
    omega
  · intro stays
    refine ⟨_, rfl, ?_⟩
    rw [amount, toCeiling]
    by_contra longer
    simp only [List.length_nil] at longer
    have further : maxFileBlocks - offset / dataBlockSize < count := by
      by_contra stops
      have : count * dataBlockSize ≤ (maxFileBlocks - offset / dataBlockSize) * dataBlockSize :=
        Nat.mul_le_mul_right _ (Nat.le_of_not_lt stops)
      omega
    refine stays ⟨⟨index_lt_iff.mp below, by omega⟩, ?_, fun index low high => ?_⟩
    · rw [inv.hasBlock_iff, ← wraps]
      exact present _ further
    · have shift : index = offset / dataBlockSize + (index - offset / dataBlockSize) := by omega
      rw [inv.hasBlock_iff, shift]
      exact present _ (by omega)

theorem LoopStored.written_le_iff {inode count height' : Nat} {buf : List UInt8} {out : WriteOut}
    (loop : LoopStored state bindings inode (offset / dataBlockSize)
      (offset % dataBlockSize) buf 0 count height' bindings' out)
    (below : offset / dataBlockSize < maxFileBlocks) :
    out.written ≤ fileCeiling - offset ↔ count ≤ maxFileBlocks - offset / dataBlockSize := by
  rw [loop.written, ceiling_sub below, Nat.zero_add]
  constructor
  · intro short
    by_contra further
    have touched : maxFileBlocks - offset / dataBlockSize <
        chunkCount (offset % dataBlockSize) buf.length := by
      rcases loop.ended with ⟨_, whole⟩ | ⟨_, less, _⟩ <;> omega
    have longer := lt_chunkCount.mp touched
    have : (maxFileBlocks - offset / dataBlockSize + 1) * dataBlockSize ≤ count * dataBlockSize :=
      Nat.mul_le_mul_right _ (Nat.lt_of_not_le further)
    unfold dataBlockSize at *
    omega
  · intro few
    have : count * dataBlockSize ≤ (maxFileBlocks - offset / dataBlockSize) * dataBlockSize :=
      Nat.mul_le_mul_right _ few
    omega

theorem LoopStored.writesOn_iff {inode count height' : Nat} {buf : List UInt8} {out : WriteOut}
    (loop : LoopStored state bindings inode (offset / dataBlockSize)
      (offset % dataBlockSize) buf 0 count height' bindings' out)
    (below : offset / dataBlockSize < maxFileBlocks) :
    WritesOn state inode offset buf ↔ maxFileBlocks - offset / dataBlockSize < count := by
  have toCeiling := ceiling_sub below
  have starts := index_lt_iff.mp below
  constructor
  · rintro ⟨⟨_, ends⟩, room⟩
    rcases loop.ended with ⟨_, whole⟩ | ⟨_, _, noRoom⟩
    · rw [whole, lt_chunkCount]
      omega
    · by_contra stops
      exact noRoom (room.mono (by omega))
  · intro further
    have touched : maxFileBlocks - offset / dataBlockSize <
        chunkCount (offset % dataBlockSize) buf.length := by
      rcases loop.ended with ⟨_, whole⟩ | ⟨_, less, _⟩ <;> omega
    have longer := lt_chunkCount.mp touched
    exact ⟨⟨starts, by omega⟩, loop.room.mono further⟩

theorem head_kept (inv : YafsInv state height bindings) {inode height' : Nat} {after : BtreeState}
    (inv' : YafsInv after height' bindings')
    (below : offset / dataBlockSize < maxFileBlocks) {count : Nat}
    (few : count ≤ maxFileBlocks - offset / dataBlockSize)
    (kept : ∀ key, keyTag key = ksExtent →
      (¬∃ i, offset / dataBlockSize ≤ i ∧ i < offset / dataBlockSize + count ∧
        key = extentKey inode i) →
      fileBlock after.device bindings' key = fileBlock state.device bindings key)
    {pos : Nat} (head : pos / dataBlockSize < offset / dataBlockSize) :
    readFileData after inode pos 1 = readFileData state inode pos 1 := by
  have headBelow : pos / dataBlockSize < maxFileBlocks := Nat.lt_trans head below
  have same : fileBlocks after bindings' inode (pos / dataBlockSize) =
      fileBlocks state bindings inode (pos / dataBlockSize) := by
    refine kept _ (keyTag_extentKey _ _) ?_
    rintro ⟨i, low, high, sameKey⟩
    exact extentKey_ne inode headBelow (by omega) (by omega) sameKey
  rw [readFileData_byte inv' inode (index_lt_iff.mp headBelow),
    readFileData_byte inv inode (index_lt_iff.mp headBelow), byteAt, byteAt, same]

theorem writesBelow_iff (inv : YafsInv state height bindings) (inode offset : Nat)
    (buf : List UInt8) :
    WritesBelow state inode offset buf ↔ ¬WritesOn state inode offset buf := by
  unfold WritesBelow
  obtain ⟨out, ran, run⟩ := writeFileData_run inv inode buf offset
  rw [ran]
  cases run with
  | nothing refused =>
    refine ⟨fun _ ⟨⟨starts, ends⟩, _⟩ => ?_, fun _ => ⟨_, rfl, Nat.zero_le _, fun _ _ => rfl⟩⟩
    rw [← index_lt_iff] at starts
    unfold fileCeiling maxFileBlocks dataBlockSize at *
    omega
  | failed _ below loop =>
    rw [loop.writesOn_iff below, Nat.not_lt, ← loop.written_le_iff below]
    constructor
    · rintro ⟨_, isOut, short, _⟩
      cases isOut
      exact short
    · intro short
      exact ⟨out, rfl, short, fun pos head =>
        head_kept inv loop.inv below ((loop.written_le_iff below).mp short) loop.kept.blocks head⟩
  | stored _ below loop _ updated =>
    obtain ⟨_, edits⟩ := updated.edits
    rw [loop.writesOn_iff below, Nat.not_lt, ← loop.written_le_iff below]
    constructor
    · rintro ⟨_, isOut, short, _⟩
      cases isOut
      exact short
    · intro short
      exact ⟨_, rfl, short, fun pos head =>
        head_kept inv edits.inv below ((loop.written_le_iff below).mp short)
          (fun key tag apart => (edits.files key tag).trans (loop.kept.blocks key tag apart)) head⟩

end M4KK1.Yafs
