import M4KK1.Yafs.Room

/-!
# The block count of a file

A truncate deletes the extents below the `blocks` field; a write that succeeds keeps to it.
-/

namespace M4KK1.Yafs

open Lib Function

def keyIndex (key : Nat) : Nat := keyValue key % 2 ^ 16

/-- Every extent lies below the `blocks` field of its inode's record. -/
def ExtentsCounted (state : BtreeState) : Prop :=
  ∀ key extent lba record, keyTag key = ksExtent →
    btreeLookup state.device state.rootLba key = .ok (some extent) →
    btreeLookup state.device state.rootLba (inodeKey (keyParent key)) = .ok (some lba) →
    state.device.blocks lba = .inode record → keyIndex key < record.blocks

/-- A write is refused, has room for all blocks, or stores only such as are below `blocks`. -/
def WriteCounts (state : BtreeState) (inode offset len : Nat) : Prop :=
  offset / dataBlockSize ≥ maxFileBlocks ∨
  HasRoom inode (chunkCount (offset % dataBlockSize) len) state (offset / dataBlockSize) ∨
    ∀ lba record, btreeLookup state.device state.rootLba (inodeKey inode) = .ok (some lba) →
      state.device.blocks lba = .inode record →
      ∀ i < chunkCount (offset % dataBlockSize) len,
        HasRoom inode (i + 1) state (offset / dataBlockSize) →
        (offset / dataBlockSize + i) % maxFileBlocks < record.blocks

/-- The number of blocks a file has among so many from an index on. -/
def liveBlocks (state : BtreeState) (inode : Nat) : Nat → Nat → Nat
  | 0, _ => 0
  | remaining + 1, index =>
    (match btreeLookup state.device state.rootLba (extentKey inode index) with
      | .ok (some _) => 1
      | _ => 0) + liveBlocks state inode remaining (index + 1)

/-- A truncate has room for the path of every extent it deletes. -/
def TruncateFits (state : BtreeState) (inode : Nat) : Prop :=
  ∀ lba record, btreeLookup state.device state.rootLba (inodeKey inode) = .ok (some lba) →
    state.device.blocks lba = .inode record → record.fileType = ftRegFile →
    state.device.nextFreeBlock +
      liveBlocks state inode (min record.blocks maxFileBlocks) 0 * (btreeHeight state + 1) ≤
        ramdiskBlocks

variable {state : BtreeState} {height : Nat} {bindings : Nat → Option Nat}

theorem keyParent_extentKey (inode index : Nat) :
    keyParent (extentKey inode index) = inode % 2 ^ 44 := by
  unfold keyParent keyValue extentKey ksValueMask
  rw [makeKey_pair (by decide), Nat.and_two_pow_sub_one_eq_mod, Nat.shiftRight_eq_div_pow]
  omega

theorem keyIndex_extentKey (inode index : Nat) :
    keyIndex (extentKey inode index) = index % maxFileBlocks := by
  unfold keyIndex keyValue extentKey ksValueMask maxFileBlocks
  rw [makeKey_pair (by decide), Nat.and_two_pow_sub_one_eq_mod]
  omega

variable {key inode index offset : Nat} {buf : List UInt8} {bindings' : Nat → Option Nat}

theorem extentKey_fields (tag : keyTag key = ksExtent) :
    extentKey (keyParent key) (keyIndex key) = key := by
  unfold keyTag ksTagShift ksExtent at tag
  unfold extentKey keyParent keyIndex keyValue ksValueMask
  rw [makeKey_pair (by decide), Nat.and_two_pow_sub_one_eq_mod, ksExtent]
  simp only [Nat.shiftRight_eq_div_pow] at tag ⊢
  omega

/-- The extents against the records, by what the tree binds. -/
def CountedIn (device : Device) (bindings : Nat → Option Nat) : Prop :=
  ∀ key extent lba record, keyTag key = ksExtent → bindings key = some extent →
    bindings (inodeKey (keyParent key)) = some lba → device.blocks lba = .inode record →
    keyIndex key < record.blocks

theorem Represents.extentsCounted_iff (rep : Represents state height bindings) :
    ExtentsCounted state ↔ CountedIn state.device bindings := by
  simp only [ExtentsCounted, CountedIn, rep.lookup, Except.ok.injEq]

theorem YafsInv.fileBlock_eq_none (inv : YafsInv state height bindings)
    (tag : keyTag key = ksExtent) : fileBlock state.device bindings key = none ↔
      bindings key = none := by
  constructor
  · intro missing
    by_contra present
    obtain ⟨extent, bound⟩ := Option.ne_none_iff_exists'.mp present
    obtain ⟨bytes, _, block, _⟩ := inv.dataRead_eq tag bound
    cases block.symm.trans missing
  · exact fileBlock_none

theorem le_grown_blocks (record : InodeValue) (newSize : Nat) :
    record.blocks ≤ (grown record newSize).blocks := by
  unfold grown
  dsimp only
  split <;> omega

theorem needed_le_grown_blocks (record : InodeValue) {newSize : Nat} (small : newSize < 2 ^ 63) :
    (newSize + dataBlockSize - 1) / dataBlockSize ≤ (grown record newSize).blocks := by
  have whole : (newSize + dataBlockSize - 1) % 2 ^ 64 = newSize + dataBlockSize - 1 := by
    unfold dataBlockSize
    omega
  unfold grown
  dsimp only
  rw [whole]
  split <;> omega

section

variable (inv : YafsInv state height bindings)

include inv

theorem LoopStored.bound_cases {written count height' : Nat} {out : WriteOut}
    (loop : LoopStored state bindings inode index offset buf written count height' bindings' out)
    (tag : keyTag key = ksExtent) (bound : bindings' key ≠ none) :
    bindings key ≠ none ∨ ∃ i, index ≤ i ∧ i < index + count ∧ key = extentKey inode i := by
  by_cases stored : ∃ i, index ≤ i ∧ i < index + count ∧ key = extentKey inode i
  · exact .inr stored
  · refine .inl fun unbound => bound ?_
    rw [← loop.inv.fileBlock_eq_none tag, loop.kept.blocks key tag stored,
      inv.fileBlock_eq_none tag]
    exact unbound

theorem LoopStored.record_kept {written count height' : Nat} {out : WriteOut}
    (loop : LoopStored state bindings inode index offset buf written count height' bindings' out)
    {number lba : Nat} (bound : bindings' (inodeKey number) = some lba) :
    bindings (inodeKey number) = some lba ∧ ∃ record, state.device.blocks lba = .inode record ∧
      out.state.device.blocks lba = .inode record := by
  have tag := keyTag_inodeKey number
  have before : bindings (inodeKey number) = some lba :=
    (loop.kept.names _ (by rw [tag]; decide)).symm.trans bound
  obtain ⟨_, allocated, record, image⟩ := inv.filed.inode tag before
  exact ⟨before, record, image, loop.kept.records allocated image⟩

theorem LoopStored.record_still {written count height' : Nat} {out : WriteOut}
    (loop : LoopStored state bindings inode index offset buf written count height' bindings' out)
    {number lba : Nat} {record : InodeValue} (bound : bindings (inodeKey number) = some lba)
    (image : state.device.blocks lba = .inode record) :
    bindings' (inodeKey number) = some lba ∧ out.state.device.blocks lba = .inode record := by
  have tag := keyTag_inodeKey number
  obtain ⟨_, allocated, _⟩ := inv.filed.inode tag bound
  exact ⟨(loop.kept.names _ (by rw [tag]; decide)).trans bound, loop.kept.records allocated image⟩

theorem writeFileData_counted (counted : CountedIn state.device bindings)
    (small : inode < 2 ^ 44) (short : buf.length < 2 ^ 32)
    (fits : WriteCounts state inode offset buf.length) :
    ∃ out height' bindings', writeFileData state inode buf offset = .ok out ∧
      YafsInv out.state height' bindings' ∧ CountedIn out.state.device bindings' := by
  obtain ⟨out, ran, run⟩ := writeFileData_run inv inode buf offset
  rw [ran]
  -- Blocks that were there before are counted before, and no record loses its count.
  have old : ∀ key lba record, keyTag key = ksExtent → bindings key ≠ none →
      bindings (inodeKey (keyParent key)) = some lba → state.device.blocks lba = .inode record →
      keyIndex key < record.blocks := by
    intro key lba record tag present bound image
    obtain ⟨extent, isBound⟩ := Option.ne_none_iff_exists'.mp present
    exact counted key extent lba record tag isBound bound image
  cases run with
  | nothing => exact ⟨_, height, bindings, rfl, inv, counted⟩
  | @failed _ count height' bindings' _ below loop isFailed =>
    refine ⟨out, height', bindings', rfl, loop.inv, ?_⟩
    intro key extent lba value tag bound recordBound image
    obtain ⟨before, oldValue, oldImage, middleImage⟩ := loop.record_kept inv recordBound
    cases middleImage.symm.trans image
    obtain ⟨ok, _⟩ | ⟨_, less, noRoom⟩ := loop.ended
    · cases isFailed.symm.trans ok
    rcases loop.bound_cases inv tag (by rw [bound]; exact Option.some_ne_none _) with present | ⟨i,
      low, high, isKey⟩
    · exact old key lba _ tag present before oldImage
    · rw [isKey, keyIndex_extentKey]
      rw [isKey, keyParent_extentKey, Nat.mod_eq_of_lt small] at before
      rcases fits with refused | room | covered
      · exact absurd below (Nat.not_lt.mpr refused)
      · exact absurd (room.mono less) noRoom
      · have here :=
          covered lba value (by rw [inv.rep.lookup, before]) oldImage (i - offset / dataBlockSize)
          (by omega) (loop.room.mono (by omega))
        have shift : offset / dataBlockSize + (i - offset / dataBlockSize) = i := by omega
        rwa [shift] at here
  | @stored out after count height' bindings' some below loop ok updated =>
    obtain ⟨⟨afterHeight, edits⟩, record⟩ := updated
    refine ⟨_, afterHeight, bindings', rfl, edits.inv, ?_⟩
    intro key extent lba value tag bound recordBound image
    obtain ⟨before, oldValue, oldImage, middleImage⟩ := loop.record_kept inv recordBound
    have boundCases := loop.bound_cases inv tag (by rw [bound]; exact Option.some_ne_none _)
    by_cases own : bindings' (inodeKey inode) = .some lba
    · cases (record lba oldValue own middleImage).symm.trans image
      rw [loop.newSize ok (by unfold maxFileBlocks dataBlockSize at *; omega)]
      rcases boundCases with present | ⟨i, low, high, isKey⟩
      · exact Nat.lt_of_lt_of_le (old key lba _ tag present before oldImage) (le_grown_blocks _ _)
      · refine Nat.lt_of_lt_of_le ?_
          (needed_le_grown_blocks _ (by unfold maxFileBlocks dataBlockSize at *; omega))
        rw [isKey, keyIndex_extentKey]
        rw [loop.count_eq ok, chunkCount, if_neg some] at high
        unfold maxFileBlocks dataBlockSize at *
        omega
    · have keptImage := (edits.others lba own).trans middleImage
      cases keptImage.symm.trans image
      rcases boundCases with present | ⟨i, low, high, isKey⟩
      · exact old key lba _ tag present before oldImage
      · rw [isKey, keyParent_extentKey, Nat.mod_eq_of_lt small] at recordBound
        exact absurd recordBound own

end

/-- The blocks of a file among so many from an index on, by what the tree binds. -/
def liveIn (bindings : Nat → Option Nat) (inode : Nat) : Nat → Nat → Nat
  | 0, _ => 0
  | remaining + 1, index =>
    (if (bindings (extentKey inode index)).isSome then 1 else 0) +
      liveIn bindings inode remaining (index + 1)

theorem Represents.liveBlocks_eq (rep : Represents state height bindings)
    (inode remaining index : Nat) :
    liveBlocks state inode remaining index = liveIn bindings inode remaining index := by
  induction remaining generalizing index with
  | zero => rfl
  | succ remaining ih =>
    rw [liveBlocks, liveIn, ih, rep.lookup]
    cases bindings (extentKey inode index) <;> rfl

theorem liveIn_congr {remaining : Nat} (same : ∀ i, index ≤ i → i < index + remaining →
      bindings' (extentKey inode i) = bindings (extentKey inode i)) :
    liveIn bindings' inode remaining index = liveIn bindings inode remaining index := by
  induction remaining generalizing index with
  | zero => rfl
  | succ remaining ih =>
    rw [liveIn, liveIn, same index (Nat.le_refl _) (by omega),
      ih fun i low high => same i (by omega) (by omega)]

/-- What the truncate loop leaves behind when none of its deletes fails. -/
structure Dropped (before after : BtreeState) (height : Nat) (bindings bindings' : Nat → Option Nat)
    (inode index remaining : Nat) : Prop where
  inv : YafsInv after height bindings'
  frame : Extends before.device after.device
  dropped : ∀ i, index ≤ i → i < index + remaining → bindings' (extentKey inode i) = none
  kept : ∀ key, (∀ i, index ≤ i → i < index + remaining → key ≠ extentKey inode i) →
    bindings' key = bindings key

theorem truncateLoop_dropped (inv : YafsInv state height bindings) (inode : Nat) {remaining : Nat}
    (index : Nat)
    (below : index + remaining ≤ maxFileBlocks)
    (room : state.device.nextFreeBlock + liveIn bindings inode remaining index * (height + 1) ≤
      ramdiskBlocks) :
    ∃ after bindings', truncateLoop inode remaining state index = .ok after ∧
      Dropped state after height bindings bindings' inode index remaining := by
  induction remaining generalizing state bindings index with
  | zero => exact ⟨state, bindings, rfl, inv, .refl _, fun i low high => by omega, fun _ _ => rfl⟩
  | succ remaining ih =>
    rw [liveIn] at room
    unfold truncateLoop
    rw [inv.rep.lookup, ok_bind]
    have split {i : Nat} (low : index ≤ i) (high : i < index + (remaining + 1)) :
        i = index ∨ (index + 1 ≤ i ∧ i < index + 1 + remaining) := by omega
    cases bound : bindings (extentKey inode index) with
    | none =>
      rw [bound] at room
      obtain ⟨after, bindings', ran, rest⟩ := ih inv (index + 1) (by omega) (by simpa using room)
      have own : bindings' (extentKey inode index) = none := by
        rw [rest.kept _ fun i low high => extentKey_ne inode (by omega) (by omega) (by omega),
          bound]
      refine ⟨after, bindings', ran, rest.inv, rest.frame, fun i low high => ?_,
        fun key apart => ?_⟩
      · rcases split low high with rfl | ⟨low', high'⟩
        · exact own
        · exact rest.dropped i low' high'
      · exact rest.kept key fun i low high => apart i (by omega) (by omega)
    | some extent =>
      rw [bound] at room
      have freed := inv.freeBlock (extentLba extent)
      have freeFrame := extends_devFreeBlock state.device (extentLba extent)
      obtain ⟨out, ran, outcome⟩ := btreeDelete_spec freed.rep (extentKey inode index)
      have stillBound : bindings (extentKey inode index) ≠ none := by simp [bound]
      rw [Option.isSome_some, if_pos rfl, Nat.add_mul, Nat.one_mul] at room
      dsimp only
      rw [ran, ok_bind]
      cases outcome with
      | noTree _ unbound => exact absurd unbound stillBound
      | absent _ unbound => exact absurd unbound stillBound
      | failed _ _ _ short =>
        rw [devFreeBlock_next] at short
        omega
      | deleted middle _ frame next rep rooted =>
        have others : ∀ i, index + 1 ≤ i → i < index + 1 + remaining →
            update bindings (extentKey inode index) none (extentKey inode i) =
              bindings (extentKey inode i) := fun i low high =>
          update_of_ne (extentKey_ne inode (by omega) (by omega) (by omega)) _ _
        rw [devFreeBlock_next] at next
        obtain ⟨after, bindings', restRan, rest⟩ :=
          ih ⟨rep, (freed.filed.frame frame.keepsKinds).remove _⟩ (index + 1) (by omega)
            (by rw [liveIn_congr others]; omega)
        have own : bindings' (extentKey inode index) = none := by
          rw [rest.kept _ fun i low high => extentKey_ne inode (by omega) (by omega) (by omega),
            update_self]
        refine ⟨after, bindings', restRan, rest.inv, (freeFrame.trans frame).trans rest.frame,
          fun i low high => ?_, fun key apart => ?_⟩
        · rcases split low high with rfl | ⟨low', high'⟩
          · exact own
          · exact rest.dropped i low' high'
        · rw [rest.kept key fun i low high => apart i (by omega) (by omega),
            update_of_ne (apart index (Nat.le_refl _) (by omega))]

theorem YafsInv.inodeKey_keyParent (inv : YafsInv state height bindings) {lba : Nat}
    (bound : bindings (inodeKey inode) = some lba) (index : Nat) :
    inodeKey (keyParent (extentKey inode index)) = inodeKey inode := by
  have small := (inv.filed.inode (keyTag_inodeKey inode) bound).1
  rw [inodeKey_eq] at small
  rw [keyParent_extentKey, inodeKey_eq, inodeKey_eq]
  unfold inodeLimit ramdiskBlocks at small
  omega

theorem extentKey_of_parent (tag : keyTag key = ksExtent)
    (same : inodeKey (keyParent key) = inodeKey inode) : extentKey inode (keyIndex key) = key := by
  rw [inodeKey_eq, inodeKey_eq] at same
  have number : inode % 2 ^ 44 = keyParent key % 2 ^ 44 := by omega
  have fields := extentKey_fields tag
  unfold extentKey at fields ⊢
  rw [makeKey_pair (by decide)] at fields ⊢
  rwa [number]

/-- A truncate that succeeds leaves no extent of the file. -/
theorem truncateInode_counted (inv : YafsInv state height bindings)
    (counted : CountedIn state.device bindings)
    (fits : TruncateFits state inode) :
    ∃ out bindings', truncateInode state inode = .ok out ∧ YafsInv out.1 height bindings' ∧
      CountedIn out.1.device bindings' ∧ (out.2 = true →
        ∀ index, bindings' (extentKey inode index) = none) := by
  unfold truncateInode
  by_cases zero : inode = 0
  · rw [if_pos zero]
    exact ⟨_, bindings, rfl, inv, counted, fun impossible => nomatch impossible⟩
  rw [if_neg zero, inv.rep.lookup, ok_bind]
  cases bound : bindings (inodeKey inode) with
  | none => exact ⟨_, bindings, rfl, inv, counted, fun impossible => nomatch impossible⟩
  | some lba =>
    obtain ⟨record, image, read⟩ := inv.inodeRead_eq (keyTag_inodeKey inode) bound
    dsimp only
    rw [read, ok_bind]
    dsimp only
    by_cases other : record.fileType ≠ ftRegFile
    · rw [if_pos other]
      exact ⟨_, bindings, rfl, inv, counted, fun impossible => nomatch impossible⟩
    rw [if_neg other]
    have room := fits lba record (by rw [inv.rep.lookup, bound]) image (not_not.mp other)
    rw [inv.rep.liveBlocks_eq, inv.rep.btreeHeight_eq] at room
    obtain ⟨after, bindings', ran, loop⟩ := truncateLoop_dropped inv inode 0
      (show 0 + min record.blocks maxFileBlocks ≤ maxFileBlocks by omega) room
    have names (number : Nat) : bindings' (inodeKey number) = bindings (inodeKey number) :=
      loop.kept _ fun i _ _ => key_ne_of_tag (by rw [keyTag_inodeKey, keyTag_extentKey]; decide)
    have stillBound : bindings' (inodeKey inode) = some lba := (names inode).trans bound
    obtain ⟨final, written, edits⟩ :=
      loop.inv.editRecord stillBound { record with size := 0, blocks := 0 }
    rw [ran, ok_bind, written]
    have older {key extent : Nat} (isBound : bindings' key = some extent) : bindings key =
        some extent := by
      by_contra different
      refine different ((loop.kept key fun i low high same => ?_).symm.trans isBound)
      rw [same, loop.dropped i low high] at isBound
      cases isBound
    -- What the tree binds of the file lies below the count, and that the loop has dropped.
    have gone : ∀ key, keyTag key = ksExtent → inodeKey (keyParent key) = inodeKey inode →
        bindings' key = none := by
      intro key tag same
      by_contra present
      obtain ⟨extent, isBound⟩ := Option.ne_none_iff_exists'.mp present
      have less := counted key extent lba record tag (older isBound) (by rw [same, bound]) image
      have below : keyIndex key < maxFileBlocks := Nat.mod_lt _ (by decide)
      have dropped := loop.dropped (keyIndex key) (Nat.zero_le _) (by omega)
      rw [extentKey_of_parent tag same] at dropped
      exact present dropped
    refine ⟨_, bindings', rfl, edits.inv, ?_, fun _ index => ?_⟩
    · intro key extent lba' record' tag isBound recordBound recordImage
      by_cases own : bindings' (inodeKey inode) = some lba'
      · have owns (number : Nat) : ownedBlock (inodeKey number) lba' = some lba' :=
          if_pos (keyTag_inodeKey number)
        have same : inodeKey (keyParent key) = inodeKey inode :=
          loop.inv.filed.apart recordBound own (owns _) (owns _)
        cases (gone key tag same).symm.trans isBound
      · rw [names] at recordBound
        obtain ⟨_, allocated, old, oldImage⟩ := inv.filed.inode (keyTag_inodeKey _) recordBound
        have kept := (edits.others lba' own).trans ((loop.frame.kept lba' allocated).trans oldImage)
        cases kept.symm.trans recordImage
        exact counted key extent lba' _ tag (older isBound) recordBound oldImage
    · exact gone _ (keyTag_extentKey inode index) (inv.inodeKey_keyParent bound index)

end M4KK1.Yafs
