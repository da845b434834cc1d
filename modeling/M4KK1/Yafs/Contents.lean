import M4KK1.Yafs.Ceiling
import Mathlib.Data.Finset.Card
import Mathlib.Data.Nat.Find
import M4KK1.Yafs.Counted

/-!
# Holes in files

A read ends at the first block that is missing, whatever the size.
-/

namespace M4KK1.Yafs

open List Lib

/-- The first block that is missing. -/
def FirstHole (block : Nat → Option (Nat → UInt8)) (hole : Nat) : Prop :=
  (∀ index < hole, block index ≠ none) ∧ block hole = none

/-- The byte at a position, 0 where its block is missing. -/
def contentAt (block : Nat → Option (Nat → UInt8)) (pos : Nat) : UInt8 := (byteAt block pos).getD 0

/-- The size is a multiple of the block size, and no block below it is missing. -/
def WholeBlocks (state : BtreeState) (inode size : Nat) : Prop :=
  size % dataBlockSize = 0 ∧ ∀ index < size / dataBlockSize, HasBlock state inode index

theorem map_range_split (content : Nat → UInt8) (start count rest : Nat) :
    ((List.range (count + rest)).map fun i => content (start + i)) =
      ((List.range count).map fun i => content (start + i)) ++
        (List.range rest).map fun i => content (start + count + i) := by
  rw [range_add, map_append, map_map]
  refine congrArg _ (map_congr_left fun i _ => ?_)
  rw [Function.comp_apply, Nat.add_assoc]

theorem readBlocks_upto {block : Nat → Option (Nat → UInt8)} {hole fuel : Nat}
    (first : FirstHole block hole)
    (cursor : ReadCursor) (enough : cursor.remaining < fuel)
    (inside : cursor.blockOff < dataBlockSize)
    (before : cursor.blockIdx * dataBlockSize + cursor.blockOff ≤ hole * dataBlockSize) :
    (readBlocks block fuel cursor).out = cursor.out ++ (List.range (min cursor.remaining
        (hole * dataBlockSize - (cursor.blockIdx * dataBlockSize + cursor.blockOff)))).map fun i =>
          contentAt block (cursor.blockIdx * dataBlockSize + cursor.blockOff + i) := by
  induction fuel generalizing cursor with
  | zero => omega
  | succ fuel ih =>
    unfold readBlocks
    by_cases nothing : cursor.remaining = 0
    · rw [if_pos nothing, nothing, Nat.zero_min]
      exact (append_nil _).symm
    · rw [if_neg nothing]
      cases found : block cursor.blockIdx with
      | none =>
        have reached : hole ≤ cursor.blockIdx := by
          by_contra earlier
          exact first.1 _ (Nat.lt_of_not_le earlier) found
        have behind : hole * dataBlockSize ≤ cursor.blockIdx * dataBlockSize :=
          Nat.mul_le_mul_right _ reached
        rw [Nat.sub_eq_zero_of_le (by omega), Nat.min_zero]
        exact (append_nil _).symm
      | some bytes =>
        have earlier : cursor.blockIdx < hole := by
          rcases Nat.lt_or_ge cursor.blockIdx hole with earlier | later
          · exact earlier
          · have same : cursor.blockIdx = hole := by
              unfold dataBlockSize at before
              omega
            rw [same, first.2] at found
            cases found
        have room : (cursor.blockIdx + 1) * dataBlockSize ≤ hole * dataBlockSize :=
          Nat.mul_le_mul_right _ earlier
        obtain ⟨less, stillInside⟩ := cursor.take_remaining nothing inside bytes
        have nextRemaining : (cursor.take bytes).remaining =
            cursor.remaining - min (dataBlockSize - cursor.blockOff) cursor.remaining := rfl
        have nextIdx : (cursor.take bytes).blockIdx = cursor.blockIdx + 1 := rfl
        have nextOff : (cursor.take bytes).blockOff = 0 := rfl
        have rest :=
          ih (cursor.take bytes) (by omega) stillInside
          (by rw [nextIdx, nextOff, Nat.add_zero]; exact room)
        have copied :
          ((List.range (min (dataBlockSize - cursor.blockOff) cursor.remaining)).map fun i =>
              bytes (cursor.blockOff + i)) =
            (List.range (min (dataBlockSize - cursor.blockOff) cursor.remaining)).map fun i =>
              contentAt block (cursor.blockIdx * dataBlockSize + cursor.blockOff + i) := by
          refine map_congr_left fun i member => ?_
          have small := mem_range.mp member
          rw [contentAt, Nat.add_assoc, byteAt_block block (by omega), found]
          rfl
        have nextOut : (cursor.take bytes).out = cursor.out ++
            (List.range (min (dataBlockSize - cursor.blockOff) cursor.remaining)).map fun i =>
              bytes (cursor.blockOff + i) := rfl
        dsimp only
        rw [rest, nextOut, copied, append_assoc]
        refine congrArg _ ?_
        rw [nextRemaining, nextIdx, nextOff, Nat.add_zero]
        by_cases last : cursor.remaining ≤ dataBlockSize - cursor.blockOff
        · rw [Nat.min_eq_right last, Nat.sub_self, Nat.zero_min,
            Nat.min_eq_left (by unfold dataBlockSize at *; omega)]
          exact append_nil _
        · have whole : cursor.blockIdx * dataBlockSize + cursor.blockOff +
            (dataBlockSize - cursor.blockOff) =
              (cursor.blockIdx + 1) * dataBlockSize := by
            unfold dataBlockSize at *
            omega
          rw [Nat.min_eq_left (Nat.le_of_not_le last), ← whole, ← map_range_split]
          refine congrArg (fun count => (List.range count).map _) ?_
          unfold dataBlockSize at *
          omega

variable {state : BtreeState} {height : Nat} {bindings : Nat → Option Nat}

section

variable (inv : YafsInv state height bindings)

include inv

theorem readFileData_upto {inode hole offset : Nat}
    (first : FirstHole (fileBlocks state bindings inode) hole) (small : hole < maxFileBlocks)
    (before : offset ≤ hole * dataBlockSize) (size : Nat) :
    readFileData state inode offset size =
      .ok ((List.range (min size (hole * dataBlockSize - offset))).map fun i =>
        contentAt (fileBlocks state bindings inode) (offset + i), true) := by
  have position : offset / dataBlockSize * dataBlockSize + offset % dataBlockSize = offset :=
    Nat.div_add_mod' offset dataBlockSize
  have starts : ¬offset / dataBlockSize ≥ maxFileBlocks := by
    unfold dataBlockSize at *
    omega
  rw [readFileData_eq inv]
  by_cases nothing : size = 0
  · rw [if_pos (.inl nothing), nothing, Nat.zero_min]
    rfl
  · rw [if_neg (not_or.mpr ⟨nothing, starts⟩), readBlocks_upto first _ (Nat.lt_succ_self size)
      (Nat.mod_lt _ (by decide)) (by rw [position]; exact before)]
    dsimp only
    rw [position, nil_append]

theorem YafsInv.exists_missing (inode : Nat) :
    ∃ index ≤ ramdiskBlocks, fileBlocks state bindings inode index = none := by
  by_contra whole
  have present : ∀ index ∈ Finset.range (ramdiskBlocks + 1), ∃ extent,
      bindings (extentKey inode index) = some extent := by
    intro index member
    have found : fileBlocks state bindings inode index ≠ none := fun missing =>
      whole ⟨index, Nat.le_of_lt_succ (Finset.mem_range.mp member), missing⟩
    exact Option.ne_none_iff_exists'.mp fun unbound => found (fileBlock_none unbound)
  choose! extent bound using present
  have tag (index : Nat) := keyTag_extentKey inode index
  have inside : ∀ index ∈ Finset.range (ramdiskBlocks + 1),
      extentLba (extent index) ∈ Finset.range ramdiskBlocks := by
    intro index member
    have allocated := (inv.filed.extent (tag index) (bound index member)).2.1
    exact Finset.mem_range.mpr (Nat.lt_of_lt_of_le allocated inv.rep.limit)
  obtain ⟨index, member, other, member', different, same⟩ :=
    Finset.exists_ne_map_eq_of_card_lt_of_maps_to
      (by rw [Finset.card_range, Finset.card_range]; omega) inside
  have limit : ramdiskBlocks < maxFileBlocks := by decide
  have below := Nat.lt_of_lt_of_le (Finset.mem_range.mp member) limit
  have below' := Nat.lt_of_lt_of_le (Finset.mem_range.mp member') limit
  have owns (index : Nat) : ownedBlock (extentKey inode index) (extent index) =
      some (extentLba (extent index)) := by
    rw [ownedBlock, if_neg (by rw [tag]; decide), if_pos (tag index)]
  refine extentKey_ne inode below below' different ?_
  exact inv.filed.apart (bound index member) (bound other member') (owns index) (by rw [owns, same])

theorem YafsInv.exists_hole (inode : Nat) :
    ∃ hole ≤ ramdiskBlocks, FirstHole (fileBlocks state bindings inode) hole := by
  classical
  obtain ⟨index, below, missing⟩ := inv.exists_missing inode
  have exist : ∃ index, fileBlocks state bindings inode index = none := ⟨index, missing⟩
  refine ⟨Nat.find exist, (Nat.find_min' exist missing).trans below, fun earlier less => ?_,
    Nat.find_spec exist⟩
  exact Nat.find_min exist less

theorem FirstHole.eq_size_iff {inode hole : Nat}
    (first : FirstHole (fileBlocks state bindings inode) hole) (near : hole ≤ ramdiskBlocks)
    {size : Nat}
    (below : ∀ index < maxFileBlocks, fileBlocks state bindings inode index ≠ none →
      index * dataBlockSize < size) :
    hole * dataBlockSize = size ↔ WholeBlocks state inode size := by
  have limit : ramdiskBlocks < maxFileBlocks := by decide
  constructor
  · rintro rfl
    refine ⟨Nat.mul_mod_left hole dataBlockSize,
      fun index less => (inv.hasBlock_iff inode index).mpr ?_⟩
    rw [Nat.mul_div_cancel hole (by decide)] at less
    exact first.1 index less
  · rintro ⟨whole, present⟩
    have atLeast : size / dataBlockSize ≤ hole := by
      by_contra more
      exact (inv.hasBlock_iff inode hole).mp (present hole (Nat.lt_of_not_le more)) first.2
    have atMost : hole ≤ size / dataBlockSize := by
      by_contra more
      have less := Nat.lt_of_not_le more
      have begins := below _ (by omega) (first.1 _ less)
      unfold dataBlockSize at begins whole
      omega
    unfold dataBlockSize at *
    omega

end

end M4KK1.Yafs

/-!
## The contents of a file and what was written last

As long as every write to a file stores all of its bytes or none, the file holds at each offset the
byte written last, and all of its blocks begin below the size in its record.
-/

namespace M4KK1.Yafs

open List Lib

/-- A write at the ceiling, without a block for its first byte, or with room for all. -/
def WritesWhole (state : BtreeState) (inode offset len : Nat) : Prop :=
  offset / dataBlockSize ≥ maxFileBlocks ∨ ¬HasRoom inode 1 state (offset / dataBlockSize) ∨
    (offset + len ≤ fileCeiling ∧
      HasRoom inode (chunkCount (offset % dataBlockSize) len) state (offset / dataBlockSize))

/-- The bytes last written once `buf` is laid over them at `offset`. -/
def overwritten (last : Nat → Option UInt8) (offset : Nat) (buf : List UInt8) (pos : Nat) :
    Option UInt8 :=
  if offset ≤ pos ∧ pos < offset + buf.length then some (buf.getD (pos - offset) 0) else last pos

theorem overwritten_nil (last : Nat → Option UInt8) (offset : Nat) :
    overwritten last offset [] = last := by
  ext1 pos
  exact if_neg fun ⟨low, high⟩ => absurd high (Nat.not_lt.mpr low)

/-- The extents of the file are below its size. -/
def BlocksBelow (state : BtreeState) (bindings : Nat → Option Nat) (inode : Nat) : Prop :=
  ∃ lba record, bindings (inodeKey inode) = some lba ∧ state.device.blocks lba = .inode record ∧
    ∀ index < maxFileBlocks, fileBlocks state bindings inode index ≠ none →
      index * dataBlockSize < record.size

/-- The file holds what was written last. -/
structure Reflects (state : BtreeState) (height : Nat) (bindings : Nat → Option Nat) (inode : Nat)
    (last : Nat → Option UInt8) : Prop where
  inv : YafsInv state height bindings
  sized : BlocksBelow state bindings inode
  bytes : ∀ pos < fileCeiling, contentAt (fileBlocks state bindings inode) pos = (last pos).getD 0

variable {state : BtreeState} {height : Nat} {bindings : Nat → Option Nat}

variable {bindings' : Nat → Option Nat} {buf : List UInt8}

theorem YafsInv.bindings_eq (inv : YafsInv state height bindings) {height' : Nat}
    (inv' : YafsInv state height' bindings') : bindings' = bindings := by
  ext1 key
  exact Except.ok.inj ((inv'.rep.lookup key).symm.trans (inv.rep.lookup key))

theorem Reflects.other {inode : Nat} {last : Nat → Option UInt8}
    (reflects : Reflects state height bindings inode last)
    {inode' offset height' : Nat} {out : WriteOut}
    (small : inode < 2 ^ 44) (small' : inode' < 2 ^ 44) (different : inode' ≠ inode)
    (outcome : WriteOutcome state bindings inode' offset buf height' bindings' out) :
    Reflects out.state height' bindings' inode last := by
  obtain ⟨lba, record, bound, image, below⟩ := reflects.sized
  have sameBlocks : fileBlocks out.state bindings' inode = fileBlocks state bindings inode := by
    ext1 index
    refine outcome.files _ (keyTag_extentKey inode index) ?_
    rintro ⟨index', same⟩
    have parents := congrArg keyParent same
    rw [keyParent_extentKey, keyParent_extentKey, Nat.mod_eq_of_lt small,
      Nat.mod_eq_of_lt small'] at parents
    exact different parents.symm
  have tag := keyTag_inodeKey inode
  have otherKey : inodeKey inode ≠ inodeKey inode' := by
    rw [inodeKey_eq, inodeKey_eq, Nat.mod_eq_of_lt (by omega), Nat.mod_eq_of_lt (by omega)]
    exact different.symm
  refine ⟨outcome.inv, ⟨lba, record, ?_, ?_, ?_⟩, ?_⟩
  · rw [outcome.names _ (by rw [tag]; decide), bound]
  · rw [outcome.records tag otherKey bound, image]
  · rw [sameBlocks]
    exact below
  · rw [sameBlocks]
    exact reflects.bytes

theorem BlocksBelow.grown {inode offset count height' : Nat} {out : WriteOut} {after : BtreeState}
    (inv : YafsInv state height bindings)
    (sized : BlocksBelow state bindings inode)
    (loop : LoopStored state bindings inode (offset / dataBlockSize)
      (offset % dataBlockSize) buf 0 count height' bindings' out)
    (ok : out.ok = true) (some : buf.length ≠ 0) (fits : offset + buf.length ≤ fileCeiling)
    (updated : Grown out.state after bindings' inode ((offset + out.written) % 2 ^ 64)) :
    BlocksBelow after bindings' inode := by
  obtain ⟨lba, record, bound, image, below⟩ := sized
  have small : offset + buf.length < 2 ^ 64 := by
    unfold fileCeiling maxFileBlocks dataBlockSize at fits
    omega
  obtain ⟨stillBound, middleImage⟩ := loop.record_still inv bound image
  have newImage := updated.record lba record stillBound middleImage
  rw [loop.newSize ok small] at newImage
  refine ⟨lba, _, stillBound, newImage, fun index inside present => ?_⟩
  have extentTag := keyTag_extentKey inode index
  have isBound : bindings' (extentKey inode index) ≠ none := mt fileBlock_none present
  have atLeast : record.size ≤ (Yafs.grown record (offset + buf.length)).size ∧
      offset + buf.length ≤ (Yafs.grown record (offset + buf.length)).size := by
    unfold Yafs.grown
    dsimp only
    split <;> omega
  rcases loop.bound_cases inv extentTag isBound with before | ⟨i, low, high, isKey⟩
  · exact Nat.lt_of_lt_of_le (below index inside (mt (inv.fileBlock_eq_none extentTag).mp before))
      atLeast.1
  · rw [loop.count_eq ok, chunkCount, if_neg some] at high
    have belowCeiling : i < maxFileBlocks := by
      unfold fileCeiling maxFileBlocks dataBlockSize at *
      omega
    have same : i = index := by
      by_contra apart
      exact extentKey_ne inode inside belowCeiling (Ne.symm apart) isKey
    refine Nat.lt_of_lt_of_le ?_ atLeast.2
    rw [← same]
    unfold dataBlockSize at *
    omega

/-- A write that fits overwrites what the file is known to hold. -/
theorem Reflects.own {inode : Nat} {last : Nat → Option UInt8}
    (reflects : Reflects state height bindings inode last)
    (small : inode < 2 ^ 44) {offset : Nat} (whole : WritesWhole state inode offset buf.length) :
    ∃ out height' bindings', writeFileData state inode buf offset = .ok out ∧
      Reflects out.state height' bindings' inode
        (if out.ok then overwritten last offset (buf.take out.written) else last) := by
  obtain ⟨out, ran, run⟩ := writeFileData_run reflects.inv inode buf offset
  cases run with
  | nothing refused =>
    refine ⟨_, height, bindings, ran, ?_⟩
    rw [if_pos rfl, take_zero, overwritten_nil]
    exact reflects
  | @failed _ count height' bindings' some below loop isFailed =>
    refine ⟨out, height', bindings', ran, ?_⟩
    obtain ⟨ok, _⟩ | ⟨_, less, noRoom⟩ := loop.ended
    · cases isFailed.symm.trans ok
    have none : count = 0 := by
      rcases whole with past | noFirst | ⟨_, room⟩
      · exact absurd below (Nat.not_lt.mpr past)
      · by_contra began
        exact noFirst (loop.room.mono (Nat.pos_of_ne_zero began))
      · exact absurd (room.mono less) noRoom
    obtain ⟨lba, record, bound, image, blocksBelow⟩ := reflects.sized
    obtain ⟨stillBound, middleImage⟩ := loop.record_still reflects.inv bound image
    have sameBlocks : fileBlocks out.state bindings' inode = fileBlocks state bindings inode := by
      ext1 index
      refine loop.kept.blocks _ (keyTag_extentKey inode index) ?_
      rintro ⟨i, low, high, _⟩
      omega
    rw [isFailed, if_neg Bool.noConfusion]
    refine ⟨loop.inv, ⟨lba, _, stillBound, middleImage, ?_⟩, ?_⟩
    · rw [sameBlocks]
      exact blocksBelow
    · rw [sameBlocks]
      exact reflects.bytes
  | @stored out after count height' bindings' some below loop ok updated =>
    obtain ⟨afterHeight, edits⟩ := updated.edits
    have fits : offset + buf.length ≤ fileCeiling := by
      rcases whole with past | noFirst | ⟨fits, _⟩
      · exact absurd below (Nat.not_lt.mpr past)
      · have began : 0 < count := by
          rw [loop.count_eq ok]
          exact lt_chunkCount.mpr (by omega)
        exact absurd (loop.room.mono began) noFirst
      · exact fits
    obtain ⟨_, _, _, ranToo, outcome⟩ := writeFileData_spec reflects.inv inode buf offset
    cases ran.symm.trans ranToo
    obtain ⟨all, written⟩ := outcome.all rfl small fits
    obtain rfl := edits.inv.bindings_eq outcome.inv
    refine ⟨_, afterHeight, _, ran, edits.inv,
      reflects.sized.grown reflects.inv loop ok some fits updated, ?_⟩
    intro pos inside
    dsimp only at all
    rw [if_pos rfl, all, take_length, overwritten, contentAt, written pos inside]
    have before := reflects.bytes pos inside
    rw [contentAt] at before
    split
    next => rfl
    next =>
      rw [← before]
      split <;> rfl

end M4KK1.Yafs
