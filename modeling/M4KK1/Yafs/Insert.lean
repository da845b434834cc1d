import M4KK1.Yafs.TreeInvariant

/-!
# What `btree_insert_node` does to a search tree

One tree, or two trees and a separator, or no block left; `insertWrites` counts the blocks.
-/

namespace M4KK1.Yafs

open Lib Function CArray

/-- The cells after inserting `value` at `pos` into the first `count` cells. -/
def insertCell (cells : Nat → Nat) (pos count value index : Nat) : Nat :=
  if index = pos then value
  else if pos < index ∧ index ≤ count then cells (index - 1)
  else cells index

variable {count pos : Nat} {keys : Nat → Nat} {key : Nat} {values : Nat → Nat} {device : Device}
  {lo hi height : Nat} {get : Nat → Option Nat}

theorem leafInsertAt_eq (leaf : LeafPayload) (key value : Nat)
    (fits : count ≤ btreeMaxKeys) (inside : pos ≤ count) :
    leafInsertAt leaf count pos key value =
      .ok { leaf with
        keys := ⟨insertCell leaf.keys.cell pos count key⟩
        values := ⟨insertCell leaf.values.cell pos count value⟩ } := by
  unfold leafInsertAt
  rw [shiftUp_eq _ _ _ (by omega), ok_bind, shiftUp_eq _ _ _ (by omega), ok_bind,
    write_eq (by omega), ok_bind, write_eq (by omega), ok_bind, pure_eq_ok]
  simp only [Except.ok.injEq, LeafPayload.mk.injEq, CArray.mk.injEq, and_true]
  constructor <;> funext index <;> simp only [update_apply, insertCell]

theorem internalInsertAt_eq (internal : InternalPayload) (key child : Nat)
    (fits : count ≤ btreeMaxKeys) (inside : pos ≤ count) :
    internalInsertAt internal count pos key child =
      .ok { keys := ⟨insertCell internal.keys.cell pos count key⟩
            children := ⟨insertCell internal.children.cell (pos + 1) (count + 1) child⟩ } := by
  unfold internalInsertAt
  rw [shiftUp_eq _ _ _ (by omega), ok_bind, shiftUp_eq _ _ _ (by omega), ok_bind,
    write_eq (by omega), ok_bind, write_eq (by omega), ok_bind, pure_eq_ok]
  simp only [Except.ok.injEq, InternalPayload.mk.injEq, CArray.mk.injEq]
  constructor <;> funext index <;> simp only [update_apply, insertCell]

theorem increasing_insertCell (sorted : Increasing keys count) (bounded : pos ≤ count)
    (before : ∀ i, i < pos → keys i < key) (after : ∀ i, pos ≤ i → i < count → key < keys i) :
    Increasing (insertCell keys pos count key) (count + 1) := by
  intro i j less inside
  unfold insertCell
  have := sorted i j
  have := sorted i (j - 1)
  have := sorted (i - 1) (j - 1)
  have := before i
  have := after (j - 1)
  split_ifs <;> omega

theorem forall_insertCell {cells : Nat → Nat} {value : Nat} {P : Nat → Prop}
    (bounded : pos ≤ count) (old : ∀ i, i < count → P (cells i)) (new : P value) :
    ∀ i, i < count + 1 → P (insertCell cells pos count value i) := by
  intro i inside
  unfold insertCell
  split_ifs with atPos shifted
  · exact new
  · exact old _ (by omega)
  · exact old _ (by omega)

theorem cellFind_insertCell (value probe : Nat)
    (sorted : Increasing keys count) (bounded : pos ≤ count)
    (before : ∀ i, i < pos → keys i < key) (after : ∀ i, pos ≤ i → i < count → key < keys i) :
    cellFind (insertCell keys pos count key) (insertCell values pos count value) (count + 1) probe =
      if probe = key then some value else cellFind keys values count probe := by
  have sorted' := increasing_insertCell sorted bounded before after
  by_cases same : probe = key
  · have found := cellFind_some (insertCell values pos count value) sorted'
      (show pos < count + 1 by omega)
    simpa [insertCell, same] using found
  · simp only [same, if_false]
    by_cases present : ∃ i, i < count ∧ keys i = probe
    · obtain ⟨i, inside, hit⟩ := present
      rw [← hit, cellFind_some _ sorted inside]
      rcases Nat.lt_or_ge i pos with low | high
      · have found := cellFind_some (insertCell values pos count value) sorted'
          (show i < count + 1 by omega)
        have here : i ≠ pos := by omega
        have unmoved : ¬ (pos < i ∧ i ≤ count) := by omega
        simpa [insertCell, here, unmoved] using found
      · have found := cellFind_some (insertCell values pos count value) sorted'
          (show i + 1 < count + 1 by omega)
        have here : i + 1 ≠ pos := by omega
        have moved : pos < i + 1 ∧ i + 1 ≤ count := by omega
        simpa [insertCell, here, moved] using found
    · have absent : ∀ i, i < count → keys i ≠ probe := fun i inside hit =>
        present ⟨i, inside, hit⟩
      rw [cellFind_none absent]
      exact cellFind_none (forall_insertCell (P := fun cell => cell ≠ probe) bounded absent
        fun equal => same equal.symm)

theorem cellFind_update {index : Nat} (value probe : Nat)
    (sorted : Increasing keys count) (inside : index < count) :
    cellFind keys (update values index value) count probe =
      if probe = keys index then some value else cellFind keys values count probe := by
  by_cases same : probe = keys index
  · subst same
    simp [cellFind_some _ sorted inside]
  · simp only [same, if_false]
    by_cases present : ∃ i, i < count ∧ keys i = probe
    · obtain ⟨i, below, hit⟩ := present
      have other : i ≠ index := fun equal => same (equal ▸ hit.symm)
      rw [← hit, cellFind_some _ sorted below, cellFind_some _ sorted below, update_of_ne other]
    · have absent : ∀ i, i < count → keys i ≠ probe := fun i below hit => present ⟨i, below, hit⟩
      rw [cellFind_none absent, cellFind_none absent]

/-- The entry count in the header of block `lba`. -/
def entryCountAt (device : Device) (lba : Nat) : Nat :=
  match device.blocks lba with
  | .node node => node.entryCount
  | _ => 0

theorem entryCountAt_eq {lba : Nat} {node : Node}
    (image : device.blocks lba = .node node) : entryCountAt device lba = node.entryCount := by
  simp [entryCountAt, image]

/-- One tree over `[lo, hi)`, or two that meet at the split key; `get` is what they bind. -/
inductive Stored (device : Device) (height lo hi : Nat) (get : Nat → Option Nat) :
    InsertOut → Prop where
  | whole {lba : Nat} {inserted : Bool} (tree : IsTree device height lo hi lba)
      (binds : ∀ key, lo ≤ key → key < hi → treeGet device height lba key = get key) :
      Stored device height lo hi get ⟨lba, 0, 0, inserted⟩
  | split {lba splitKey splitLba : Nat} {inserted : Bool} (low : lo < splitKey)
      (high : splitKey < hi) (left : IsTree device height lo splitKey lba)
      (right : IsTree device height splitKey hi splitLba)
      (binds : ∀ key, lo ≤ key → key < hi →
        treeGet device height (if key < splitKey then lba else splitLba) key = get key) :
      Stored device height lo hi get ⟨lba, splitKey, splitLba, inserted⟩

/-- How a store of a node with `count` entries that takes `writes` blocks ends. -/
inductive StoreOutcome (device : Device) (writes count height lo hi : Nat)
    (get : Nat → Option Nat) (inserted : Bool) : Device × InsertOut → Prop where
  | failed {after : Device} (frame : Extends device after)
      (short : ramdiskBlocks < device.nextFreeBlock + writes)
      (used : after.nextFreeBlock = ramdiskBlocks) :
      StoreOutcome device writes count height lo hi get inserted (after, .failed)
  | stored {after : Device} {out : InsertOut} (frame : Extends device after)
      (next : after.nextFreeBlock = device.nextFreeBlock + writes)
      (limit : after.nextFreeBlock ≤ ramdiskBlocks) (flag : out.inserted = inserted)
      (stored : Stored after height lo hi get out)
      (whole : out.splitLba = 0 → count ≤ btreeMaxKeys ∧ entryCountAt after out.lba = count)
      (split : out.splitLba ≠ 0 → count = btreeMaxKeys + 1) :
      StoreOutcome device writes count height lo hi get inserted (after, out)

inductive HalvesWritten (device : Device) (left right : Node) (splitKey : Nat) (inserted : Bool) :
    Device × InsertOut → Prop where
  | failed {after : Device} (frame : Extends device after)
      (short : ramdiskBlocks < device.nextFreeBlock + 2)
      (used : after.nextFreeBlock = ramdiskBlocks) :
      HalvesWritten device left right splitKey inserted (after, .failed)
  | written {after : Device} {leftLba rightLba : Nat} (frame : Extends device after)
      (next : after.nextFreeBlock = device.nextFreeBlock + 2)
      (limit : after.nextFreeBlock ≤ ramdiskBlocks)
      (rightFresh : rightLba = device.nextFreeBlock)
      (leftFresh : leftLba = device.nextFreeBlock + 1)
      (rightImage : after.blocks rightLba = .node right)
      (leftImage : after.blocks leftLba = .node left) :
      HalvesWritten device left right splitKey inserted
        (after, ⟨leftLba, splitKey, rightLba, inserted⟩)

theorem extends_devFreeBlock (device : Device) (lba : Nat) :
    Extends device (devFreeBlock device lba) := by
  unfold devFreeBlock
  split <;> exact ⟨Nat.le_refl _, fun _ _ => rfl⟩

@[simp] theorem devFreeBlock_next (device : Device) (lba : Nat) :
    (devFreeBlock device lba).nextFreeBlock = device.nextFreeBlock := by
  unfold devFreeBlock
  split <;> rfl

theorem writeHalves_spec (device : Device) (left right : Node) (splitKey : Nat) (inserted : Bool)
    (positive : 0 < device.nextFreeBlock) (limit : device.nextFreeBlock ≤ ramdiskBlocks) :
    HalvesWritten device left right splitKey inserted
      (writeHalves device left right splitKey inserted) := by
  unfold writeHalves
  have rightWrite := nodeWrite_spec device right positive
  generalize nodeWrite device right = rightResult at rightWrite
  cases rightWrite with
  | full noBlock =>
    simp only [if_true]
    exact .failed (.refl device) (by omega) (by omega)
  | @written middle room frame next rightImage =>
    have rightPositive : device.nextFreeBlock ≠ 0 := by omega
    simp only [rightPositive, if_false]
    have leftWrite := nodeWrite_spec middle left (by omega)
    generalize nodeWrite middle left = leftResult at leftWrite
    cases leftWrite with
    | full noBlock =>
      simp only [if_true]
      exact .failed (frame.trans (extends_devFreeBlock middle _)) (by omega)
        (by rw [devFreeBlock_next]; omega)
    | @written after leftRoom leftFrame leftNext leftImage =>
      have leftPositive : middle.nextFreeBlock ≠ 0 := by omega
      simp only [leftPositive, if_false]
      exact .written (frame.trans leftFrame) (by omega) (by omega) rfl next
        ((leftFrame.kept _ (by omega)).trans rightImage) leftImage

inductive WholeWritten (device : Device) (node : Node) (inserted : Bool) :
    Device × InsertOut → Prop where
  | failed (short : ramdiskBlocks < device.nextFreeBlock + 1)
      (used : device.nextFreeBlock = ramdiskBlocks) :
      WholeWritten device node inserted (device, .failed)
  | written {after : Device} {lba : Nat} (frame : Extends device after)
      (next : after.nextFreeBlock = device.nextFreeBlock + 1)
      (limit : after.nextFreeBlock ≤ ramdiskBlocks) (fresh : lba = device.nextFreeBlock)
      (image : after.blocks lba = .node node) :
      WholeWritten device node inserted (after, ⟨lba, 0, 0, inserted⟩)

theorem writeWhole_spec (device : Device) (node : Node) (inserted : Bool)
    (positive : 0 < device.nextFreeBlock) (limit : device.nextFreeBlock ≤ ramdiskBlocks) :
    WholeWritten device node inserted (writeWhole device node inserted) := by
  unfold writeWhole
  have written := nodeWrite_spec device node positive
  generalize nodeWrite device node = result at written
  cases written with
  | full noBlock =>
    simp only [if_true]
    exact .failed (by omega) (by omega)
  | @written after room frame next image =>
    have notZero : device.nextFreeBlock ≠ 0 := by omega
    simp only [notZero, if_false]
    exact .written frame next (by omega) rfl image

/-- The blocks a store of `count` entries takes. -/
def storeWrites (count : Nat) : Nat := if count > btreeMaxKeys then 2 else 1

theorem storeWrites_pos (count : Nat) : 0 < storeWrites count := by
  unfold storeWrites
  split <;> omega

theorem cellFind_congr {keys' values' : Nat → Nat}
    (same : ∀ i, i < count → keys i = keys' i ∧ values i = values' i) :
    cellFind keys values count key = cellFind keys' values' count key := by
  induction count with
  | zero => rfl
  | succ count ih =>
    simp only [cellFind, (same count (by omega)).1, (same count (by omega)).2]
    rw [ih fun i below => same i (by omega)]

theorem cellFind_cut {mid : Nat} (probe : Nat)
    (sorted : Increasing keys count) (inside : mid < count) :
    cellFind keys values count probe =
      if probe < keys mid then cellFind keys values mid probe
      else cellFind (fun i => keys (mid + i)) (fun i => values (mid + i)) (count - mid) probe := by
  have sortedLow : Increasing keys mid := fun i j less below => sorted i j less (by omega)
  have sortedHigh : Increasing (fun i => keys (mid + i)) (count - mid) := fun i j less below =>
    sorted (mid + i) (mid + j) (by omega) (by omega)
  have lowSide : ∀ i, i < mid → keys i < keys mid := fun i below => sorted i mid below inside
  have highSide : ∀ i, i < count → mid ≤ i → keys mid ≤ keys i := fun i below above => by
    rcases Nat.lt_or_eq_of_le above with strict | rfl
    · exact Nat.le_of_lt (sorted mid i strict below)
    · exact Nat.le_refl _
  by_cases present : ∃ i, i < count ∧ keys i = probe
  · obtain ⟨i, below, rfl⟩ := present
    rw [cellFind_some _ sorted below]
    rcases Nat.lt_or_ge i mid with low | high
    · rw [if_pos (lowSide i low), cellFind_some _ sortedLow low]
    · have found := cellFind_some (fun i => values (mid + i)) sortedHigh
        (show i - mid < count - mid by omega)
      have index : mid + (i - mid) = i := by omega
      rw [if_neg (Nat.not_lt_of_le (highSide i below high))]
      simpa [index] using found.symm
  · have absent : ∀ i, i < count → keys i ≠ probe := fun i below hit => present ⟨i, below, hit⟩
    rw [cellFind_none absent, cellFind_none fun i below => absent i (by omega),
      cellFind_none fun i below => absent (mid + i) (by omega), ite_self]

theorem leafStore_spec (device : Device) (level : Nat) (leaf : LeafPayload) (inserted : Bool)
    (positive : 0 < device.nextFreeBlock)
    (limit : device.nextFreeBlock ≤ ramdiskBlocks) (bounded : count ≤ btreeMaxKeys + 1)
    (sorted : Increasing leaf.keys.cell count)
    (range : ∀ i, i < count → lo ≤ leaf.keys.cell i ∧ leaf.keys.cell i < hi) :
    ∃ result, leafStore device level leaf count inserted = .ok result ∧
      StoreOutcome device (storeWrites count) count 0 lo hi
        (cellFind leaf.keys.cell leaf.values.cell count) inserted result := by
  unfold leafStore storeWrites
  by_cases overflow : count > btreeMaxKeys
  · have full : count = btreeMaxKeys + 1 := by omega
    simp only [overflow, if_true]
    have maxKeys : btreeMaxKeys = 248 := rfl
    rw [copyFrom_eq _ _ _ _ _ (by omega) (by omega), ok_bind,
      copyFrom_eq _ _ _ _ _ (by omega) (by omega), ok_bind, read_eq (by omega),
      ok_bind, pure_eq_ok]
    refine ⟨_, rfl, ?_⟩
    generalize midIs : btreeMaxKeys / 2 = mid
    have midValue : mid = 124 := by omega
    have moved : ∀ i, i < count - mid → 0 ≤ i ∧ i < 0 + (count - mid) := by omega
    have firstMoved : (0 ≤ 0 ∧ 0 < 0 + (count - mid)) := by omega
    simp only [firstMoved, and_self, if_true, Nat.add_zero]
    have halves := writeHalves_spec device ⟨level, mid, .leaf leaf⟩
      ⟨0, count - mid, .leaf { emptyLeaf with
        keys := ⟨fun cell => if 0 ≤ cell ∧ cell < 0 + (count - mid) then leaf.keys.cell (mid + cell)
          else emptyLeaf.keys.cell cell⟩
        values := ⟨fun cell => if 0 ≤ cell ∧ cell < 0 + (count - mid) then
          leaf.values.cell (mid + cell) else emptyLeaf.values.cell cell⟩ }⟩
      (leaf.keys.cell mid) inserted positive limit
    generalize writeHalves device _ _ (leaf.keys.cell mid) inserted = result at halves
    cases halves with
    | failed frame short used => exact .failed frame short used
    | @written after leftLba rightLba frame next fits rightFresh leftFresh rightImage leftImage =>
      have midLow : lo < leaf.keys.cell mid := by
        have first := (range 0 (by omega)).1
        have step := sorted 0 mid (by omega) (by omega)
        omega
      have midHigh : leaf.keys.cell mid < hi := (range mid (by omega)).2
      have leftTree : IsTree after 0 lo (leaf.keys.cell mid) leftLba := by
        refine .leaf leftImage (by omega) (by omega) (by omega)
          (fun i j less below => sorted i j less (by omega)) fun i below => ?_
        exact ⟨(range i (by omega)).1, sorted i mid below (by omega)⟩
      have rightTree : IsTree after 0 (leaf.keys.cell mid) hi rightLba := by
        refine .leaf rightImage (by omega) (by omega) (by omega) (fun i j less below => ?_)
          fun i below => ?_
        · simp only [moved i (by omega), moved j below, and_self, if_true]
          exact sorted _ _ (by omega) (by omega)
        · simp only [moved i below, and_self, if_true]
          refine ⟨?_, (range _ (by omega)).2⟩
          rcases Nat.eq_zero_or_pos i with rfl | later
          · exact Nat.le_refl _
          · exact Nat.le_of_lt (sorted mid (mid + i) (by omega) (by omega))
      refine .stored frame next fits rfl (.split midLow midHigh leftTree rightTree ?_)
        (fun whole => absurd whole (by simp only; omega)) (fun _ => full)
      intro key _ _
      rw [cellFind_cut key sorted (show mid < count by omega)]
      split
      · rw [treeGet_leaf leftImage]
      · rw [treeGet_leaf rightImage]
        refine cellFind_congr fun i below => ?_
        simp only [moved i below, and_self, if_true]
  · simp only [overflow, if_false, pure_eq_ok]
    refine ⟨_, rfl, ?_⟩
    have written := writeWhole_spec device ⟨level, count, .leaf leaf⟩ inserted positive limit
    generalize writeWhole device _ inserted = result at written
    cases written with
    | failed short used => exact .failed (.refl device) short used
    | @written after lba frame next fits fresh image =>
      have tree : IsTree after 0 lo hi lba :=
        .leaf image (by omega) (by omega) (by omega) sorted range
      refine .stored frame next fits rfl (.whole tree fun key _ _ => treeGet_leaf image key)
        (fun _ => ⟨by omega, entryCountAt_eq image⟩) (fun split => absurd rfl split)

theorem slotOf_cut {mid : Nat} (key : Nat)
    (sorted : Increasing keys count) (inside : mid < count) :
    slotOf keys count key =
      if key < keys mid then slotOf keys mid key
      else mid + 1 + slotOf (fun i => keys (mid + 1 + i)) (count - mid - 1) key := by
  apply slotOf_eq
  split
  · rename_i low
    have slot := isSlot_slotOf (fun i j less below => sorted i j less (by omega) :
      Increasing keys mid) key
    refine ⟨by have := slot.le_count; omega, slot.below, fun i above below => ?_⟩
    rcases Nat.lt_or_ge i mid with left | right
    · exact slot.above i above left
    · rcases Nat.lt_or_eq_of_le right with strict | rfl
      · exact Nat.lt_trans low (sorted mid i strict below)
      · exact low
  · rename_i high
    have slot := isSlot_slotOf (fun i j less below => sorted _ _ (by omega) (by omega) :
      Increasing (fun i => keys (mid + 1 + i)) (count - mid - 1)) key
    refine ⟨by have := slot.le_count; omega, fun i below => ?_, fun i above below => ?_⟩
    · rcases Nat.lt_or_ge i (mid + 1) with left | right
      · rcases Nat.lt_succ_iff_lt_or_eq.mp left with strict | rfl
        · have := sorted i mid strict inside
          omega
        · omega
      · have index : mid + 1 + (i - (mid + 1)) = i := by omega
        simpa [index] using slot.below (i - (mid + 1)) (by omega)
    · have index : mid + 1 + (i - (mid + 1)) = i := by omega
      simpa [index] using slot.above (i - (mid + 1)) (by omega) (by omega)

theorem slotOf_congr (keys' : Nat → Nat) (same : ∀ i, i < count → keys i = keys' i) :
    slotOf keys count key = slotOf keys' count key := by
  induction count with
  | zero => rfl
  | succ count ih =>
    simp only [slotOf, same count (by omega)]
    rw [ih fun i below => same i (by omega)]

section Halves

variable {device : Device} {height lo hi lba level count mid : Nat} {internal : InternalPayload}
  (positive : 0 < lba) (allocated : lba < device.nextFreeBlock) (inside : mid < count)
  (sorted : Increasing internal.keys.cell count)
  (range : ∀ i, i < count → lo < internal.keys.cell i ∧ internal.keys.cell i < hi)
  (ordered : ∀ i, i ≤ count → internal.children.cell i < lba)
  (subtrees : ∀ i, i ≤ count → IsTree device height (childLo lo internal.keys.cell i)
    (childHi hi internal.keys.cell count i) (internal.children.cell i))

include positive allocated inside sorted range ordered subtrees

theorem isTree_leftHalf (small : mid ≤ btreeMaxKeys)
    (image : device.blocks lba = .node ⟨level, mid, .internal internal⟩) :
    IsTree device (height + 1) lo (internal.keys.cell mid) lba := by
  refine .internal image positive allocated small (fun i j less below => sorted i j less (by omega))
    (fun i below => ⟨(range i (by omega)).1, sorted i mid below inside⟩)
    (fun i below => ordered i (by omega)) fun i below => ?_
  have sameHi : childHi hi internal.keys.cell count i =
      childHi (internal.keys.cell mid) internal.keys.cell mid i := by
    unfold childHi
    split_ifs <;> first | rfl | omega | (congr 1; omega)
  exact sameHi ▸ subtrees i (by omega)

theorem isTree_rightHalf {right : InternalPayload} (small : count - mid - 1 ≤ btreeMaxKeys)
    (image : device.blocks lba = .node ⟨level, count - mid - 1, .internal right⟩)
    (keysMoved : ∀ i, i < count - mid - 1 → right.keys.cell i = internal.keys.cell (mid + 1 + i))
    (childrenMoved : ∀ i, i ≤ count - mid - 1 →
      right.children.cell i = internal.children.cell (mid + 1 + i)) :
    IsTree device (height + 1) (internal.keys.cell mid) hi lba := by
  refine .internal image positive allocated small (fun i j less below => ?_) (fun i below => ?_)
    (fun i below => ?_) fun i below => ?_
  · rw [keysMoved i (by omega), keysMoved j below]
    exact sorted _ _ (by omega) (by omega)
  · rw [keysMoved i below]
    exact ⟨sorted _ _ (by omega) (by omega), (range _ (by omega)).2⟩
  · rw [childrenMoved i below]
    exact ordered _ (by omega)
  · have sameLo : childLo lo internal.keys.cell (mid + 1 + i) =
        childLo (internal.keys.cell mid) right.keys.cell i := by
      unfold childLo
      by_cases first : i = 0
      · simp [first]
      · rw [if_neg (by omega), if_neg first, keysMoved _ (by omega)]
        congr 1
        omega
    have sameHi : childHi hi internal.keys.cell count (mid + 1 + i) =
        childHi hi right.keys.cell (count - mid - 1) i := by
      unfold childHi
      by_cases last : i < count - mid - 1
      · rw [if_pos (by omega), if_pos last, keysMoved i last]
      · rw [if_neg (by omega), if_neg last]
    rw [childrenMoved i below, ← sameLo, ← sameHi]
    exact subtrees _ (by omega)

end Halves

theorem internalStore_spec (device : Device) (level : Nat) (internal : InternalPayload)
    (inserted : Bool) (positive : 0 < device.nextFreeBlock)
    (limit : device.nextFreeBlock ≤ ramdiskBlocks) (bounded : count ≤ btreeMaxKeys + 1)
    (sorted : Increasing internal.keys.cell count)
    (range : ∀ i, i < count → lo < internal.keys.cell i ∧ internal.keys.cell i < hi)
    (subtrees : ∀ i, i ≤ count → IsTree device height (childLo lo internal.keys.cell i)
      (childHi hi internal.keys.cell count i) (internal.children.cell i)) :
    ∃ result, internalStore device level internal count inserted = .ok result ∧
      StoreOutcome device (storeWrites count) count (height + 1) lo hi
        (fun key => treeGet device height
          (internal.children.cell (slotOf internal.keys.cell count key)) key) inserted result := by
  have childBelow : ∀ i, i ≤ count → internal.children.cell i < device.nextFreeBlock :=
    fun i inside => (subtrees i inside).allocated
  unfold internalStore storeWrites
  by_cases overflow : count > btreeMaxKeys
  · have full : count = btreeMaxKeys + 1 := by omega
    simp only [overflow, if_true]
    have maxKeys : btreeMaxKeys = 248 := rfl
    rw [read_eq (by omega), ok_bind, copyFrom_eq _ _ _ _ _ (by omega) (by omega),
      ok_bind, copyFrom_eq _ _ _ _ _ (by omega) (by omega), ok_bind, pure_eq_ok]
    refine ⟨_, rfl, ?_⟩
    generalize midIs : btreeMaxKeys / 2 = mid
    have midValue : mid = 124 := by omega
    generalize movedIs : count - mid - 1 = moved
    have keyMoved : ∀ i, i < moved → 0 ≤ i ∧ i < 0 + moved := by omega
    have childMoved : ∀ i, i ≤ moved → 0 ≤ i ∧ i < 0 + (moved + 1) := by omega
    generalize rightNode : (⟨level, moved, .internal
      { keys := ⟨fun cell => if 0 ≤ cell ∧ cell < 0 + moved then internal.keys.cell (mid + 1 + cell)
          else emptyInternal.keys.cell cell⟩
        children := ⟨fun cell => if 0 ≤ cell ∧ cell < 0 + (moved + 1) then
          internal.children.cell (mid + 1 + cell) else emptyInternal.children.cell cell⟩ }⟩ : Node)
      = right
    have halves := writeHalves_spec device ⟨level, mid, .internal internal⟩ right
      (internal.keys.cell mid) inserted positive limit
    generalize writeHalves device _ _ (internal.keys.cell mid) inserted = result at halves
    cases halves with
    | failed frame short used => exact .failed frame short used
    | @written after leftLba rightLba frame next fits rightFresh leftFresh rightImage leftImage =>
      subst rightNode
      have keep := frame.keepsNodes
      have midLow : lo < internal.keys.cell mid := (range mid (by omega)).1
      have midHigh : internal.keys.cell mid < hi := (range mid (by omega)).2
      have framed := fun i (inside : i ≤ count) => (subtrees i inside).frame keep
      have leftTree := isTree_leftHalf (show 0 < leftLba by omega) (by omega)
        (show mid < count by omega) sorted range
        (fun i inside => by have := childBelow i inside; omega) framed (by omega) leftImage
      have rightTree := isTree_rightHalf (show 0 < rightLba by omega) (by omega)
        (show mid < count by omega) sorted range
        (fun i inside => by have := childBelow i inside; omega) framed (by omega)
        (movedIs ▸ rightImage) (fun i below => if_pos (by omega))
        (fun i below => if_pos (by omega))
      refine .stored frame next fits rfl (.split midLow midHigh leftTree rightTree ?_)
        (fun whole => absurd whole (by simp only; omega)) (fun _ => full)
      intro key _ _
      have slot := isSlot_slotOf sorted key
      rw [slotOf_cut key sorted (show mid < count by omega)] at slot ⊢
      by_cases low : key < internal.keys.cell mid
      · simp only [low, if_true] at slot ⊢
        rw [treeGet_internal leftImage, (subtrees _ slot.le_count).treeGet_frame keep]
      · simp only [low, if_false] at slot ⊢
        rw [movedIs] at slot ⊢
        rw [treeGet_internal rightImage]
        simp only
        rw [slotOf_congr (fun i => internal.keys.cell (mid + 1 + i)) fun i below => by
          simp only [keyMoved i below, and_self, if_true]]
        have inside := slot.le_count
        rw [if_pos (childMoved _ (by omega)), (subtrees _ slot.le_count).treeGet_frame keep]
  · simp only [overflow, if_false, pure_eq_ok]
    refine ⟨_, rfl, ?_⟩
    have written := writeWhole_spec device ⟨level, count, .internal internal⟩ inserted positive
      limit
    generalize writeWhole device _ inserted = result at written
    cases written with
    | failed short used => exact .failed (.refl device) short used
    | @written after lba frame next fits fresh image =>
      have keep := frame.keepsNodes
      have tree : IsTree after (height + 1) lo hi lba :=
        .internal image (by omega) (by omega) (by omega) sorted range
          (fun i inside => by have := childBelow i inside; omega)
          fun i inside => (subtrees i inside).frame keep
      refine .stored frame next fits rfl (.whole tree fun key _ _ => ?_)
        (fun _ => ⟨by omega, entryCountAt_eq image⟩) (fun split => absurd rfl split)
      rw [treeGet_internal image,
        (subtrees _ (isSlot_slotOf sorted key).le_count).treeGet_frame keep]

/-- The child of block `lba` that a descent for `key` enters. -/
def childFor (device : Device) (lba key : Nat) : Nat :=
  match device.blocks lba with
  | .node ⟨_, count, .internal internal⟩ =>
    internal.children.cell (slotOf internal.keys.cell count key)
  | _ => 0

theorem childFor_eq {lba level : Nat} {internal : InternalPayload}
    (image : device.blocks lba = .node ⟨level, count, .internal internal⟩) (key : Nat) :
    childFor device lba key = internal.children.cell (slotOf internal.keys.cell count key) := by
  simp [childFor, image]

/-- The entries node `lba` holds once `key` is inserted below it, before it is split. -/
def insertCount (device : Device) : Nat → Nat → Nat → Nat
  | 0, lba, key =>
    if (treeGet device 0 lba key).isSome then entryCountAt device lba
    else entryCountAt device lba + 1
  | height + 1, lba, key =>
    if insertCount device height (childFor device lba key) key > btreeMaxKeys then
      entryCountAt device lba + 1
    else entryCountAt device lba

/-- The blocks `btree_insert_node` takes to insert `key` below `lba`. -/
def insertWrites (device : Device) : Nat → Nat → Nat → Nat
  | 0, lba, key => storeWrites (insertCount device 0 lba key)
  | height + 1, lba, key =>
    insertWrites device height (childFor device lba key) key +
      storeWrites (insertCount device (height + 1) lba key)

theorem Stored.congr {get' : Nat → Option Nat}
    {out : InsertOut} (same : ∀ key, lo ≤ key → key < hi → get key = get' key)
    (stored : Stored device height lo hi get out) : Stored device height lo hi get' out := by
  cases stored with
  | whole tree binds =>
    exact .whole tree fun key low high => (binds key low high).trans (same key low high)
  | split low high left right binds =>
    exact .split low high left right fun key low high =>
      (binds key low high).trans (same key low high)

theorem StoreOutcome.congr {writes : Nat}
    {get' : Nat → Option Nat} {inserted : Bool} {result : Device × InsertOut}
    (same : ∀ key, lo ≤ key → key < hi → get key = get' key)
    (outcome : StoreOutcome device writes count height lo hi get inserted result) :
    StoreOutcome device writes count height lo hi get' inserted result := by
  cases outcome with
  | failed frame short used => exact .failed frame short used
  | stored frame next limit flag stored whole split =>
    exact .stored frame next limit flag (stored.congr same) whole split

theorem StoreOutcome.prepend {middle : Device} {earlier writes : Nat}
    {inserted : Bool} {result : Device × InsertOut}
    (frame : Extends device middle)
    (next : middle.nextFreeBlock = device.nextFreeBlock + earlier)
    (outcome : StoreOutcome middle writes count height lo hi get inserted result) :
    StoreOutcome device (earlier + writes) count height lo hi get inserted result := by
  cases outcome with
  | failed laterFrame short used => exact .failed (frame.trans laterFrame) (by omega) used
  | stored laterFrame laterNext limit flag stored whole split =>
    exact .stored (frame.trans laterFrame) (by omega) limit flag stored whole split

section Descent

variable {device : Device} {height lo hi lba level count key : Nat} {internal : InternalPayload}

variable {slot : Nat}

theorem subtrees_update {middle : Device} {child : Nat} (frame : Extends device middle)
    (subtrees : ∀ i, i ≤ count → IsTree device height (childLo lo internal.keys.cell i)
      (childHi hi internal.keys.cell count i) (internal.children.cell i))
    (tree : IsTree middle height (childLo lo internal.keys.cell slot)
      (childHi hi internal.keys.cell count slot) child) :
    ∀ i, i ≤ count → IsTree middle height (childLo lo internal.keys.cell i)
      (childHi hi internal.keys.cell count i)
      (update internal.children.cell slot child i) := by
  intro i inside
  by_cases here : i = slot
  · subst here
    simpa using tree
  · rw [update_of_ne here]
    exact (subtrees i inside).frame frame.keepsNodes

theorem insertCell_update_children {children : Nat → Nat} {left right i : Nat}
    (inside : i ≤ count + 1) :
    insertCell (update children slot left) (slot + 1) (count + 1) right i =
      if i < slot then children i else if i = slot then left
      else if i = slot + 1 then right else children (i - 1) := by
  unfold insertCell
  simp only [update_apply]
  split_ifs <;> first | rfl | omega

theorem subtrees_split {middle : Device} {left right splitKey : Nat}
    (frame : Extends device middle) (bounded : slot ≤ count)
    (subtrees : ∀ i, i ≤ count → IsTree device height (childLo lo internal.keys.cell i)
      (childHi hi internal.keys.cell count i) (internal.children.cell i))
    (leftTree : IsTree middle height (childLo lo internal.keys.cell slot) splitKey left)
    (rightTree : IsTree middle height splitKey (childHi hi internal.keys.cell count slot) right) :
    ∀ i, i ≤ count + 1 → IsTree middle height
      (childLo lo (insertCell internal.keys.cell slot count splitKey) i)
      (childHi hi (insertCell internal.keys.cell slot count splitKey) (count + 1) i)
      (insertCell (update internal.children.cell slot left) (slot + 1) (count + 1) right i) := by
  intro i inside
  rw [insertCell_update_children inside]
  have keep := frame.keepsNodes
  rcases Nat.lt_trichotomy i slot with before | rfl | after
  · have old := (subtrees i (by omega)).frame keep
    have sameLo : childLo lo (insertCell internal.keys.cell slot count splitKey) i =
        childLo lo internal.keys.cell i := by
      unfold childLo insertCell
      split_ifs <;> first | rfl | omega
    have sameHi : childHi hi (insertCell internal.keys.cell slot count splitKey) (count + 1) i =
        childHi hi internal.keys.cell count i := by
      unfold childHi insertCell
      split_ifs <;> first | rfl | omega
    rw [if_pos before, sameLo, sameHi]
    exact old
  · have sameLo : childLo lo (insertCell internal.keys.cell i count splitKey) i =
        childLo lo internal.keys.cell i := by
      unfold childLo insertCell
      split_ifs <;> first | rfl | omega
    have atHi : childHi hi (insertCell internal.keys.cell i count splitKey) (count + 1) i =
        splitKey := by
      unfold childHi insertCell
      split_ifs <;> first | rfl | omega
    rw [if_neg (by omega), if_pos rfl, sameLo, atHi]
    exact leftTree
  · rcases Nat.lt_or_eq_of_le (Nat.succ_le_of_lt after) with later | rfl
    · have old := (subtrees (i - 1) (by omega)).frame keep
      have sameLo : childLo lo (insertCell internal.keys.cell slot count splitKey) i =
          childLo lo internal.keys.cell (i - 1) := by
        unfold childLo insertCell
        split_ifs <;> first | rfl | omega
      have sameHi : childHi hi (insertCell internal.keys.cell slot count splitKey) (count + 1) i =
          childHi hi internal.keys.cell count (i - 1) := by
        unfold childHi insertCell
        split_ifs <;> first | rfl | omega
      rw [if_neg (by omega), if_neg (by omega), if_neg (by omega), sameLo, sameHi]
      exact old
    · have atLo : childLo lo (insertCell internal.keys.cell slot count splitKey) (slot + 1) =
          splitKey := by
        simp [childLo, insertCell]
      have sameHi : childHi hi (insertCell internal.keys.cell slot count splitKey) (count + 1)
          (slot + 1) = childHi hi internal.keys.cell count slot := by
        unfold childHi insertCell
        split_ifs <;> first | rfl | omega
      rw [if_neg (by omega), if_neg (by omega), if_pos rfl, atLo, sameHi]
      exact rightTree

theorem slotOf_split {keys : Nat → Nat} {count splitKey : Nat} (probe : Nat)
    (sorted : Increasing keys count) (bounded : slot ≤ count)
    (before : ∀ i, i < slot → keys i < splitKey)
    (after : ∀ i, slot ≤ i → i < count → splitKey < keys i) :
    slotOf (insertCell keys slot count splitKey) (count + 1) probe =
      if slotOf keys count probe < slot then slotOf keys count probe
      else if slotOf keys count probe = slot ∧ probe < splitKey then slot
      else slotOf keys count probe + 1 := by
  have old := isSlot_slotOf sorted probe
  generalize slotOf keys count probe = place at old ⊢
  have := old.le_count
  apply slotOf_eq
  refine ⟨by split_ifs <;> omega, fun i below => ?_, fun i above inside => ?_⟩
  · have := old.below i
    have := old.below (i - 1)
    have := old.below slot
    have := after slot
    have := after (place - 1)
    have := old.below (place - 1)
    unfold insertCell
    split_ifs at below ⊢ <;> omega
  · have := old.above i
    have := old.above (i - 1)
    have := before place
    have := old.above place
    unfold insertCell
    split_ifs at above ⊢ <;> omega

theorem between_neighbours {keys : Nat → Nat} {count splitKey lo hi : Nat}
    (sorted : Increasing keys count) (bounded : slot ≤ count)
    (low : childLo lo keys slot < splitKey) (high : splitKey < childHi hi keys count slot) :
    (∀ i, i < slot → keys i < splitKey) ∧ ∀ i, slot ≤ i → i < count → splitKey < keys i := by
  unfold childLo at low
  unfold childHi at high
  constructor
  · intro i below
    rw [if_neg (by omega)] at low
    rcases Nat.lt_or_ge i (slot - 1) with strict | last
    · have := sorted i (slot - 1) strict
      omega
    · have index : i = slot - 1 := by omega
      exact index ▸ low
  · intro i above inside
    rw [if_pos (by omega)] at high
    rcases Nat.lt_or_eq_of_le above with strict | rfl
    · exact Nat.lt_trans high (sorted slot i strict inside)
    · exact high

/-- The node above a child that came back as one node binds the key as the child does. -/
theorem internalStore_whole {middle : Device} {value childLba childWrites : Nat} {inserted : Bool}
    (frame : Extends device middle)
    (next : middle.nextFreeBlock = device.nextFreeBlock + childWrites)
    (positive : 0 < device.nextFreeBlock) (fits : middle.nextFreeBlock ≤ ramdiskBlocks)
    (bounded : count ≤ btreeMaxKeys) (sorted : Increasing internal.keys.cell count)
    (range : ∀ i, i < count → lo < internal.keys.cell i ∧ internal.keys.cell i < hi)
    (subtrees : ∀ i, i ≤ count → IsTree device height (childLo lo internal.keys.cell i)
      (childHi hi internal.keys.cell count i) (internal.children.cell i))
    (slotIs : slotOf internal.keys.cell count key = slot)
    (childTree : IsTree middle height (childLo lo internal.keys.cell slot)
      (childHi hi internal.keys.cell count slot) childLba)
    (binds : ∀ probe, childLo lo internal.keys.cell slot ≤ probe →
      probe < childHi hi internal.keys.cell count slot → treeGet middle height childLba probe =
        if probe = key then some value
        else treeGet device height (internal.children.cell slot) probe) :
    ∃ result, internalStore middle level
        { internal with children := ⟨update internal.children.cell slot childLba⟩ } count inserted =
          .ok result ∧
      StoreOutcome device (childWrites + storeWrites count) count (height + 1) lo hi
        (fun probe => if probe = key then some value else treeGet device height
          (internal.children.cell (slotOf internal.keys.cell count probe)) probe)
        inserted result := by
  obtain ⟨result, ran, outcome⟩ := internalStore_spec middle level
    { internal with children := ⟨update internal.children.cell slot childLba⟩ }
    inserted (by omega) fits (Nat.le_succ_of_le bounded) sorted range
    (subtrees_update frame subtrees childTree)
  refine ⟨result, ran, (outcome.prepend frame next).congr fun probe probeLow probeHigh => ?_⟩
  have probeSlot := isSlot_slotOf sorted probe
  by_cases here : slotOf internal.keys.cell count probe = slot
  · have probeRange := probeSlot.inRange probeLow probeHigh
    rw [here] at probeRange
    simp only [here, update_self]
    exact binds probe probeRange.1 probeRange.2
  · have other : probe ≠ key := fun equal => here (equal ▸ slotIs)
    simp only [other, if_false, update_of_ne here]
    exact (subtrees _ probeSlot.le_count).treeGet_frame frame.keepsNodes probe

/-- So does the node above a child that came back as two, with the split key as a new separator. -/
theorem internalStore_split {middle : Device} {value childLba splitKey splitLba childWrites : Nat}
    {inserted : Bool} (frame : Extends device middle)
    (next : middle.nextFreeBlock = device.nextFreeBlock + childWrites)
    (positive : 0 < device.nextFreeBlock) (fits : middle.nextFreeBlock ≤ ramdiskBlocks)
    (bounded : count ≤ btreeMaxKeys) (inside : slot ≤ count)
    (sorted : Increasing internal.keys.cell count)
    (range : ∀ i, i < count → lo < internal.keys.cell i ∧ internal.keys.cell i < hi)
    (subtrees : ∀ i, i ≤ count → IsTree device height (childLo lo internal.keys.cell i)
      (childHi hi internal.keys.cell count i) (internal.children.cell i))
    (slotIs : slotOf internal.keys.cell count key = slot)
    (low : childLo lo internal.keys.cell slot < splitKey)
    (high : splitKey < childHi hi internal.keys.cell count slot)
    (left : IsTree middle height (childLo lo internal.keys.cell slot) splitKey childLba)
    (right : IsTree middle height splitKey (childHi hi internal.keys.cell count slot) splitLba)
    (binds : ∀ probe, childLo lo internal.keys.cell slot ≤ probe →
      probe < childHi hi internal.keys.cell count slot →
        treeGet middle height (if probe < splitKey then childLba else splitLba) probe =
          if probe = key then some value
          else treeGet device height (internal.children.cell slot) probe) :
    ∃ result, internalStore middle level
        { keys := ⟨insertCell internal.keys.cell slot count splitKey⟩
          children := ⟨insertCell (update internal.children.cell slot childLba) (slot + 1)
            (count + 1) splitLba⟩ } (count + 1) inserted = .ok result ∧
      StoreOutcome device (childWrites + storeWrites (count + 1)) (count + 1) (height + 1) lo hi
        (fun probe => if probe = key then some value else treeGet device height
          (internal.children.cell (slotOf internal.keys.cell count probe)) probe)
        inserted result := by
  obtain ⟨before, after⟩ := between_neighbours sorted inside low high
  have splitRange : lo < splitKey ∧ splitKey < hi := by
    unfold childLo at low
    unfold childHi at high
    have := range (slot - 1)
    have := range slot
    split_ifs at low high <;> omega
  obtain ⟨result, ran, outcome⟩ := internalStore_spec middle level
    { keys := ⟨insertCell internal.keys.cell slot count splitKey⟩
      children := ⟨insertCell (update internal.children.cell slot childLba) (slot + 1)
        (count + 1) splitLba⟩ }
    inserted (by omega) fits (Nat.succ_le_succ bounded)
    (increasing_insertCell sorted inside before after)
    (forall_insertCell (P := fun cell => lo < cell ∧ cell < hi) inside range splitRange)
    (subtrees_split frame inside subtrees left right)
  refine ⟨result, ran, (outcome.prepend frame next).congr fun probe probeLow probeHigh => ?_⟩
  have probeSlot := isSlot_slotOf sorted probe
  have probeInside := probeSlot.le_count
  simp only [slotOf_split probe sorted inside before after]
  by_cases here : slotOf internal.keys.cell count probe = slot
  · have probeRange := probeSlot.inRange probeLow probeHigh
    rw [here] at probeRange
    have bound := binds probe probeRange.1 probeRange.2
    rw [← here] at bound ⊢
    rw [← bound, insertCell_update_children (by split_ifs <;> omega)]
    split_ifs <;> first | rfl | omega
  · have other : probe ≠ key := fun equal => here (equal ▸ slotIs)
    have framed := (subtrees _ probeInside).treeGet_frame frame.keepsNodes probe
    rw [insertCell_update_children (by split_ifs <;> omega), if_neg other, ← framed]
    split_ifs <;> first | rfl | omega

end Descent

section Leaf

variable {device : Device} {level lo hi count pos key : Nat} {leaf : LeafPayload}

/-- A leaf that holds the key is stored with its value replaced. -/
theorem leafStore_replaced (value : Nat) (positive : 0 < device.nextFreeBlock)
    (limit : device.nextFreeBlock ≤ ramdiskBlocks) (bounded : count ≤ btreeMaxKeys)
    (sorted : Increasing leaf.keys.cell count)
    (range : ∀ i, i < count → lo ≤ leaf.keys.cell i ∧ leaf.keys.cell i < hi)
    (inside : pos < count) (hit : leaf.keys.cell pos = key) :
    ∃ result, leafStore device level { leaf with values := ⟨update leaf.values.cell pos value⟩ }
        count false = .ok result ∧
      StoreOutcome device (storeWrites count) count 0 lo hi
        (fun probe => if probe = key then some value
          else cellFind leaf.keys.cell leaf.values.cell count probe) false result := by
  obtain ⟨result, ran, outcome⟩ := leafStore_spec device level
    { leaf with values := ⟨update leaf.values.cell pos value⟩ } false
    positive limit (Nat.le_succ_of_le bounded) sorted range
  refine ⟨result, ran, outcome.congr fun probe _ _ => ?_⟩
  rw [cellFind_update value probe sorted inside, hit]

/-- A leaf without the key is stored with one more entry. -/
theorem leafStore_inserted (value : Nat) (positive : 0 < device.nextFreeBlock)
    (limit : device.nextFreeBlock ≤ ramdiskBlocks) (bounded : count ≤ btreeMaxKeys)
    (sorted : Increasing leaf.keys.cell count)
    (range : ∀ i, i < count → lo ≤ leaf.keys.cell i ∧ leaf.keys.cell i < hi)
    (low : lo ≤ key) (high : key < hi) (inside : pos ≤ count)
    (before : ∀ i, i < pos → leaf.keys.cell i < key)
    (after : ∀ i, pos ≤ i → i < count → key < leaf.keys.cell i) :
    ∃ result, leafStore device level { leaf with
          keys := ⟨insertCell leaf.keys.cell pos count key⟩
          values := ⟨insertCell leaf.values.cell pos count value⟩ } (count + 1) true = .ok result ∧
      StoreOutcome device (storeWrites (count + 1)) (count + 1) 0 lo hi
        (fun probe => if probe = key then some value
          else cellFind leaf.keys.cell leaf.values.cell count probe) true result := by
  obtain ⟨result, ran, outcome⟩ := leafStore_spec device level
    { leaf with
      keys := ⟨insertCell leaf.keys.cell pos count key⟩
      values := ⟨insertCell leaf.values.cell pos count value⟩ } true
    positive limit (Nat.succ_le_succ bounded) (increasing_insertCell sorted inside before after)
    (forall_insertCell (P := fun cell => lo ≤ cell ∧ cell < hi) inside range ⟨low, high⟩)
  exact ⟨result, ran, outcome.congr fun probe _ _ =>
    cellFind_insertCell value probe sorted inside before after⟩

end Leaf

/-- `btree_insert_node` binds the key in the tree it is given, which comes back as one tree or as
two around a split key, or fails because the device is full. -/
theorem btreeInsertNode_spec {lba : Nat}
    (tree : IsTree device height lo hi lba) (fuel key value : Nat) (enough : height < fuel)
    (limit : device.nextFreeBlock ≤ ramdiskBlocks) (low : lo ≤ key) (high : key < hi) :
    ∃ result, btreeInsertNode fuel device lba key value = .ok result ∧
      StoreOutcome device (insertWrites device height lba key)
        (insertCount device height lba key) height lo hi
        (fun probe => if probe = key then some value else treeGet device height lba probe)
        (treeGet device height lba key).isNone result := by
  induction tree generalizing fuel with
  | @leaf lo hi lba level count leaf image positive allocated bounded sorted range =>
    obtain ⟨fuel, rfl⟩ : ∃ rest, fuel = rest + 1 := ⟨fuel - 1, by omega⟩
    obtain ⟨⟨pos, exact⟩, searched, found⟩ :=
      keySearch_spec leaf.keys key sorted (Nat.le_succ_of_le bounded)
    simp only [btreeInsertNode, nodeRead_eq (Nat.lt_of_lt_of_le allocated limit) image, ok_bind,
      searched, insertWrites, insertCount, treeGet_leaf image, entryCountAt_eq image]
    rcases found with ⟨rfl, inside, hit⟩ | ⟨rfl, inside, before, after⟩
    · simp only [if_true, write_eq (Nat.lt_succ_of_lt (Nat.lt_of_lt_of_le inside bounded)), ok_bind]
      have present := cellFind_some leaf.values.cell sorted inside
      simp only at hit
      rw [hit] at present
      simp only [present, Option.isSome_some, Option.isNone_some, if_true]
      exact leafStore_replaced value (by omega) limit bounded sorted range inside hit
    · simp only [Bool.false_eq_true, if_false, leafInsertAt_eq leaf key value bounded inside,
        ok_bind]
      have absent : ∀ i, i < count → leaf.keys.cell i ≠ key := fun i below => by
        rcases Nat.lt_or_ge i pos with left | right
        · exact Nat.ne_of_lt (before i left)
        · exact Nat.ne_of_gt (after i right below)
      simp only [cellFind_none absent, Option.isSome_none, Option.isNone_none, Bool.false_eq_true,
        if_false]
      exact leafStore_inserted value (by omega) limit bounded sorted range low high inside before
        after
  | @internal height lo hi lba level count internal image positive allocated bounded sorted range
      ordered subtrees ih =>
    obtain ⟨fuel, rfl⟩ : ∃ rest, fuel = rest + 1 := ⟨fuel - 1, by omega⟩
    obtain ⟨⟨pos, exact⟩, searched, found⟩ :=
      keySearch_spec internal.keys key sorted (Nat.le_succ_of_le bounded)
    have slot := found.isSlot sorted
    have slotIs := slotOf_eq slot
    have inRange := slot.inRange low high
    simp only at slot slotIs inRange
    simp only [btreeInsertNode, nodeRead_eq (Nat.lt_of_lt_of_le allocated limit) image, ok_bind,
      searched, insertWrites, insertCount, childFor_eq image, treeGet_internal image,
      entryCountAt_eq image, slotIs]
    generalize (if exact = true then pos + 1 else pos) = ci at slot slotIs inRange
    have inside := slot.le_count
    rw [read_eq (by omega), ok_bind]
    obtain ⟨⟨middle, child⟩, childRan, childOutcome⟩ :=
      ih ci inside fuel (by omega) inRange.1 inRange.2
    rw [childRan, ok_bind]
    generalize insertCount device height (internal.children.cell ci) key = childCount
      at childOutcome
    generalize insertWrites device height (internal.children.cell ci) key = childWrites
      at childOutcome
    generalize (treeGet device height (internal.children.cell ci) key).isNone = flag
      at childOutcome
    cases childOutcome with
    | failed frame short used =>
      refine ⟨_, by simp [InsertOut.failed], .failed frame ?_ used⟩
      have := storeWrites_pos (if childCount > btreeMaxKeys then count + 1 else count)
      omega
    | stored frame next fits sameFlag stored whole split =>
      subst sameFlag
      cases stored with
      | @whole childLba inserted childTree binds =>
        have childPositive : childLba ≠ 0 := Nat.ne_of_gt childTree.positive
        have small : ¬ childCount > btreeMaxKeys := by
          have := (whole rfl).1
          omega
        simp only [childPositive, if_false, small, ne_eq, not_true_eq_false,
          write_eq (show ci < btreeMaxKeys + 2 by omega), ok_bind]
        exact internalStore_whole frame next (by omega) fits bounded sorted range subtrees slotIs
          childTree binds
      | @split childLba splitKey splitLba inserted splitLow splitHigh left right binds =>
        have childPositive : childLba ≠ 0 := Nat.ne_of_gt left.positive
        have splitPositive : splitLba ≠ 0 := Nat.ne_of_gt right.positive
        have large : childCount > btreeMaxKeys := by
          have := split splitPositive
          omega
        simp only [childPositive, if_false, large, if_true, ne_eq, splitPositive,
          not_false_eq_true, write_eq (show ci < btreeMaxKeys + 2 by omega), ok_bind,
          internalInsertAt_eq _ splitKey splitLba bounded inside]
        exact internalStore_split frame next (by omega) fits bounded inside sorted range subtrees
          slotIs splitLow splitHigh left right binds

end M4KK1.Yafs
