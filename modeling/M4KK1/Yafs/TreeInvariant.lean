import M4KK1.Yafs.Btree

/-!
# Search trees on the device

`IsTree device height lo hi lba`; `Extends` and `KeepsNodes` are the frames.
-/

namespace M4KK1.Yafs

open Lib

/-- The first `count` cells increase strictly. -/
def Increasing (keys : Nat → Nat) (count : Nat) : Prop :=
  ∀ i j, i < j → j < count → keys i < keys j

/-- `slot` is the child that a descent for `key` takes. -/
structure IsSlot (keys : Nat → Nat) (count key slot : Nat) : Prop where
  le_count : slot ≤ count
  below : ∀ i, i < slot → keys i ≤ key
  above : ∀ i, slot ≤ i → i < count → key < keys i

/-- The slot of `key` among the first `count` separators. -/
def slotOf (keys : Nat → Nat) : Nat → Nat → Nat
  | 0, _ => 0
  | count + 1, key => if keys count ≤ key then count + 1 else slotOf keys count key

/-- The value stored beside `key` in the first `count` cells. -/
def cellFind (keys values : Nat → Nat) : Nat → Nat → Option Nat
  | 0, _ => none
  | count + 1, key =>
    if keys count = key then some (values count) else cellFind keys values count key

variable {keys : Nat → Nat} {count key : Nat} {device : Device} {lba height lo hi : Nat}

theorem slotOf_eq {slot : Nat} (isSlot : IsSlot keys count key slot) :
    slotOf keys count key = slot := by
  induction count with
  | zero =>
    have := isSlot.le_count
    simp [slotOf]
    omega
  | succ count ih =>
    by_cases last : keys count ≤ key
    · have notAbove : ¬ slot ≤ count := fun low => by
        have := isSlot.above count low (by omega)
        omega
      have := isSlot.le_count
      simp only [slotOf, last, if_true]
      omega
    · have low : slot ≤ count := by
        by_contra high
        have := isSlot.below count (by omega)
        omega
      simp only [slotOf, last, if_false]
      exact ih ⟨low, isSlot.below, fun i above inside => isSlot.above i above (by omega)⟩

theorem isSlot_slotOf (sorted : Increasing keys count)
    (key : Nat) : IsSlot keys count key (slotOf keys count key) := by
  induction count with
  | zero => exact ⟨Nat.le_refl 0, by simp [slotOf], by omega⟩
  | succ count ih =>
    have prior := ih fun i j less inside => sorted i j less (by omega)
    by_cases last : keys count ≤ key
    · simp only [slotOf, last, if_true]
      refine ⟨Nat.le_refl _, fun i inside => ?_, by omega⟩
      rcases Nat.lt_succ_iff_lt_or_eq.mp inside with before | rfl
      · have := sorted i count before (by omega)
        omega
      · exact last
    · simp only [slotOf, last, if_false]
      refine ⟨by have := prior.le_count; omega, prior.below, fun i above inside => ?_⟩
      rcases Nat.lt_succ_iff_lt_or_eq.mp inside with before | rfl
      · exact prior.above i above before
      · omega

theorem cellFind_none {values : Nat → Nat}
    (absent : ∀ i, i < count → keys i ≠ key) : cellFind keys values count key = none := by
  induction count with
  | zero => rfl
  | succ count ih =>
    simp only [cellFind, absent count (by omega), if_false]
    exact ih fun i inside => absent i (by omega)

theorem cellFind_some {index : Nat} (values : Nat → Nat)
    (sorted : Increasing keys count) (inside : index < count) :
    cellFind keys values count (keys index) = some (values index) := by
  induction count with
  | zero => omega
  | succ count ih =>
    rcases Nat.lt_succ_iff_lt_or_eq.mp inside with before | rfl
    · have := sorted index count before (by omega)
      have differ : keys count ≠ keys index := by omega
      simp only [cellFind, differ, if_false]
      exact ih (fun i j less below => sorted i j less (by omega)) before
    · simp [cellFind]

/-- What the result `(pos, exact)` of `key_search` says about sorted cells. -/
def SearchResult (keys : Nat → Nat) (count key : Nat) (found : Nat × Bool) : Prop :=
  (found.2 = true ∧ found.1 < count ∧ keys found.1 = key) ∨
  (found.2 = false ∧ found.1 ≤ count ∧ (∀ i, i < found.1 → keys i < key) ∧
    ∀ i, found.1 ≤ i → i < count → key < keys i)

private theorem keySearchLoop_spec {size : Nat} (keys : CArray Nat size)
    (sorted : Increasing keys.cell count) (fits : count ≤ size) (fuel : Nat) (lo hi : Int)
    (loNonneg : 0 ≤ lo) (loBound : lo ≤ hi + 1) (hiBound : hi < count)
    (enough : hi + 1 - lo < fuel)
    (before : ∀ i : Nat, (i : Int) < lo → keys.cell i < key)
    (after : ∀ i : Nat, hi < (i : Int) → i < count → key < keys.cell i) :
    ∃ found, keySearchLoop keys key fuel lo hi = .ok found ∧
      SearchResult keys.cell count key found := by
  induction fuel generalizing lo hi with
  | zero => omega
  | succ fuel ih =>
    by_cases more : lo ≤ hi
    · have midLow : lo ≤ lo + (hi - lo) / 2 := by omega
      have midHigh : lo + (hi - lo) / 2 ≤ hi := by omega
      simp only [keySearchLoop, if_pos more]
      generalize lo + (hi - lo) / 2 = mid at midLow midHigh
      have midInside : mid.toNat < count := by omega
      rw [CArray.read_eq (by omega), ok_bind]
      by_cases hit : keys.cell mid.toNat = key
      · simp only [hit, if_true, pure_eq_ok]
        exact ⟨_, rfl, Or.inl ⟨rfl, midInside, hit⟩⟩
      · by_cases less : keys.cell mid.toNat < key
        · simp only [hit, less, if_false, if_true]
          refine ih (mid + 1) hi (by omega) (by omega) hiBound (by omega) (fun i below => ?_) after
          rcases Nat.lt_or_ge i mid.toNat with lower | same
          · exact Nat.lt_trans (sorted i mid.toNat lower midInside) less
          · have atMid : i = mid.toNat := by omega
            exact atMid ▸ less
        · simp only [hit, less, if_false]
          refine ih lo (mid - 1) loNonneg (by omega) (by omega) (by omega) before
            (fun i above inside => ?_)
          have greater : key < keys.cell mid.toNat := by omega
          rcases Nat.lt_or_ge mid.toNat i with higher | same
          · exact Nat.lt_trans greater (sorted mid.toNat i higher inside)
          · have atMid : i = mid.toNat := by omega
            exact atMid ▸ greater
    · simp only [keySearchLoop, if_neg more, pure_eq_ok]
      refine ⟨_, rfl,
        Or.inr ⟨rfl, by simp only; omega, fun i below => ?_, fun i above inside => ?_⟩⟩
      · exact before i (by simp only at below; omega)
      · exact after i (by simp only at above; omega) inside

theorem keySearch_spec {size : Nat} (keys : CArray Nat size) (key : Nat)
    (sorted : Increasing keys.cell count) (fits : count ≤ size) :
    ∃ found, keySearch keys count key = .ok found ∧ SearchResult keys.cell count key found := by
  refine keySearchLoop_spec keys sorted fits (count + 1) 0 (count - 1) (Int.le_refl 0) (by omega)
    (by omega) (by omega) (fun i below => by omega) (fun i above inside => by omega)

theorem SearchResult.isSlot {found : Nat × Bool}
    (sorted : Increasing keys count) (result : SearchResult keys count key found) :
    IsSlot keys count key (if found.2 = true then found.1 + 1 else found.1) := by
  rcases result with ⟨exact, inside, hit⟩ | ⟨inexact, bounded, before, after⟩
  · simp only [exact, if_true]
    refine ⟨inside, fun i below => ?_, fun i above bound => ?_⟩
    · rcases Nat.lt_succ_iff_lt_or_eq.mp below with lower | rfl
      · exact hit ▸ Nat.le_of_lt (sorted i found.1 lower inside)
      · exact Nat.le_of_eq hit
    · exact hit ▸ sorted found.1 i above bound
  · simp only [inexact, Bool.false_eq_true, if_false]
    exact ⟨bounded, fun i below => Nat.le_of_lt (before i below), after⟩

/-- The lower end of the keys below `children[index]`. -/
def childLo (lo : Nat) (keys : Nat → Nat) (index : Nat) : Nat :=
  if index = 0 then lo else keys (index - 1)

/-- The upper end of the keys below `children[index]`. -/
def childHi (hi : Nat) (keys : Nat → Nat) (count index : Nat) : Nat :=
  if index < count then keys index else hi

/-- Block `lba` roots a search tree of height `height` with keys in `[lo, hi)`. -/
inductive IsTree (device : Device) : Nat → Nat → Nat → Nat → Prop where
  | leaf {lo hi lba level count : Nat} {leaf : LeafPayload}
      (image : device.blocks lba = .node ⟨level, count, .leaf leaf⟩)
      (positive : 0 < lba) (allocated : lba < device.nextFreeBlock)
      (bounded : count ≤ btreeMaxKeys) (sorted : Increasing leaf.keys.cell count)
      (range : ∀ i, i < count → lo ≤ leaf.keys.cell i ∧ leaf.keys.cell i < hi) :
      IsTree device 0 lo hi lba
  | internal {height lo hi lba level count : Nat} {internal : InternalPayload}
      (image : device.blocks lba = .node ⟨level, count, .internal internal⟩)
      (positive : 0 < lba) (allocated : lba < device.nextFreeBlock)
      (bounded : count ≤ btreeMaxKeys) (sorted : Increasing internal.keys.cell count)
      (range : ∀ i, i < count → lo < internal.keys.cell i ∧ internal.keys.cell i < hi)
      (ordered : ∀ i, i ≤ count → internal.children.cell i < lba)
      (subtrees : ∀ i, i ≤ count → IsTree device height (childLo lo internal.keys.cell i)
        (childHi hi internal.keys.cell count i) (internal.children.cell i)) :
      IsTree device (height + 1) lo hi lba

/-- The value a tree of the given height binds to `key`. -/
def treeGet (device : Device) : Nat → Nat → Nat → Option Nat
  | 0, lba, key =>
    match device.blocks lba with
    | .node ⟨_, count, .leaf leaf⟩ => cellFind leaf.keys.cell leaf.values.cell count key
    | _ => none
  | height + 1, lba, key =>
    match device.blocks lba with
    | .node ⟨_, count, .internal internal⟩ =>
      treeGet device height (internal.children.cell (slotOf internal.keys.cell count key)) key
    | _ => none

theorem treeGet_leaf {level : Nat} {leaf : LeafPayload}
    (image : device.blocks lba = .node ⟨level, count, .leaf leaf⟩) (key : Nat) :
    treeGet device 0 lba key = cellFind leaf.keys.cell leaf.values.cell count key := by
  simp [treeGet, image]

theorem treeGet_internal {level : Nat} {internal : InternalPayload}
    (image : device.blocks lba = .node ⟨level, count, .internal internal⟩) (height key : Nat) :
    treeGet device (height + 1) lba key =
      treeGet device height (internal.children.cell (slotOf internal.keys.cell count key)) key := by
  simp [treeGet, image]

theorem IsTree.positive (tree : IsTree device height lo hi lba) : 0 < lba := by
  cases tree <;> assumption

theorem IsTree.allocated (tree : IsTree device height lo hi lba) : lba < device.nextFreeBlock := by
  cases tree <;> assumption

theorem IsSlot.inRange {slot : Nat}
    (isSlot : IsSlot keys count key slot) (low : lo ≤ key) (high : key < hi) :
    childLo lo keys slot ≤ key ∧ key < childHi hi keys count slot := by
  unfold childLo childHi
  constructor
  · split
    · exact low
    · exact isSlot.below _ (by omega)
  · split
    · exact isSlot.above _ (Nat.le_refl _) (by assumption)
    · exact high

/-- Every block handed out so far keeps its contents. -/
structure Extends (before after : Device) : Prop where
  next_le : before.nextFreeBlock ≤ after.nextFreeBlock
  kept : ∀ lba, lba < before.nextFreeBlock → after.blocks lba = before.blocks lba

/-- Every tree node handed out so far keeps its contents. -/
structure KeepsNodes (before after : Device) : Prop where
  next_le : before.nextFreeBlock ≤ after.nextFreeBlock
  kept : ∀ lba node, lba < before.nextFreeBlock → before.blocks lba = .node node →
    after.blocks lba = .node node

theorem Extends.refl (device : Device) : Extends device device :=
  ⟨Nat.le_refl _, fun _ _ => rfl⟩

theorem Extends.trans {first second third : Device} (left : Extends first second)
    (right : Extends second third) : Extends first third :=
  ⟨Nat.le_trans left.next_le right.next_le, fun lba allocated =>
    (right.kept lba (Nat.lt_of_lt_of_le allocated left.next_le)).trans (left.kept lba allocated)⟩

theorem Extends.keepsNodes {before after : Device} (frame : Extends before after) :
    KeepsNodes before after :=
  ⟨frame.next_le, fun lba _ allocated image => (frame.kept lba allocated).trans image⟩

theorem IsTree.frame {before after : Device} {height lo hi lba : Nat}
    (keeps : KeepsNodes before after) (tree : IsTree before height lo hi lba) :
    IsTree after height lo hi lba := by
  induction tree with
  | leaf image positive allocated bounded sorted range =>
    exact .leaf (keeps.kept _ _ allocated image) positive
      (Nat.lt_of_lt_of_le allocated keeps.next_le) bounded sorted range
  | internal image positive allocated bounded sorted range ordered _ ih =>
    exact .internal (keeps.kept _ _ allocated image) positive
      (Nat.lt_of_lt_of_le allocated keeps.next_le) bounded sorted range ordered ih

theorem IsTree.treeGet_frame {before after : Device} (keeps : KeepsNodes before after)
    (tree : IsTree before height lo hi lba) (key : Nat) :
    treeGet after height lba key = treeGet before height lba key := by
  induction tree with
  | leaf image _ allocated =>
    rw [treeGet_leaf image, treeGet_leaf (keeps.kept _ _ allocated image)]
  | internal image _ allocated _ sorted _ _ _ ih =>
    rw [treeGet_internal image, treeGet_internal (keeps.kept _ _ allocated image)]
    exact ih _ (isSlot_slotOf sorted key).le_count

theorem IsTree.widen {hi' : Nat} (wider : hi ≤ hi')
    (tree : IsTree device height lo hi lba) : IsTree device height lo hi' lba := by
  induction tree generalizing hi' with
  | leaf image positive allocated bounded sorted range =>
    exact .leaf image positive allocated bounded sorted fun i inside =>
      ⟨(range i inside).1, Nat.lt_of_lt_of_le (range i inside).2 wider⟩
  | @internal height lo hi lba level count internal image positive allocated bounded sorted range
      ordered subtrees ih =>
    refine .internal image positive allocated bounded sorted
      (fun i inside => ⟨(range i inside).1, Nat.lt_of_lt_of_le (range i inside).2 wider⟩) ordered
      fun i inside => ih i inside ?_
    unfold childHi
    split
    · exact Nat.le_refl _
    · exact wider

theorem nodeRead_eq {node : Node}
    (onDevice : lba < ramdiskBlocks) (image : device.blocks lba = .node node) :
    nodeRead device lba = .ok (some node) := by
  have readable : ¬ lba ≥ ramdiskBlocks := Nat.not_le_of_lt onDevice
  simp [nodeRead, devRead, readable, image, Block.asNode]

/-- What `mkrn_yafs_node_write` does: it takes the next free block, or returns 0
on a full device. -/
inductive NodeWritten (device : Device) (node : Node) : Device × Nat → Prop where
  | full (noBlock : ramdiskBlocks ≤ device.nextFreeBlock) : NodeWritten device node (device, 0)
  | written {after : Device} (room : device.nextFreeBlock < ramdiskBlocks)
      (frame : Extends device after)
      (next : after.nextFreeBlock = device.nextFreeBlock + 1)
      (image : after.blocks device.nextFreeBlock = .node node) :
      NodeWritten device node (after, device.nextFreeBlock)

/-- A node is written to a new block, or the device is full. -/
theorem nodeWrite_spec (device : Device) (node : Node) (positive : 0 < device.nextFreeBlock) :
    NodeWritten device node (nodeWrite device node) := by
  by_cases full : device.nextFreeBlock ≥ ramdiskBlocks
  · simpa [nodeWrite, devAllocBlock, full] using NodeWritten.full full
  · have notZero : device.nextFreeBlock ≠ 0 := by omega
    simp only [nodeWrite, devAllocBlock, full, if_false, notZero, devWrite]
    refine .written (by omega) ⟨by simp, fun lba allocated => ?_⟩ rfl (by simp)
    have other : lba ≠ device.nextFreeBlock := by omega
    simp [Function.update_of_ne other]

end M4KK1.Yafs
