import M4KK1.Yafs.LookupDelete

/-!
# The calls of the B+tree interface

`Represents state height bindings`: the finite map that the device and `*pRootLba` hold.
-/

namespace M4KK1.Yafs

open Lib Function

variable {device : Device} {height : Nat} {state : BtreeState} {bindings : Nat → Option Nat}

theorem IsTree.lt_of_treeGet {lo hi lba key value : Nat} (tree : IsTree device height lo hi lba)
    (bound : treeGet device height lba key = some value) : key < hi := by
  induction tree with
  | @leaf lo hi lba level count leaf image positive allocated bounded sorted range =>
    rw [treeGet_leaf image] at bound
    by_contra outside
    have absent : ∀ i, i < count → leaf.keys.cell i ≠ key := fun i inside => by
      have := (range i inside).2
      omega
    rw [cellFind_none absent] at bound
    cases bound
  | @internal height lo hi lba level count internal image positive allocated bounded sorted range
      ordered subtrees ih =>
    rw [treeGet_internal image] at bound
    have below := ih _ (isSlot_slotOf sorted key).le_count bound
    unfold childHi at below
    split at below
    · exact Nat.lt_trans below (range _ (by assumption)).2
    · exact below

theorem treeGet_everywhere {after : Device} {height' hi root root' key : Nat}
    {value : Option Nat} (old : IsTree device height 0 hi root) (inside : key < hi)
    (new : IsTree after height' 0 hi root')
    (binds : ∀ probe, 0 ≤ probe → probe < hi → treeGet after height' root' probe =
      if probe = key then value else treeGet device height root probe) :
    treeGet after height' root' = update (treeGet device height root) key value := by
  funext probe
  rw [update_apply]
  by_cases low : probe < hi
  · exact binds probe (Nat.zero_le _) low
  · have other : probe ≠ key := by omega
    have unboundOld : treeGet device height root probe = none :=
      Option.eq_none_iff_forall_ne_some.mpr fun found bound => low (old.lt_of_treeGet bound)
    have unboundNew : treeGet after height' root' probe = none :=
      Option.eq_none_iff_forall_ne_some.mpr fun found bound => low (new.lt_of_treeGet bound)
    rw [if_neg other, unboundOld, unboundNew]

/-- How the device holds a map: no tree at all, or a tree below `*pRootLba`. -/
inductive Holds (state : BtreeState) : Nat → (Nat → Option Nat) → Prop where
  | empty (noRoot : state.rootLba = 0) : Holds state 0 fun _ => none
  | tree {height hi : Nat} (isTree : IsTree state.device height 0 hi state.rootLba)
      (filled : btreeMaxKeys * height + entryCountAt state.device state.rootLba + 3 ≤
        state.device.nextFreeBlock) :
      Holds state height (treeGet state.device height state.rootLba)

/-- The device and `*pRootLba` hold the map `bindings` in a tree of height `height`. -/
structure Represents (state : BtreeState) (height : Nat) (bindings : Nat → Option Nat) : Prop where
  positive : 3 ≤ state.device.nextFreeBlock
  limit : state.device.nextFreeBlock ≤ ramdiskBlocks
  holds : Holds state height bindings

theorem Represents.shallow (rep : Represents state height bindings) : height < btreeMaxDepth := by
  have limit := rep.limit
  unfold ramdiskBlocks at limit
  unfold btreeMaxDepth
  cases rep.holds with
  | empty noRoot => omega
  | tree isTree filled =>
    unfold btreeMaxKeys at filled
    omega

/-- A lookup answers as the map does. -/
theorem Represents.lookup (rep : Represents state height bindings) (key : Nat) :
    btreeLookup state.device state.rootLba key = .ok (bindings key) := by
  have shallow := rep.shallow
  cases rep.holds with
  | empty noRoot => simp [btreeLookup, noRoot]
  | tree isTree filled =>
    exact btreeLookup_spec isTree rep.limit (by unfold btreeMaxDepth at shallow; omega) key

theorem Represents.frame {state : BtreeState} {height : Nat} {bindings : Nat → Option Nat}
    {after : Device} (rep : Represents state height bindings)
    (keeps : KeepsNodes state.device after) (limit : after.nextFreeBlock ≤ ramdiskBlocks) :
    Represents ⟨after, state.rootLba⟩ height bindings := by
  refine ⟨Nat.le_trans rep.positive keeps.next_le, limit, ?_⟩
  cases rep.holds with
  | empty noRoot => exact .empty noRoot
  | @tree height hi isTree filled =>
    have sameCount : entryCountAt after state.rootLba =
        entryCountAt state.device state.rootLba := by
      cases isTree with
      | leaf image _ allocated =>
        rw [entryCountAt_eq image, entryCountAt_eq (keeps.kept _ _ allocated image)]
      | internal image _ allocated =>
        rw [entryCountAt_eq image, entryCountAt_eq (keeps.kept _ _ allocated image)]
    have sameMap : treeGet state.device height state.rootLba =
        treeGet after height state.rootLba :=
      funext fun key => (isTree.treeGet_frame keeps key).symm
    rw [sameMap]
    refine .tree (isTree.frame keeps) ?_
    have := keeps.next_le
    simp only [sameCount]
    omega

theorem Represents.lookup_frame {after : Device} (rep : Represents state height bindings)
    (keeps : KeepsNodes state.device after) (limit : after.nextFreeBlock ≤ ramdiskBlocks)
    (key : Nat) :
    btreeLookup after state.rootLba key = btreeLookup state.device state.rootLba key := by
  rw [rep.lookup key]
  exact (rep.frame keeps limit).lookup key

/-- Whether an insert of `key` splits the root. -/
def rootSplits (state : BtreeState) (height key : Nat) : Prop :=
  state.rootLba ≠ 0 ∧ btreeMaxKeys < insertCount state.device height state.rootLba key

instance (state : BtreeState) (height key : Nat) : Decidable (rootSplits state height key) :=
  inferInstanceAs (Decidable (_ ∧ _))

/-- The blocks `mkrn_yafs_btree_insert` takes for `key`. -/
def insertCost (state : BtreeState) (height key : Nat) : Nat :=
  if state.rootLba = 0 then 1
  else insertWrites state.device height state.rootLba key +
    if rootSplits state height key then 1 else 0

/-- The height of the tree after an insert of `key`. -/
def insertHeight (state : BtreeState) (height key : Nat) : Nat :=
  if rootSplits state height key then height + 1 else height

/-- How a call of `mkrn_yafs_btree_insert` ends. -/
inductive InsertOutcome (state : BtreeState) (height : Nat) (bindings : Nat → Option Nat)
    (key value : Nat) : CallOut → Prop where
  | failed {after : Device} (frame : Extends state.device after)
      (short : ramdiskBlocks < state.device.nextFreeBlock + insertCost state height key)
      (used : after.nextFreeBlock = ramdiskBlocks) :
      InsertOutcome state height bindings key value ⟨⟨after, state.rootLba⟩, false, none⟩
  | inserted (after : BtreeState) (frame : Extends state.device after.device)
      (next : after.device.nextFreeBlock =
        state.device.nextFreeBlock + insertCost state height key)
      (rep : Represents after (insertHeight state height key)
        (update bindings key (some value)))
      (rooted : after.rootLba ≠ 0) :
      InsertOutcome state height bindings key value ⟨after, true, some (bindings key).isNone⟩

private theorem btreeInsert_empty (key value : Nat)
    (positive : 3 ≤ state.device.nextFreeBlock) (limit : state.device.nextFreeBlock ≤ ramdiskBlocks)
    (noRoot : state.rootLba = 0) :
    ∃ out, btreeInsert state key value = .ok out ∧
      InsertOutcome state 0 (fun _ => none) key value out := by
  have cost : insertCost state 0 key = 1 := if_pos noRoot
  have height : insertHeight state 0 key = 0 := if_neg fun splits => splits.1 noRoot
  simp only [btreeInsert, noRoot, if_true, CArray.write_eq (Nat.zero_lt_succ _), ok_bind]
  have written := nodeWrite_spec state.device ⟨0, 1, .leaf { emptyLeaf with
    keys := ⟨update emptyLeaf.keys.cell 0 key⟩
    values := ⟨update emptyLeaf.values.cell 0 value⟩ }⟩ (by omega)
  generalize nodeWrite state.device _ = result at written
  cases written with
  | full noBlock =>
    refine ⟨_, rfl, ?_⟩
    have same : (⟨state.device, 0⟩ : BtreeState) = ⟨state.device, state.rootLba⟩ := by rw [noRoot]
    simp only [same]
    exact .failed (.refl _) (by rw [cost]; omega) (by omega)
  | @written after room frame next image =>
    have notZero : state.device.nextFreeBlock ≠ 0 := by omega
    simp only [notZero, if_false, pure_eq_ok]
    refine ⟨_, rfl, ?_⟩
    have isTree : IsTree after 0 0 (key + 1) state.device.nextFreeBlock := by
      refine .leaf image (by omega) (by omega) (by unfold btreeMaxKeys; omega)
        (fun i j less inside => by omega) fun i inside => ?_
      obtain rfl : i = 0 := by omega
      simp
    have binds : treeGet after 0 state.device.nextFreeBlock =
        update (fun _ => none) key (some value) := by
      funext probe
      rw [treeGet_leaf image, update_apply]
      by_cases same : probe = key
      · simp [cellFind, same]
      · simp [cellFind, same, Ne.symm same]
    refine .inserted ⟨after, state.device.nextFreeBlock⟩ frame (by rw [cost]; exact next)
      ?_ notZero
    rw [height, ← binds]
    refine ⟨by simp only; omega, by simp only; omega, .tree isTree ?_⟩
    rw [entryCountAt_eq image]
    simp only
    omega

private theorem insertCount_le (device : Device) (height lba key : Nat) :
    insertCount device height lba key ≤ entryCountAt device lba + 1 := by
  cases height <;> simp only [insertCount] <;> split <;> omega

theorem insertWrites_pos (device : Device) (height lba key : Nat) :
    0 < insertWrites device height lba key := by
  cases height with
  | zero => exact storeWrites_pos _
  | succ height =>
    simp only [insertWrites]
    have := storeWrites_pos (insertCount device (height + 1) lba key)
    omega

theorem isTree_superRoot {hi lba left right splitKey : Nat}
    {internal : InternalPayload} (positive : 0 < lba) (allocated : lba < device.nextFreeBlock)
    (image : device.blocks lba = .node ⟨1, 1, .internal internal⟩)
    (key : internal.keys.cell 0 = splitKey) (first : internal.children.cell 0 = left)
    (second : internal.children.cell 1 = right) (leftBelow : left < lba) (rightBelow : right < lba)
    (low : 0 < splitKey) (high : splitKey < hi) (leftTree : IsTree device height 0 splitKey left)
    (rightTree : IsTree device height splitKey hi right) :
    IsTree device (height + 1) 0 hi lba ∧ ∀ probe, treeGet device (height + 1) lba probe =
      treeGet device height (if probe < splitKey then left else right) probe := by
  have oneKey : ∀ i, i < 1 → i = 0 := by omega
  constructor
  · refine .internal image positive allocated (by unfold btreeMaxKeys; omega)
      (fun i j less inside => by omega) (fun i inside => ?_) (fun i inside => ?_)
      fun i inside => ?_
    · rw [oneKey i inside, key]
      exact ⟨low, high⟩
    · obtain rfl | rfl : i = 0 ∨ i = 1 := by omega
      · exact first ▸ leftBelow
      · exact second ▸ rightBelow
    · obtain rfl | rfl : i = 0 ∨ i = 1 := by omega
      · simpa [childLo, childHi, key, first] using leftTree
      · simpa [childLo, childHi, key, second] using rightTree
  · intro probe
    rw [treeGet_internal image]
    simp only [slotOf, key]
    by_cases less : probe < splitKey
    · rw [if_neg (by omega), if_pos less, first]
    · rw [if_pos (by omega), if_neg less, second]

theorem btreeInsert_spec (rep : Represents state height bindings) (key value : Nat) :
    ∃ out, btreeInsert state key value = .ok out ∧
      InsertOutcome state height bindings key value out := by
  have shallow := rep.shallow
  have limit := rep.limit
  have positive := rep.positive
  cases rep.holds with
  | empty noRoot => exact btreeInsert_empty key value positive limit noRoot
  | @tree height hi isTree filled =>
    have rooted : state.rootLba ≠ 0 := Nat.ne_of_gt isTree.positive
    -- The range of the root is widened so that it covers the new key.
    have wide := isTree.widen (Nat.le_max_left hi (key + 1))
    have inside : key < max hi (key + 1) := Nat.lt_of_lt_of_le (Nat.lt_succ_self key)
      (Nat.le_max_right hi (key + 1))
    generalize max hi (key + 1) = top at wide inside
    obtain ⟨⟨middle, out⟩, ran, outcome⟩ := btreeInsertNode_spec wide (ramdiskBlocks + 1) key value
      (by unfold btreeMaxDepth at shallow; unfold ramdiskBlocks; omega) limit (Nat.zero_le _) inside
    have countLe := insertCount_le state.device height state.rootLba key
    have writesPos := insertWrites_pos state.device height state.rootLba key
    have cost : insertCost state height key =
        insertWrites state.device height state.rootLba key +
          if rootSplits state height key then 1 else 0 := if_neg rooted
    simp only [btreeInsert, rooted, if_false, ran, ok_bind]
    generalize writesIs : insertWrites state.device height state.rootLba key = writes
      at outcome cost writesPos
    cases outcome with
    | failed frame short used =>
      exact ⟨_, by simp [InsertOut.failed], .failed frame (by omega) used⟩
    | stored frame next fits flag stored whole split =>
      cases stored with
      | @whole lba inserted newTree binds =>
        have lbaPositive : lba ≠ 0 := Nat.ne_of_gt newTree.positive
        have noSplit : ¬ rootSplits state height key := fun splits => by
          have := (whole rfl).1
          exact absurd splits.2 (by omega)
        simp only [lbaPositive, if_false, ne_eq, not_true_eq_false, pure_eq_ok]
        refine ⟨_, rfl, ?_⟩
        simp only at flag
        subst flag
        refine .inserted ⟨middle, lba⟩ frame (by rw [cost, if_neg noSplit]; exact next)
          ?_ lbaPositive
        rw [insertHeight, if_neg noSplit, ← treeGet_everywhere wide inside newTree binds]
        refine ⟨by simp only; omega, fits, .tree newTree ?_⟩
        have := (whole rfl).2
        simp only at this ⊢
        omega
      | @split lba splitKey splitLba inserted low high left right binds =>
        have lbaPositive : lba ≠ 0 := Nat.ne_of_gt left.positive
        have splitPositive : splitLba ≠ 0 := Nat.ne_of_gt right.positive
        have full := split splitPositive
        have splits : rootSplits state height key := ⟨rooted, by omega⟩
        rw [if_pos splits] at cost
        simp only [lbaPositive, if_false, ne_eq, splitPositive, not_false_eq_true, if_true,
          CArray.write_eq (show 0 < btreeMaxKeys + 2 by omega),
          CArray.write_eq (show 1 < btreeMaxKeys + 2 by unfold btreeMaxKeys; omega),
          CArray.write_eq (Nat.zero_lt_succ btreeMaxKeys), ok_bind]
        have written := nodeWrite_spec middle ⟨1, 1, .internal
          { keys := ⟨update emptyInternal.keys.cell 0 splitKey⟩
            children := ⟨update (update emptyInternal.children.cell 0 lba) 1
              splitLba⟩ }⟩ (by omega)
        generalize nodeWrite middle _ = result at written
        cases written with
        | full noBlock =>
          refine ⟨_, rfl, ?_⟩
          exact .failed (frame.trans ((extends_devFreeBlock _ _).trans (extends_devFreeBlock _ _)))
            (by omega) (by simp only [devFreeBlock_next]; omega)
        | @written after room rootFrame rootNext image =>
          have notZero : middle.nextFreeBlock ≠ 0 := by omega
          have keep := rootFrame.keepsNodes
          simp only [notZero, if_false, pure_eq_ok]
          refine ⟨_, rfl, ?_⟩
          obtain ⟨newTree, newGet⟩ := isTree_superRoot (by omega) (by omega) image
            (by simp) (by simp) (by simp) left.allocated right.allocated low high
            (left.frame keep) (right.frame keep)
          have newBinds : ∀ probe, 0 ≤ probe → probe < top →
              treeGet after (height + 1) middle.nextFreeBlock probe =
                if probe = key then some value
                else treeGet state.device height state.rootLba probe := by
            intro probe probeLow probeHigh
            rw [newGet, ← binds probe probeLow probeHigh]
            split
            · exact left.treeGet_frame keep probe
            · exact right.treeGet_frame keep probe
          simp only at flag
          subst flag
          refine .inserted ⟨after, middle.nextFreeBlock⟩ (frame.trans rootFrame)
            (by rw [cost, rootNext, next]; omega) ?_ notZero
          rw [insertHeight, if_pos splits, ← treeGet_everywhere wide inside newTree newBinds]
          refine ⟨by simp only; omega, by simp only; omega, .tree newTree ?_⟩
          rw [entryCountAt_eq image]
          simp only [Nat.mul_add, Nat.mul_one]
          omega

/-- The cells after removing the entry at `pos` from the first `count` cells. -/
def removeCell (cells : Nat → Nat) (pos count index : Nat) : Nat :=
  if pos ≤ index ∧ index < pos + (count - 1 - pos) then cells (index + 1) else cells index

theorem removeCell_eq {pos count index : Nat} (cells : Nat → Nat) (inside : index < count - 1) :
    removeCell cells pos count index = if index < pos then cells index else cells (index + 1) := by
  unfold removeCell
  split_ifs <;> first | rfl | omega

theorem shiftDown_eq_removeCell {size pos count : Nat} (array : CArray Nat size)
    (inside : pos < count) (fits : count ≤ size) :
    array.shiftDown pos (count - 1 - pos) = .ok ⟨removeCell array.cell pos count⟩ :=
  CArray.shiftDown_eq array pos (count - 1 - pos) (by omega)

theorem cellFind_removeCell {keys : Nat → Nat} {count pos : Nat} (values : Nat → Nat) (probe : Nat)
    (sorted : Increasing keys count) (inside : pos < count) :
    Increasing (removeCell keys pos count) (count - 1) ∧
      cellFind (removeCell keys pos count) (removeCell values pos count) (count - 1) probe =
        if probe = keys pos then none else cellFind keys values count probe := by
  have sorted' : Increasing (removeCell keys pos count) (count - 1) := by
    intro i j less below
    rw [removeCell_eq keys (by omega), removeCell_eq keys below]
    split_ifs <;> exact sorted _ _ (by omega) (by omega)
  refine ⟨sorted', ?_⟩
  have distinct : ∀ i j, i < count → j < count → keys i = keys j → i = j := by
    intro i j low high same
    rcases Nat.lt_trichotomy i j with less | equal | greater
    · have := sorted i j less high
      omega
    · exact equal
    · have := sorted j i greater low
      omega
  by_cases present : ∃ i, i < count - 1 ∧ removeCell keys pos count i = probe
  · obtain ⟨i, below, rfl⟩ := present
    rw [cellFind_some _ sorted' below, removeCell_eq keys below, removeCell_eq values below]
    by_cases left : i < pos
    · have other : keys i ≠ keys pos := fun same => by
        have := distinct i pos (by omega) inside same
        omega
      simp only [left, if_true, other, if_false]
      rw [cellFind_some _ sorted (by omega)]
    · have other : keys (i + 1) ≠ keys pos := fun same => by
        have := distinct (i + 1) pos (by omega) inside same
        omega
      simp only [left, if_false, other]
      rw [cellFind_some _ sorted (by omega)]
  · have absent : ∀ i, i < count - 1 → removeCell keys pos count i ≠ probe := fun i below hit =>
      present ⟨i, below, hit⟩
    rw [cellFind_none absent]
    by_cases removed : probe = keys pos
    · rw [if_pos removed]
    · rw [if_neg removed, cellFind_none fun i below hit => ?_]
      rcases Nat.lt_trichotomy i pos with left | rfl | right
      · refine absent i (by omega) ?_
        rw [removeCell_eq keys (by omega), if_pos left, hit]
      · exact removed hit.symm
      · refine absent (i - 1) (by omega) ?_
        have index : i - 1 + 1 = i := by omega
        rw [removeCell_eq keys (by omega), if_neg (by omega), index, hit]

/-- How a call of `mkrn_yafs_btree_delete` ends. -/
inductive DeleteOutcome (state : BtreeState) (height : Nat) (bindings : Nat → Option Nat)
    (key : Nat) : CallOut → Prop where
  | noTree (noRoot : state.rootLba = 0) (unbound : bindings key = none) :
      DeleteOutcome state height bindings key ⟨state, false, some false⟩
  | absent (rooted : state.rootLba ≠ 0) (unbound : bindings key = none) :
      DeleteOutcome state height bindings key ⟨state, true, some false⟩
  | failed {after : Device} (rooted : state.rootLba ≠ 0) (bound : bindings key ≠ none)
      (frame : Extends state.device after)
      (short : ramdiskBlocks < state.device.nextFreeBlock + (height + 1))
      (used : after.nextFreeBlock = ramdiskBlocks) :
      DeleteOutcome state height bindings key ⟨⟨after, state.rootLba⟩, false, some false⟩
  | deleted (after : BtreeState) (bound : bindings key ≠ none)
      (frame : Extends state.device after.device)
      (next : after.device.nextFreeBlock = state.device.nextFreeBlock + (height + 1))
      (rep : Represents after height (update bindings key none))
      (rooted : after.rootLba ≠ 0) :
      DeleteOutcome state height bindings key ⟨after, true, some true⟩

/-- A delete unbinds the key or fails as a whole. -/
theorem btreeDelete_spec (rep : Represents state height bindings) (key : Nat) :
    ∃ out, btreeDelete state key = .ok out ∧ DeleteOutcome state height bindings key out := by
  have shallow := rep.shallow
  have limit := rep.limit
  have positive := rep.positive
  cases rep.holds with
  | empty noRoot => exact ⟨_, by simp [btreeDelete, noRoot], .noTree noRoot rfl⟩
  | @tree height hi isTree filled =>
    have rooted : state.rootLba ≠ 0 := Nat.ne_of_gt isTree.positive
    have wide := isTree.widen (Nat.le_max_left hi (key + 1))
    have inside : key < max hi (key + 1) := Nat.lt_of_lt_of_le (Nat.lt_succ_self key)
      (Nat.le_max_right hi (key + 1))
    generalize max hi (key + 1) = top at wide inside
    obtain ⟨way⟩ := deletePath wide key limit (Nat.zero_le _) inside
    have descended := way.descends (btreeMaxDepth + 1) [] (by omega) (by simpa using shallow)
    have rootRead : ∃ node, nodeRead state.device state.rootLba = .ok (some node) := by
      cases isTree with
      | leaf image _ allocated => exact ⟨_, nodeRead_eq (by omega) image⟩
      | internal image _ allocated => exact ⟨_, nodeRead_eq (by omega) image⟩
    obtain ⟨rootNode, rootRead⟩ := rootRead
    simp only [btreeDelete, rooted, if_false, rootRead, ok_bind, descended, List.append_nil]
    generalize leafIs : way.leafLba = leafLba
    have leafTree := way.leafTree
    rw [leafIs] at leafTree
    cases leafTree with
    | @leaf _ _ _ level count leaf image leafPositive allocated bounded sorted range =>
      rw [nodeRead_eq (by omega) image, ok_bind]
      obtain ⟨⟨pos, exact⟩, searched, found⟩ :=
        keySearch_spec leaf.keys key sorted (Nat.le_succ_of_le bounded)
      have rootGet := way.found
      rw [leafIs, treeGet_leaf image] at rootGet
      simp only [searched, ok_bind]
      rcases found with ⟨rfl, below, hit⟩ | ⟨rfl, _, before, after⟩
      · simp only at below hit
        have bound : treeGet state.device height state.rootLba key ≠ none := by
          rw [← rootGet, ← hit, cellFind_some _ sorted below]
          exact Option.some_ne_none _
        simp only [if_true, shiftDown_eq_removeCell _ below (Nat.le_succ_of_le bounded), ok_bind]
        have removed := fun probe => cellFind_removeCell leaf.values.cell probe sorted
          below
        have written := nodeWrite_spec state.device ⟨level, count - 1, .leaf { leaf with
          keys := ⟨removeCell leaf.keys.cell pos count⟩
          values := ⟨removeCell leaf.values.cell pos count⟩ }⟩ (by omega)
        generalize nodeWrite state.device _ = result at written
        cases written with
        | full noBlock =>
          exact ⟨_, rfl, .failed rooted bound (.refl _) (by omega) (Nat.le_antisymm limit noBlock)⟩
        | @written start room frame next leafImage =>
          have notZero : state.device.nextFreeBlock ≠ 0 := by omega
          simp only [notZero, if_false]
          have newLeaf : IsTree start 0 way.leafLo way.leafHi state.device.nextFreeBlock := by
            refine .leaf leafImage (by omega) (by omega) (by omega) (removed 0).1 fun i less => ?_
            simp only [removeCell_eq leaf.keys.cell less]
            split <;> exact range _ (by omega)
          have newBinds : ∀ probe, way.leafLo ≤ probe → probe < way.leafHi →
              treeGet start 0 state.device.nextFreeBlock probe =
                if probe = key then none else treeGet state.device 0 way.leafLba probe := by
            intro probe _ _
            rw [treeGet_leaf leafImage, leafIs, treeGet_leaf image, ← hit]
            exact (removed probe).2
          have climbed := way.climbs start state.device.nextFreeBlock [] frame (by omega) newLeaf
            newBinds
          rw [← List.append_nil way.path]
          cases climbed with
          | failed ran climbFrame short used =>
            rw [ran, ok_bind]
            exact ⟨_, rfl, .failed rooted bound (frame.trans climbFrame) (by omega) used⟩
          | @climbed after root ran climbFrame climbNext fits newTree binds sameCount bottom =>
            have rootPositive : root ≠ 0 := Nat.ne_of_gt newTree.positive
            rw [ran]
            simp only [deleteClimb, pure_eq_ok, ok_bind, rootPositive, if_false]
            refine ⟨_, rfl, .deleted ⟨after, root⟩ bound (frame.trans climbFrame)
              (by simp only; omega) ?_ rootPositive⟩
            rw [← treeGet_everywhere wide inside newTree binds]
            refine ⟨by simp only; omega, fits, .tree newTree ?_⟩
            have countLe : entryCountAt after root ≤
                entryCountAt state.device state.rootLba := by
              by_cases bottomCase : height = 0
              · obtain ⟨rfl, rfl⟩ := bottom bottomCase
                rw [entryCountAt_eq leafImage, ← way.atRoot bottomCase, leafIs,
                  entryCountAt_eq image]
                simp only
                omega
              · exact Nat.le_of_eq (sameCount bottomCase)
            simp only
            omega
      · simp only at before after
        have unbound : treeGet state.device height state.rootLba key = none := by
          rw [← rootGet]
          refine cellFind_none fun i below => ?_
          rcases Nat.lt_or_ge i pos with left | right
          · exact Nat.ne_of_lt (before i left)
          · exact Nat.ne_of_gt (after i right below)
        simp only [Bool.false_eq_true, if_false, pure_eq_ok]
        exact ⟨_, rfl, .absent rooted unbound⟩

end M4KK1.Yafs
