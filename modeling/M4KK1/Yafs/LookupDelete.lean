import M4KK1.Yafs.Insert

/-!
# What lookup and delete do to a search tree

Block numbers decrease on the way down, so the guard never fires; `deletePath` is the climb.
-/

namespace M4KK1.Yafs

open Lib Function List

variable {device : Device}

private theorem btreeLookupLoop_spec {height lo hi lba : Nat}
    (tree : IsTree device height lo hi lba) (fuel key : Nat) (seen : List Nat)
    (limit : device.nextFreeBlock ≤ ramdiskBlocks) (enough : height < fuel)
    (shallow : seen.length + height < 64) (descending : ∀ visited ∈ seen, lba < visited) :
    btreeLookupLoop device key fuel seen lba = .ok (treeGet device height lba key) := by
  induction tree generalizing fuel seen with
  | @leaf lo hi lba level count leaf image positive allocated bounded sorted range =>
    obtain ⟨fuel, rfl⟩ : ∃ rest, fuel = rest + 1 := ⟨fuel - 1, by omega⟩
    have unvisited : ¬ (lba ∈ seen ∨ seen.length ≥ 64) := by
      rintro (visited | deep)
      · exact Nat.lt_irrefl _ (descending _ visited)
      · omega
    obtain ⟨⟨pos, exact⟩, searched, found⟩ :=
      keySearch_spec leaf.keys key sorted (Nat.le_succ_of_le bounded)
    simp only [btreeLookupLoop, unvisited, if_false,
      nodeRead_eq (Nat.lt_of_lt_of_le allocated limit) image, ok_bind, searched,
      treeGet_leaf image]
    rcases found with ⟨rfl, inside, hit⟩ | ⟨rfl, _, before, after⟩
    · simp only at inside hit
      subst hit
      rw [if_pos rfl, CArray.read_eq (by omega), ok_bind, cellFind_some _ sorted inside, pure_eq_ok]
    · simp only at before after
      rw [if_neg Bool.false_ne_true, pure_eq_ok, cellFind_none fun i below => ?_]
      rcases Nat.lt_or_ge i pos with left | right
      · exact Nat.ne_of_lt (before i left)
      · exact Nat.ne_of_gt (after i right below)
  | @internal height lo hi lba level count internal image positive allocated bounded sorted range
      ordered subtrees ih =>
    obtain ⟨fuel, rfl⟩ : ∃ rest, fuel = rest + 1 := ⟨fuel - 1, by omega⟩
    have unvisited : ¬ (lba ∈ seen ∨ seen.length ≥ 64) := by
      rintro (visited | deep)
      · exact Nat.lt_irrefl _ (descending _ visited)
      · omega
    obtain ⟨⟨pos, exact⟩, searched, found⟩ :=
      keySearch_spec internal.keys key sorted (Nat.le_succ_of_le bounded)
    have slot := found.isSlot sorted
    have inside := slot.le_count
    simp only at slot inside
    simp only [btreeLookupLoop, unvisited, if_false,
      nodeRead_eq (Nat.lt_of_lt_of_le allocated limit) image, ok_bind, searched,
      treeGet_internal image, slotOf_eq slot]
    rw [CArray.read_eq (by omega), ok_bind]
    refine ih _ inside fuel (lba :: seen) (by omega) (by simp only [length_cons]; omega) ?_
    intro visited member
    have child := ordered _ inside
    rcases mem_cons.mp member with rfl | older
    · exact child
    · exact Nat.lt_trans child (descending visited older)

/-- In a tree the lookup finds what `treeGet` binds. -/
theorem btreeLookup_spec {height lo hi root : Nat}
    (tree : IsTree device height lo hi root) (limit : device.nextFreeBlock ≤ ramdiskBlocks)
    (shallow : height < 64) (key : Nat) :
    btreeLookup device root key = .ok (treeGet device height root key) := by
  have present : root ≠ 0 := Nat.ne_of_gt tree.positive
  simp only [btreeLookup, present, if_false]
  exact btreeLookupLoop_spec tree 65 key [] limit (by omega) (by simpa using shallow) (by simp)

/-- The climb runs out of blocks or leaves the tree that differs in the leaf only. -/
inductive Climbed (device : Device) (height lo hi lba : Nat) (get : Nat → Option Nat)
    (start : Device) (path rest : List (Nat × Nat)) (child : Nat) : Prop where
  | failed {after : Device} (ran : deleteClimb start (path ++ rest) child = .ok (after, 0))
      (frame : Extends start after)
      (short : ramdiskBlocks < start.nextFreeBlock + height)
      (used : after.nextFreeBlock = ramdiskBlocks)
  | climbed {after : Device} {root : Nat}
      (ran : deleteClimb start (path ++ rest) child = deleteClimb after rest root)
      (frame : Extends start after) (next : after.nextFreeBlock = start.nextFreeBlock + height)
      (limit : after.nextFreeBlock ≤ ramdiskBlocks) (tree : IsTree after height lo hi root)
      (binds : ∀ key, lo ≤ key → key < hi → treeGet after height root key = get key)
      (count : height ≠ 0 → entryCountAt after root = entryCountAt device lba)
      (bottom : height = 0 → after = start ∧ root = child)

/-- The way of a delete to the leaf of `key`, with the climb back. -/
structure DeletePath (device : Device) (height lo hi lba key : Nat) where
  leafLba : Nat
  path : List (Nat × Nat)
  leafLo : Nat
  leafHi : Nat
  leafTree : IsTree device 0 leafLo leafHi leafLba
  low : leafLo ≤ key
  high : key < leafHi
  found : treeGet device 0 leafLba key = treeGet device height lba key
  atRoot : height = 0 → leafLba = lba
  descends : ∀ (fuel : Nat) (rest : List (Nat × Nat)), height < fuel →
    rest.length + height < btreeMaxDepth →
    deleteDescend device key fuel rest lba = .ok (some (leafLba, path ++ rest))
  climbs : ∀ (start : Device) (child : Nat) (rest : List (Nat × Nat)), Extends device start →
    start.nextFreeBlock ≤ ramdiskBlocks → IsTree start 0 leafLo leafHi child →
    (∀ probe, leafLo ≤ probe → probe < leafHi → treeGet start 0 child probe =
      if probe = key then none else treeGet device 0 leafLba probe) →
    Climbed device height lo hi lba
      (fun probe => if probe = key then none else treeGet device height lba probe)
      start path rest child

/-- The path of a delete exists in every tree. -/
theorem deletePath {height lo hi lba : Nat} (tree : IsTree device height lo hi lba) (key : Nat)
    (limit : device.nextFreeBlock ≤ ramdiskBlocks) (low : lo ≤ key) (high : key < hi) :
    Nonempty (DeletePath device height lo hi lba key) := by
  induction tree with
  | @leaf lo hi lba level count leaf image positive allocated bounded sorted range =>
    refine ⟨⟨lba, [], lo, hi, .leaf image positive allocated bounded sorted range, low, high, rfl,
      fun _ => rfl, fun fuel rest enough _ => ?_, fun start child rest frame fits childTree binds =>
      ?_⟩⟩
    · obtain ⟨fuel, rfl⟩ : ∃ less, fuel = less + 1 := ⟨fuel - 1, by omega⟩
      simp only [deleteDescend, nodeRead_eq (Nat.lt_of_lt_of_le allocated limit) image, ok_bind,
        pure_eq_ok, nil_append]
    · exact .climbed (by rw [nil_append]) (.refl start) rfl fits childTree binds
        (fun notLeaf => absurd rfl notLeaf) fun _ => ⟨rfl, rfl⟩
  | @internal height lo hi lba level count internal image positive allocated bounded sorted range
      ordered subtrees ih =>
    obtain ⟨⟨pos, exact⟩, searched, result⟩ :=
      keySearch_spec internal.keys key sorted (Nat.le_succ_of_le bounded)
    have slot := result.isSlot sorted
    have slotIs := slotOf_eq slot
    have inRange := slot.inRange low high
    simp only at slot slotIs inRange
    generalize ciIs : (if exact = true then pos + 1 else pos) = ci at slot slotIs inRange
    have inside := slot.le_count
    obtain ⟨below⟩ := ih ci inside inRange.1 inRange.2
    refine ⟨⟨below.leafLba, below.path ++ [(lba, ci)], below.leafLo, below.leafHi, below.leafTree,
      below.low, below.high, ?_, by omega, fun fuel rest enough shallow => ?_,
      fun start child rest frame fits childTree binds => ?_⟩⟩
    · rw [below.found, treeGet_internal image, slotIs]
    · obtain ⟨fuel, rfl⟩ : ∃ less, fuel = less + 1 := ⟨fuel - 1, by omega⟩
      have notDeep : ¬ rest.length + 1 ≥ btreeMaxDepth := by omega
      simp only [deleteDescend, nodeRead_eq (Nat.lt_of_lt_of_le allocated limit) image, ok_bind,
        searched, ciIs]
      rw [CArray.read_eq (by omega), ok_bind, if_neg notDeep,
        below.descends fuel ((lba, ci) :: rest) (by omega)
          (by simp only [length_cons]; omega), append_assoc, singleton_append]
    · have climbed := below.climbs start child ((lba, ci) :: rest) frame fits childTree binds
      cases climbed with
      | @failed after ran laterFrame short used =>
        exact .failed (by simpa using ran) laterFrame (by omega) used
      | @climbed middle childRoot ran childFrame childNext childFits newChild childBinds _ _ =>
        have fullFrame := frame.trans childFrame
        have readBack := nodeRead_eq (Nat.lt_of_lt_of_le allocated limit)
          (fullFrame.keepsNodes.kept _ _ allocated image)
        have middlePositive : 0 < middle.nextFreeBlock := by
          have := newChild.allocated
          omega
        have written := nodeWrite_spec middle ⟨level, count, .internal
          { internal with children := ⟨update internal.children.cell ci childRoot⟩ }⟩
          middlePositive
        have climbStep : deleteClimb start (below.path ++ [(lba, ci)] ++ rest) child =
            (let out := nodeWrite middle ⟨level, count, .internal
              { internal with children := ⟨update internal.children.cell ci childRoot⟩ }⟩
             if out.2 = 0 then .ok (devFreeBlock out.1 childRoot, 0)
             else deleteClimb out.1 rest out.2) := by
          rw [append_assoc, singleton_append, ran, deleteClimb, readBack, ok_bind]
          simp only [CArray.write_eq (show ci < btreeMaxKeys + 2 by omega), ok_bind, pure_eq_ok]
        generalize nodeWrite middle ⟨level, count, .internal
          { internal with children := ⟨update internal.children.cell ci childRoot⟩ }⟩ =
          outcome at written climbStep
        cases written with
        | full noBlock =>
          dsimp only at climbStep
          refine .failed (climbStep.trans (if_pos rfl))
            (childFrame.trans (extends_devFreeBlock middle childRoot)) (by omega)
            (by rw [devFreeBlock_next]; omega)
        | @written after room parentFrame parentNext parentImage =>
          dsimp only at climbStep
          have keep := (fullFrame.trans parentFrame).keepsNodes
          have notZero : middle.nextFreeBlock ≠ 0 := by omega
          have children := subtrees_update fullFrame subtrees newChild
          have newTree : IsTree after (height + 1) lo hi middle.nextFreeBlock := by
            refine .internal parentImage middlePositive (by omega) bounded sorted range
              (fun i below => (children i below).allocated)
              fun i below => (children i below).frame parentFrame.keepsNodes
          refine .climbed (climbStep.trans (if_neg notZero)) (childFrame.trans parentFrame)
            (by omega) (by omega) newTree (fun probe probeLow probeHigh => ?_)
            (fun _ => by rw [entryCountAt_eq parentImage, entryCountAt_eq image]) (by omega)
          have probeSlot := isSlot_slotOf sorted probe
          rw [treeGet_internal parentImage, treeGet_internal image,
            (children _ probeSlot.le_count).treeGet_frame parentFrame.keepsNodes]
          by_cases here : slotOf internal.keys.cell count probe = ci
          · have probeRange := probeSlot.inRange probeLow probeHigh
            rw [here] at probeRange ⊢
            rw [update_self, childBinds probe probeRange.1 probeRange.2]
          · have other : probe ≠ key := fun equal => here (equal ▸ slotIs)
            rw [update_of_ne here, if_neg other,
              (subtrees _ probeSlot.le_count).treeGet_frame fullFrame.keepsNodes]

end M4KK1.Yafs
