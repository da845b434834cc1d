import M4KK1.Lib.Run
import M4KK1.Yafs.BtreeCalls

/-!
# Runs of the B+tree

Every run refines a finite map, and never changes what an earlier root reads.
-/

namespace M4KK1.Yafs

open Lib Function

/-- One call of the B+tree interface that may change the tree. -/
inductive Op where
  | insert (key value : Nat)
  | delete (key : Nat)

/-- The call an operation makes. -/
def runOp (state : BtreeState) : Op → Except Fault CallOut
  | .insert key value => btreeInsert state key value
  | .delete key => btreeDelete state key

/-- An operation with what the call left behind. -/
structure Call where
  op : Op
  out : CallOut

/-- The call returns its result and leaves this state. -/
def CallStep (before : BtreeState) (call : Call) (after : BtreeState) : Prop :=
  runOp before call.op = .ok call.out ∧ after = call.out.state

/-- The empty tree over a ramdisk that holds whatever the memory held. -/
def Empty (state : BtreeState) : Prop :=
  state.rootLba = 0 ∧ state.device.nextFreeBlock = 3

/-- The call returned -1 and the device has no block left. -/
def OutOfBlocks (call : Call) : Prop :=
  call.out.ok = false ∧ ramdiskBlocks ≤ call.out.state.device.nextFreeBlock

/-- An operation on the finite map: inserts overwrite. -/
def applyOp (bindings : Nat → Option Nat) : Op → Nat → Option Nat
  | .insert key value => update bindings key (some value)
  | .delete key => update bindings key none

/-- The state holds `bindings` in a tree of some height. -/
def HoldsMap (state : BtreeState) (bindings : Nat → Option Nat) : Prop :=
  ∃ height, Represents state height bindings

variable {state : BtreeState} {height : Nat} {bindings : Nat → Option Nat} {device : Device}

theorem Empty.holdsMap (empty : Empty state) : HoldsMap state fun _ => none :=
  ⟨0, by have := empty.2; omega, by have := empty.2; unfold ramdiskBlocks; omega, .empty empty.1⟩

theorem Represents.holdsMap (rep : Represents state height bindings) : HoldsMap state bindings :=
    ⟨height, rep⟩

theorem runOp_spec (held : HoldsMap state bindings) (op : Op) :
    ∃ out, runOp state op = .ok out ∧ Extends state.device out.state.device ∧
      out.state.device.nextFreeBlock ≤ ramdiskBlocks ∧
      (¬ OutOfBlocks ⟨op, out⟩ → HoldsMap out.state (applyOp bindings op)) ∧
      (out.ok = false → out.state.rootLba = state.rootLba ∧ HoldsMap out.state bindings) := by
  obtain ⟨height, rep⟩ := held
  cases op with
  | insert key value =>
    obtain ⟨out, ran, outcome⟩ := btreeInsert_spec rep key value
    refine ⟨out, ran, ?_⟩
    cases outcome with
    | failed frame short used =>
      refine ⟨frame, Nat.le_of_eq used, fun supplied => ?_, fun _ => ⟨rfl, ?_⟩⟩
      · exact absurd ⟨rfl, Nat.le_of_eq used.symm⟩ supplied
      · exact (rep.frame frame.keepsNodes (Nat.le_of_eq used)).holdsMap
    | inserted after frame next newRep rooted =>
      exact ⟨frame, newRep.limit, fun _ => newRep.holdsMap, fun failed => by cases failed⟩
  | delete key =>
    obtain ⟨out, ran, outcome⟩ := btreeDelete_spec rep key
    refine ⟨out, ran, ?_⟩
    have unchanged : bindings key = none → applyOp bindings (.delete key) = bindings :=
      fun unbound => by simp only [applyOp, ← unbound, update_eq_self]
    cases outcome with
    | noTree noRoot unbound =>
      refine ⟨.refl _, rep.limit, fun _ => ?_, fun _ => ⟨rfl, rep.holdsMap⟩⟩
      rw [unchanged unbound]
      exact rep.holdsMap
    | absent rooted unbound =>
      refine ⟨.refl _, rep.limit, fun _ => ?_, fun _ => ⟨rfl, rep.holdsMap⟩⟩
      rw [unchanged unbound]
      exact rep.holdsMap
    | failed rooted bound frame short used =>
      refine ⟨frame, Nat.le_of_eq used, fun supplied => ?_, fun _ => ⟨rfl, ?_⟩⟩
      · exact absurd ⟨rfl, Nat.le_of_eq used.symm⟩ supplied
      · exact (rep.frame frame.keepsNodes (Nat.le_of_eq used)).holdsMap
    | deleted after bound frame next newRep rooted =>
      exact ⟨frame, newRep.limit, fun _ => newRep.holdsMap, fun failed => by cases failed⟩

theorem CallStep.spec {before after : BtreeState} {call : Call} (held : HoldsMap before bindings)
    (step : CallStep before call after) :
    Extends before.device after.device ∧ after.device.nextFreeBlock ≤ ramdiskBlocks ∧
      (¬ OutOfBlocks call → HoldsMap after (applyOp bindings call.op)) ∧
      (call.out.ok = false → after.rootLba = before.rootLba ∧ HoldsMap after bindings) := by
  obtain ⟨out, ran, spec⟩ := runOp_spec held call.op
  obtain ⟨ranToo, rfl⟩ := step
  obtain rfl : out = call.out := Except.ok.inj (ran.symm.trans ranToo)
  exact spec

theorem reachable_holdsMap {start : BtreeState} {calls : List Call} (empty : Empty start)
    (run : Steps CallStep start calls state) : ∃ bindings, HoldsMap state bindings := by
  refine run.invariant (fun state => ∃ bindings, HoldsMap state bindings) ?_
    ⟨_, empty.holdsMap⟩
  rintro before call after ⟨bindings, held⟩ step
  obtain ⟨_, _, applied, kept⟩ := step.spec held
  by_cases failed : call.out.ok = false
  · exact ⟨bindings, (kept failed).2⟩
  · exact ⟨_, applied fun out => failed out.1⟩

/-- As long as blocks last, a run builds the map that its operations build. -/
theorem run_holdsMap {start : BtreeState} {calls : List Call} (empty : Empty start)
    (run : Steps CallStep start calls state) (supplied : ∀ call ∈ calls, ¬ OutOfBlocks call) :
    HoldsMap state ((calls.map Call.op).foldl applyOp fun _ => none) := by
  have simulated := run.simulates HoldsMap
    (fun bindings call => applyOp bindings call.op)
    (fun before call after bindings held supplied step => (step.spec held).2.2.1 supplied)
    empty.holdsMap supplied
  simpa only [List.foldl_map] using simulated

/-- Lookups read the finite map that the operations build, as long as blocks last. -/
theorem btree_refines_map {start state : BtreeState} {calls : List Call} (empty : Empty start)
    (run : Steps CallStep start calls state) (supplied : ∀ call ∈ calls, ¬ OutOfBlocks call) :
    let bindings := (calls.map Call.op).foldl applyOp fun _ => none
    (∀ key, btreeLookup state.device state.rootLba key = .ok (bindings key)) ∧
    (∀ key value, ∃ out, btreeInsert state key value = .ok out ∧
      (¬ OutOfBlocks ⟨.insert key value, out⟩ →
        out.ok = true ∧ out.flag = some (bindings key).isNone)) ∧
    ∀ key, ∃ out, btreeDelete state key = .ok out ∧
      (¬ OutOfBlocks ⟨.delete key, out⟩ → out.flag = some (bindings key).isSome) := by
  intro bindings
  have held : HoldsMap state bindings := run_holdsMap empty run supplied
  obtain ⟨height, rep⟩ := held
  refine ⟨rep.lookup, fun key value => ?_, fun key => ?_⟩
  · obtain ⟨out, ran, outcome⟩ := btreeInsert_spec rep key value
    refine ⟨out, ran, fun supplied => ?_⟩
    cases outcome with
    | failed frame short used => exact absurd ⟨rfl, Nat.le_of_eq used.symm⟩ supplied
    | inserted => exact ⟨rfl, rfl⟩
  · obtain ⟨out, ran, outcome⟩ := btreeDelete_spec rep key
    refine ⟨out, ran, fun supplied => ?_⟩
    cases outcome with
    | noTree noRoot unbound => simp [unbound]
    | absent rooted unbound => simp [unbound]
    | failed rooted bound frame short used =>
      exact absurd ⟨rfl, Nat.le_of_eq used.symm⟩ supplied
    | deleted after bound => simp [Option.isSome_iff_ne_none.mpr bound]

/-- The ramdisk before its first use. -/
def blankState : BtreeState := ⟨⟨fun _ => .zero, 3, 0⟩, 0⟩

/-- The calls for a list of operations, one after the other. -/
def runOps : BtreeState → List Op → Except Fault (BtreeState × List Call)
  | state, [] => .ok (state, [])
  | state, op :: ops => do
    let out ← runOp state op
    let (final, calls) ← runOps out.state ops
    return (final, ⟨op, out⟩ :: calls)

theorem runOps_steps {ops : List Op} : ∀ {start final : BtreeState} {calls : List Call},
    runOps start ops = .ok (final, calls) →
      Steps CallStep start calls final ∧ calls.map Call.op = ops := by
  induction ops with
  | nil =>
    intro start final calls ran
    cases ran
    exact ⟨.refl, rfl⟩
  | cons op ops ih =>
    intro start final calls ran
    simp only [runOps] at ran
    cases first : runOp start op with
    | error fault =>
      rw [first] at ran
      cases ran
    | ok out =>
      rw [first] at ran
      cases rest : runOps out.state ops with
      | error fault =>
        change (runOps out.state ops >>= _) = _ at ran
        rw [rest] at ran
        cases ran
      | ok done =>
        change (runOps out.state ops >>= _) = _ at ran
        rw [rest] at ran
        cases ran
        obtain ⟨steps, same⟩ := ih rest
        exact ⟨(Steps.refl.step ⟨first, rfl⟩).trans steps, congrArg (op :: ·) same⟩

/-- 250 keys, of which one is overwritten and one deleted. -/
def grownOps : List Op :=
  (List.range 250).map (fun key => .insert key (key + 1)) ++ [.insert 5 1, .delete 9]

/-- The root has split. -/
def BtreeState.split (state : BtreeState) : Bool :=
  match state.device.blocks state.rootLba with
  | .node node =>
    match node.payload with
    | .internal _ => true
    | .leaf _ => false
  | _ => false

theorem grownOps_run : ∃ calls state, calls.map Call.op = grownOps ∧
    Steps CallStep blankState calls state ∧ (∀ call ∈ calls, ¬ OutOfBlocks call) ∧
    state.rootLba ≠ 0 ∧ state.split = true := by
  have ran : (runOps blankState grownOps).toOption.any (fun (state, calls) =>
      calls.all (·.out.ok) && state.rootLba ≠ 0 && state.split) = true := by
    decide +kernel
  cases done : runOps blankState grownOps with
  | error fault =>
    rw [done] at ran
    cases ran
  | ok out =>
    obtain ⟨state, calls⟩ := out
    obtain ⟨run, same⟩ := runOps_steps done
    rw [done] at ran
    simp only [Except.toOption, Option.any_some, Bool.and_eq_true, List.all_eq_true,
      decide_eq_true_eq] at ran
    refine ⟨calls, state, same, run, fun call member out => ?_, ran.1.2, ran.2⟩
    rw [OutOfBlocks, ran.1.1 call member] at out
    cases out.1

/-- Enough inserts to split the root, an overwrite and a delete. -/
theorem btree_refines_map_grown : ∃ calls state, calls.map Call.op = grownOps ∧
    Steps CallStep blankState calls state ∧ state.split = true ∧
    btreeLookup state.device state.rootLba 5 = .ok (some 1) ∧
    btreeLookup state.device state.rootLba 9 = .ok none ∧
    btreeLookup state.device state.rootLba 249 = .ok (some 250) := by
  obtain ⟨calls, state, same, run, supplied, _, split⟩ := grownOps_run
  have refined := (btree_refines_map ⟨rfl, rfl⟩ run supplied).1
  simp only [same] at refined
  refine ⟨calls, state, same, run, split, ?_, ?_, ?_⟩
  · exact (refined 5).trans (congrArg Except.ok (by decide +kernel))
  · exact (refined 9).trans (congrArg Except.ok (by decide +kernel))
  · exact (refined 249).trans (congrArg Except.ok (by decide +kernel))

/-- The keys of a node: those of a leaf's entries, or the separators. -/
def Node.keyCell (node : Node) : Nat → Nat :=
  match node.payload with
  | .leaf leaf => leaf.keys.cell
  | .internal internal => internal.keys.cell

/-- `node` is the image of block `lba`, `depth` child pointers below block `root`. -/
inductive NodeAt (device : Device) (root : Nat) : Nat → Nat → Node → Prop where
  | root {node : Node} (image : device.blocks root = .node node) : NodeAt device root 0 root node
  | child {depth lba i : Nat} {node childNode : Node} {internal : InternalPayload}
      (above : NodeAt device root depth lba node) (shape : node.payload = .internal internal)
      (inside : i ≤ node.entryCount)
      (image : device.blocks (internal.children.cell i) = .node childNode) :
      NodeAt device root (depth + 1) (internal.children.cell i) childNode

/-- What every node at depth `depth` of a tree of height `height` satisfies. -/
structure WellFormedNode (device : Device) (height depth : Nat) (node : Node) : Prop where
  bounded : node.entryCount ≤ btreeMaxKeys
  increasing : Increasing node.keyCell node.entryCount
  leafDepth : ∀ leaf, node.payload = .leaf leaf → depth = height
  children : ∀ internal, node.payload = .internal internal → ∀ i, i ≤ node.entryCount →
    (∃ childNode, device.blocks (internal.children.cell i) = .node childNode) ∧
    ∀ below lba sub, NodeAt device (internal.children.cell i) below lba sub →
      ∀ j, j < sub.entryCount →
        (0 < i → internal.keys.cell (i - 1) ≤ sub.keyCell j) ∧
        (i < node.entryCount → sub.keyCell j < internal.keys.cell i)

theorem NodeAt.subtree {lo hi root depth lba : Nat} {node : Node}
    (tree : IsTree device height lo hi root) (reached : NodeAt device root depth lba node) :
    device.blocks lba = .node node ∧ ∃ rest lo' hi', height = depth + rest ∧ lo ≤ lo' ∧ hi' ≤ hi ∧
      IsTree device rest lo' hi' lba := by
  induction reached with
  | root image => exact ⟨image, height, lo, hi, by omega, Nat.le_refl _, Nat.le_refl _, tree⟩
  | @child depth lba i node childNode internal above shape inside image ih =>
    obtain ⟨nodeImage, rest, lo', hi', heightIs, lowLe, highLe, subtree⟩ := ih
    refine ⟨image, ?_⟩
    cases subtree with
    | leaf leafImage =>
      obtain rfl := Block.node.inj (nodeImage.symm.trans leafImage)
      cases shape
    | @internal rest lo' hi' lba level count payload treeImage positive allocated bounded sorted
        range ordered subtrees =>
      obtain rfl := Block.node.inj (nodeImage.symm.trans treeImage)
      obtain rfl := Payload.internal.inj shape
      refine ⟨rest, _, _, by omega, ?_, ?_, subtrees i inside⟩
      · unfold childLo
        split
        · exact lowLe
        · exact Nat.le_trans lowLe (Nat.le_of_lt (range _ (by simp only at inside; omega)).1)
      · unfold childHi
        split
        · exact Nat.le_trans (Nat.le_of_lt (range _ (by assumption)).2) highLe
        · exact highLe

theorem IsTree.keyCell_range {lo hi lba : Nat} {node : Node}
    (tree : IsTree device height lo hi lba) (image : device.blocks lba = .node node) (j : Nat)
    (inside : j < node.entryCount) : lo ≤ node.keyCell j ∧ node.keyCell j < hi := by
  cases tree with
  | leaf treeImage _ _ _ _ range =>
    obtain rfl := Block.node.inj (image.symm.trans treeImage)
    exact range j inside
  | internal treeImage _ _ _ _ range =>
    obtain rfl := Block.node.inj (image.symm.trans treeImage)
    exact ⟨Nat.le_of_lt (range j inside).1, (range j inside).2⟩

theorem IsTree.wellFormedNode {lo hi root depth lba : Nat} {node : Node}
    (tree : IsTree device height lo hi root) (reached : NodeAt device root depth lba node) :
    WellFormedNode device height depth node := by
  obtain ⟨image, rest, lo', hi', heightIs, _, _, subtree⟩ := reached.subtree tree
  cases subtree with
  | leaf treeImage positive allocated bounded sorted range =>
    obtain rfl := Block.node.inj (image.symm.trans treeImage)
    exact ⟨bounded, sorted, fun _ _ => by omega, fun internal shape => by cases shape⟩
  | @internal rest lo' hi' lba level count payload treeImage positive allocated bounded sorted
      range ordered subtrees =>
    obtain rfl := Block.node.inj (image.symm.trans treeImage)
    refine ⟨bounded, sorted, fun leaf shape => (by cases shape), fun internal shape i inside => ?_⟩
    obtain rfl := Payload.internal.inj shape
    have childTree := subtrees i inside
    constructor
    · cases childTree with
      | leaf childImage => exact ⟨_, childImage⟩
      | internal childImage => exact ⟨_, childImage⟩
    · intro below subLba sub subReached j less
      obtain ⟨subImage, _, subLo, subHi, _, lowLe, highLe, subTree⟩ :=
        subReached.subtree childTree
      obtain ⟨low, high⟩ := subTree.keyCell_range subImage j less
      unfold childLo at lowLe
      unfold childHi at highLe
      constructor
      · intro notFirst
        rw [if_neg (by omega)] at lowLe
        exact Nat.le_trans lowLe low
      · intro notLast
        simp only at notLast
        rw [if_pos notLast] at highLe
        exact Nat.lt_of_lt_of_le high highLe

/-- In every reachable state the nodes are well formed, and no call leaves its arrays. -/
theorem btree_wellFormed {start state : BtreeState} {calls : List Call} (empty : Empty start)
    (run : Steps CallStep start calls state) :
    ∃ height, height < btreeMaxDepth ∧ height < 64 ∧
      (state.rootLba ≠ 0 → (∃ node, state.device.blocks state.rootLba = .node node) ∧
        ∀ depth lba node, NodeAt state.device state.rootLba depth lba node →
          WellFormedNode state.device height depth node) ∧
      (∀ key value, ∃ out, btreeInsert state key value = .ok out) ∧
      ∀ key, ∃ out, btreeDelete state key = .ok out := by
  obtain ⟨bindings, height, rep⟩ := reachable_holdsMap empty run
  have shallow := rep.shallow
  refine ⟨height, shallow, by unfold btreeMaxDepth at shallow; omega, fun rooted => ?_,
    fun key value => ?_, fun key => ?_⟩
  · cases rep.holds with
    | empty noRoot => exact absurd noRoot rooted
    | tree isTree filled =>
      constructor
      · cases isTree with
        | leaf image => exact ⟨_, image⟩
        | internal image => exact ⟨_, image⟩
      · exact fun depth lba node reached => isTree.wellFormedNode reached
  · obtain ⟨out, ran, _⟩ := btreeInsert_spec rep key value
    exact ⟨out, ran⟩
  · obtain ⟨out, ran, _⟩ := btreeDelete_spec rep key
    exact ⟨out, ran⟩

/-- In the same run the split leaves every node well formed. -/
theorem btree_wellFormed_grown : ∃ calls state, calls.map Call.op = grownOps ∧
    Steps CallStep blankState calls state ∧ state.split = true ∧ ∃ height, height < 32 ∧
      ∀ depth lba node, NodeAt state.device state.rootLba depth lba node →
        WellFormedNode state.device height depth node := by
  obtain ⟨calls, state, same, run, _, rooted, split⟩ := grownOps_run
  obtain ⟨height, shallow, _, nodes, _⟩ := btree_wellFormed ⟨rfl, rfl⟩ run
  exact ⟨calls, state, same, run, split, height, shallow, (nodes rooted).2⟩

theorem steps_extends {start final : BtreeState} {earlier calls : List Call}
    (empty : Empty start) (before : Steps CallStep start earlier state)
    (run : Steps CallStep state calls final) :
    Extends state.device final.device ∧ final.device.nextFreeBlock ≤ ramdiskBlocks := by
  induction run with
  | refl =>
    obtain ⟨bindings, height, rep⟩ := reachable_holdsMap empty before
    exact ⟨.refl _, rep.limit⟩
  | step prior transition ih =>
    obtain ⟨bindings, held⟩ := reachable_holdsMap empty (before.trans prior)
    obtain ⟨frame, limit, _⟩ := transition.spec held
    exact ⟨ih.1.trans frame, limit⟩

/-- What a root reads stays under later calls, and a call that returns -1 changes nothing. -/
theorem btree_copyOnWrite {start state : BtreeState} {calls : List Call} (empty : Empty start)
    (run : Steps CallStep start calls state) :
    (∀ later final, Steps CallStep state later final → ∀ key,
      btreeLookup final.device state.rootLba key = btreeLookup state.device state.rootLba key) ∧
    ∀ op out, runOp state op = .ok out → out.ok = false →
      out.state.rootLba = state.rootLba ∧ ∀ key,
        btreeLookup out.state.device out.state.rootLba key =
          btreeLookup state.device state.rootLba key := by
  obtain ⟨bindings, height, rep⟩ := reachable_holdsMap empty run
  constructor
  · intro later final laterRun key
    obtain ⟨frame, limit⟩ := steps_extends empty run laterRun
    exact rep.lookup_frame frame.keepsNodes limit key
  · intro op out ran failed
    have step : CallStep state ⟨op, out⟩ out.state := ⟨ran, rfl⟩
    obtain ⟨frame, limit, _, kept⟩ := step.spec rep.holdsMap
    have sameRoot := (kept failed).1
    refine ⟨sameRoot, fun key => ?_⟩
    rw [sameRoot]
    exact rep.lookup_frame frame.keepsNodes limit key

/-- An overwrite leaves what the old root leads to. -/
theorem btree_copyOnWrite_overwrite : ∃ first out,
    runOp blankState (.insert 5 7) = .ok ⟨first, true, some true⟩ ∧
    runOp first (.insert 5 9) = .ok out ∧ ∀ key,
      btreeLookup out.state.device first.rootLba key =
        btreeLookup first.device first.rootLba key := by
  have run : Steps CallStep blankState [⟨.insert 5 7, _⟩] _ := .step .refl ⟨rfl, rfl⟩
  obtain ⟨bindings, held⟩ := reachable_holdsMap ⟨rfl, rfl⟩ run
  obtain ⟨out, ran, _⟩ := runOp_spec held (.insert 5 9)
  exact ⟨_, out, rfl, ran,
    (btree_copyOnWrite ⟨rfl, rfl⟩ run).1 [⟨_, out⟩] _ (.step .refl ⟨ran, rfl⟩)⟩

end M4KK1.Yafs
