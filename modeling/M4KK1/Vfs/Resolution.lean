import M4KK1.Vfs.Boot
import M4KK1.Yafs.WalkRange

/-!
# Path resolution as a fold

One step for each component; the two copies of the rules differ for long components.
-/

namespace M4KK1.Vfs

open Lib Yafs List

/-- The trees built by B+tree calls, or reached by calls of `vfs.c`. -/
inductive FileTree (tree : BtreeState) : Prop where
  | built {start : BtreeState} {calls : List Yafs.Call} (empty : Empty start)
      (run : Steps CallStep start calls tree)
  | mounted {blocks : Nat → Block} {start state : State} {calls : List Call}
      (booted : boot blocks = .ok start)
      (run : Steps VfsStep start calls state) (isTree : tree = state.yafs)

variable {tree : BtreeState} {bindings : Nat → Option Nat}

theorem FileTree.holdsMap (isTree : FileTree tree) : ∃ bindings, HoldsMap tree bindings := by
  cases isTree with
  | built empty run => exact reachable_holdsMap empty run
  | @mounted blocks start state calls booted run isTree =>
    obtain ⟨height, bindings', inv⟩ := mounted_sound booted run
    exact ⟨bindings', isTree ▸ inv.yafs.rep.holdsMap⟩

/-- The directory of the first entry of an inode number; the root is in itself. -/
def parentIn (bindings : Nat → Option Nat) (child : Nat) : Nat :=
  if child = 0 then 0
  else if child = 1 then 1
  else
    (((listing bindings (makeKey ksDirEntry 0) (makeKey (ksDirEntry + 1) 0)).find? fun entry =>
      entry.2 = child).map fun entry => keyParent entry.1).getD 0

def stepIn (bindings : Nat → Option Nat) (inode : Nat) (comp : CString) : Nat :=
  if comp = [] ∨ comp = cstr "." then inode
  else if comp = cstr ".." then parentIn bindings inode
  else entryIn bindings inode comp

/-- A step from the inode number that the steps before have found, if they have. -/
def stepLive (bindings : Nat → Option Nat) (inode : Nat) (comp : CString) : Nat :=
  if inode = 0 then 0 else stepIn bindings inode comp

/-- Where a path leads: from inode 1, one step for each component, and 0 once a step fails. -/
def resolveIn (bindings : Nat → Option Nat) (path : CString) : Nat :=
  (components path).foldl (stepLive bindings) 1

theorem entry_range {key : Nat} :
    makeKey ksDirEntry 0 ≤ key ∧ key < makeKey (ksDirEntry + 1) 0 ↔ keyTag key = ksDirEntry := by
  rw [makeKey_eq (by decide), makeKey_eq (by decide), keyTag, ksTagShift, Nat.shiftRight_eq_div_pow,
    ksDirEntry]
  omega

theorem visit_parentCb (child parent : Nat) {entries : List (Nat × Nat)}
    (areEntries : ∀ entry ∈ entries, keyTag entry.1 = ksDirEntry) :
    (visit (visitEntry (parentCb child)) entries parent).1 =
      ((entries.find? fun entry => entry.2 = child).map fun entry => keyParent entry.1).getD
        parent := by
  induction entries with
  | nil => rfl
  | cons entry entries ih =>
    have isEntry := areEntries entry mem_cons_self
    have step : visitEntry (parentCb child) entry parent =
        if entry.2 = child then (keyParent entry.1, true) else (parent, false) :=
      if_neg (not_not.mpr isEntry)
    rw [visit, step, find?_cons]
    by_cases isChild : entry.2 = child
    · simp [isChild]
    · simp [isChild, ih fun other member => areEntries other (mem_cons_of_mem entry member)]

theorem lookupParent_eq {height : Nat} (rep : Represents tree height bindings) (child : Nat) :
    lookupParent tree.device tree.rootLba child = .ok (parentIn bindings child) := by
  unfold lookupParent parentIn
  split
  next => rfl
  next =>
    split
    next => rfl
    next =>
      rw [rep.walk_range (by decide) (by decide), ok_bind, visit_parentCb child 0]
      · rfl
      · rintro ⟨key, value⟩ member
        exact entry_range.mp (mem_listing.mp member).2

theorem parentIn_of_single {key child : Nat} (notNull : child ≠ 0)
    (notRoot : child ≠ 1) (tag : keyTag key = ksDirEntry) (bound : bindings key = some child)
    (single : ∀ other, keyTag other = ksDirEntry → bindings other = some child →
      keyParent other = keyParent key) :
    parentIn bindings child = keyParent key := by
  have member : (key, child) ∈
      listing bindings (makeKey ksDirEntry 0) (makeKey (ksDirEntry + 1) 0) :=
    mem_listing.mpr ⟨bound, entry_range.mpr tag⟩
  rw [parentIn, if_neg notNull, if_neg notRoot]
  cases found : (listing bindings (makeKey ksDirEntry 0) (makeKey (ksDirEntry + 1) 0)).find?
    fun entry =>
      entry.2 = child with
  | none => exact absurd (decide_eq_true rfl) (find?_eq_none.mp found _ member)
  | some entry =>
    obtain ⟨first, value⟩ := entry
    have isChild : value = child := of_decide_eq_true (find?_some found :)
    obtain ⟨isBound, range⟩ := mem_listing.mp (mem_of_find?_eq_some found)
    rw [Option.map_some, Option.getD_some]
    exact single first (entry_range.mp range) (isChild ▸ isBound)

theorem stepLive_zero (bindings : Nat → Option Nat) (comps : List CString) :
    comps.foldl (stepLive bindings) 0 = 0 := by
  induction comps with
  | nil => rfl
  | cons comp comps ih => exact ih

theorem foldPath_eq {height : Nat} (rep : Represents tree height bindings) {inode : Nat}
    (live : inode ≠ 0) {comps : List CString}
    (short : ∀ comp ∈ comps, comp.length ≤ 255) :
    foldPath (lookupName tree.device tree.rootLba)
      (lookupParent tree.device tree.rootLba) inode comps =
      .ok (comps.foldl (stepLive bindings) inode) := by
  have step (inode : Nat) (comp : CString) :
      pathStep (lookupName tree.device tree.rootLba)
        (lookupParent tree.device tree.rootLba) inode comp =
        .ok (stepIn bindings inode comp) := by
    unfold pathStep stepIn
    split
    next => rfl
    next =>
      split
      next => exact lookupParent_eq rep inode
      next => exact rep.lookupName_eq inode comp
  induction comps generalizing inode with
  | nil => rfl
  | cons comp rest ih =>
    have shortRest : ∀ comp ∈ rest, comp.length ≤ 255 := fun other member =>
      short other (mem_cons_of_mem comp member)
    rw [foldl_cons, stepLive, if_neg live]
    cases rest with
    | nil => exact step inode comp
    | cons next others =>
      rw [foldPath_cons _ _ (cons_ne_nil next others),
        take_of_length_le (short comp mem_cons_self), step, ok_bind]
      split
      next ended =>
        rw [ended, stepLive_zero]
        rfl
      next goesOn => exact ih goesOn shortRest

theorem foldl_filter (bindings : Nat → Option Nat) (inode : Nat) (comps : List CString) :
    (comps.filter (· ≠ [])).foldl (stepLive bindings) inode = comps.foldl
    (stepLive bindings) inode := by
  induction comps generalizing inode with
  | nil => rfl
  | cons comp comps ih =>
    by_cases empty : comp = []
    · have stays : stepLive bindings inode comp = inode := by
        rw [stepLive, stepIn, if_pos (Or.inl empty)]
        split
        next zero => exact zero.symm
        next => rfl
      rw [filter_cons_of_neg (by simpa using empty), ih, foldl_cons, stays]
    · rw [filter_cons_of_pos (by simpa using empty), foldl_cons, foldl_cons, ih]

theorem resolveIn_congr (bindings : Nat → Option Nat) {path other : CString}
    (same : (components other).filter (· ≠ []) = (components path).filter (· ≠ [])) :
    resolveIn bindings other = resolveIn bindings path := by
  rw [resolveIn, ← foldl_filter, same, foldl_filter, resolveIn]

/-- A path whose components fit leads where the fold leads, with or without empty components. -/
theorem lookup_path_fold {tree : BtreeState} (isTree : FileTree tree) :
    ∃ bindings : Nat → Option Nat,
      (∀ key, btreeLookup tree.device tree.rootLba key = .ok (bindings key)) ∧
      (∀ parent name, lookupName tree.device tree.rootLba parent name =
        .ok (entryIn bindings parent name)) ∧
      (∀ child, lookupParent tree.device tree.rootLba child = .ok (parentIn bindings child)) ∧
      ∀ path, (∀ comp ∈ components path, comp.length ≤ 255) →
        lookupPath tree.device tree.rootLba path = .ok (resolveIn bindings path) ∧
        ∀ other, (components other).filter (· ≠ []) = (components path).filter (· ≠ []) →
          lookupPath tree.device tree.rootLba other = lookupPath tree.device tree.rootLba path := by
  obtain ⟨bindings, height, rep⟩ := isTree.holdsMap
  have resolves (path : CString) (short : ∀ comp ∈ components path, comp.length ≤ 255) :
      lookupPath tree.device tree.rootLba path = .ok (resolveIn bindings path) := by
    rw [lookupPath_eq, foldPath_eq rep Nat.one_ne_zero short, resolveIn]
  refine ⟨bindings, rep.lookup, rep.lookupName_eq, lookupParent_eq rep,
    fun path short => ⟨resolves path short, ?_⟩⟩
  intro other same
  have shortOther : ∀ comp ∈ components other, comp.length ≤ 255 := by
    intro comp member
    by_cases empty : comp = []
    · rw [empty]
      exact Nat.zero_le 255
    · have kept : comp ∈ (components other).filter (· ≠ []) :=
        mem_filter.mpr ⟨member, decide_eq_true empty⟩
      rw [same] at kept
      exact short comp (mem_filter.mp kept).1
  rw [resolves path short, resolves other shortOther, resolveIn_congr bindings same]

/-- `/sys` and `/sys/bin`, of which the second was replaced, and `/tmp`, which is gone. -/
def nestedOps : List Yafs.Op :=
  [.insert (dirEntryKey 1 (cstr "sys")) 5, .insert (dirEntryKey 1 (cstr "tmp")) 7,
    .insert (dirEntryKey 5 (cstr "bin")) 6, .insert (dirEntryKey 5 (cstr "bin")) 8,
    .delete (dirEntryKey 1 (cstr "tmp"))]

/-- A directory in a directory, with slashes to spare, and a name that is missing. -/
theorem lookup_path_fold_nested : ∃ calls tree, calls.map Yafs.Call.op = nestedOps ∧
    Steps CallStep blankState calls tree ∧
    lookupPath tree.device tree.rootLba (cstr "sys/bin") = .ok 8 ∧
    lookupPath tree.device tree.rootLba (cstr "//sys///bin/") = .ok 8 ∧
    lookupPath tree.device tree.rootLba (cstr "/tmp") = .ok 0 := by
  have ran : (runOps blankState nestedOps).toOption.any (fun out =>
      lookupPath out.1.device out.1.rootLba (cstr "sys/bin") = .ok 8 &&
        lookupPath out.1.device out.1.rootLba (cstr "/tmp") = .ok 0) = true := by
    decide +kernel
  cases done : runOps blankState nestedOps with
  | error fault =>
    rw [done] at ran
    cases ran
  | ok out =>
    obtain ⟨tree, calls⟩ := out
    obtain ⟨run, same⟩ := runOps_steps done
    rw [done] at ran
    simp only [Except.toOption, Option.any_some, Bool.and_eq_true, decide_eq_true_eq] at ran
    obtain ⟨_, _, _, _, resolves⟩ := lookup_path_fold (.built ⟨rfl, rfl⟩ run)
    have slashed := (resolves (cstr "sys/bin") (by decide)).2 (cstr "//sys///bin/") (by decide)
    exact ⟨calls, tree, same, run, ran.1, slashed.trans ran.1, ran.2⟩

end M4KK1.Vfs
