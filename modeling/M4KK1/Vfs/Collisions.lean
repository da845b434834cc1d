import M4KK1.Vfs.Files
import M4KK1.Vfs.Protected

/-!
# Names with one key

A directory entry is filed under 16 bits of a hash, and `lookup_name` compares no names.
-/

namespace M4KK1.Vfs

open Lib Yafs List

/-- A directory and a name in it. -/
abbrev Entry := Nat × CString

def Entry.key (entry : Entry) : Nat := dirEntryKey entry.1 entry.2

/-- The entries `mkrn_yafs_create_fhs` makes, given the ones it has filed. -/
def fhsEntriesIn (links : List (Nat × Nat)) : List Entry :=
  fhsTree.map fun entry =>
    match pathIn links (fhsSplit entry.path).1 with
    | .ok parent => (parent, (fhsSplit entry.path).2)
    | .error _ => (0, (fhsSplit entry.path).2)

/-- The entries of the initial tree. -/
def fhsEntries : List Entry := fhsEntriesIn fhsNames

/-- The two calls that make an entry. -/
inductive Creation where
  | mkdir (path : Option CString)
  | createFile (path : Option CString)

def Creation.path : Creation → Option CString
  | .mkdir path => path
  | .createFile path => path

def Creation.call : Creation → Call
  | .mkdir path => .mkdir path
  | .createFile path => .createFile path

def created (before : State) (creation : Creation) (made : Bool) : List Entry :=
  match made, parentOf before creation.path with
  | true, .ok (some entry) => [entry]
  | _, _ => []

/-- One call, on a filesystem with the entries that were made so far. -/
def CreateStep (before : State × List Entry) (creation : Creation) (after : State × List Entry) :
    Prop :=
  ∃ made, perform before.1 creation.call = .ok (after.1, made) ∧
    after.2 = created before.1 creation made ++ before.2

/-- The inode that `mkrn_vfs_open` truncates, when asked to, and opens. -/
def OpensInode (state : State) (path : CString) (flags inode : Nat) : Prop :=
  ∃ after, openInode state path flags = .ok (after, some inode)

/-- A name that `lookup_path` looks up. -/
def PlainName (name : CString) : Prop := name ≠ [] ∧ name ≠ cstr "." ∧ name ≠ cstr ".."

/-- A name finds what was made under it and nothing else. -/
structure NameSound (state : State) (entries : List Entry) (parent : Nat) (name : CString) :
    Prop where
  /-- `lookup_name` finds an inode only if an entry was made under exactly this name. -/
  lookup : ∀ inode, resolve state parent name = .ok inode → inode ≠ 0 → (parent, name) ∈ entries
  /-- `mkrn_vfs_open` makes a file anew when no entry has this name. -/
  opened : (parent, name) ∉ entries → PlainName name → ∀ path flags inode,
    parentOf state (some path) = .ok (some (parent, name)) → flags &&& oCreat ≠ 0 →
    flags &&& oTrunc ≠ 0 → OpensInode state path flags inode → ¬ IsYafsInode state inode
  /-- Nor is the descriptor it returns that of such an inode. -/
  descriptor : (parent, name) ∉ entries → PlainName name → ∀ s env path flags s' slot,
    s.vfs = state → parentOf state (some path) = .ok (some (parent, name)) →
    flags &&& oCreat ≠ 0 → flags &&& oTrunc ≠ 0 → routedTo path = none →
    vfsOpen s env path flags = .ok (s', some slot.val) →
    ¬ IsYafsInode state (s'.fdTable slot).yafsInode

/-- An entry made under another name or directory has the key of this name. -/
def Collides (entries : List Entry) (parent : Nat) (name : CString) : Prop :=
  (parent, name) ∉ entries ∧ ∃ other ∈ entries, other.key = dirEntryKey parent name

variable {state : State} {height : Nat} {bindings : Nat → Option Nat} {entries : List Entry}

/-- The keys that are bound are those of the entries made. -/
def Catalogued (bindings : Nat → Option Nat) (entries : List Entry) : Prop :=
  ∀ key, keyTag key = ksDirEntry → (bindings key ≠ none ↔ ∃ entry ∈ entries, entry.key = key)

def Recorded (run : State × List Entry) : Prop :=
  ∃ height bindings, Inv run.1 height bindings ∧ Catalogued bindings run.2

variable {yafs : BtreeState} {entry : Entry}

theorem makeOutcome_bound {ino : Nat} {out : BtreeState × Bool}
    (outcome : MakeOutcome yafs height bindings entry.key ino out) :
    ∃ height' bindings', YafsInv out.1 height' bindings' ∧ ∀ key, keyTag key = ksDirEntry →
        (bindings' key ≠ none ↔ bindings key ≠ none ∨ (out.2 = true ∧ key = entry.key)) := by
  have notInode : ∀ {key}, keyTag key = ksDirEntry → key ≠ inodeKey ino :=
    fun tag => key_ne_of_tag (by rw [tag, keyTag_inodeKey]; decide)
  cases outcome with
  | full inv frame rooted agrees used short =>
    refine ⟨_, _, inv, fun key tag => ?_⟩
    rw [agrees key fun _ => notInode tag]
    simp
  | overwritten bound fits inv frame rooted grown isEntry agrees =>
    refine ⟨_, _, inv, fun key tag => ?_⟩
    by_cases same : key = entry.key
    · subst same
      simp [isEntry, bound]
    · rw [agrees key (notInode tag) same]
      simp
  | made unbound inv frame rooted grown =>
    refine ⟨_, _, inv, fun key tag => ?_⟩
    by_cases same : key = entry.key
    · simp [same]
    · rw [Function.update_of_ne same, Function.update_of_ne (notInode tag)]
      simp [same]

theorem yafsInv_bindings_eq {height height' : Nat}
    {bindings bindings' : Nat → Option Nat} (inv : YafsInv yafs height bindings)
    (inv' : YafsInv yafs height' bindings') : bindings = bindings' := by
  funext key
  exact Except.ok.inj ((inv.rep.lookup key).symm.trans (inv'.rep.lookup key))

theorem Recorded.make (inv : Inv state height bindings) (catalogued : Catalogued bindings entries)
    {creation : Creation} {ok : Bool}
    (asks : creation.call = .mkdir creation.path ∨
      creation.call = .createFile creation.path ∧ bindings entry.key = none)
    (target : parentOf state creation.path = .ok (some entry))
    (outcome : MakeOutcome state.yafs height bindings entry.key state.nextIno (yafs, ok)) :
    Recorded ({ state.takeIno with yafs }, created state creation ok ++ entries) := by
  obtain ⟨height', bindings', inv', _, _⟩ := inv.make asks target outcome
  obtain ⟨_, bindings'', inv'', bound⟩ := makeOutcome_bound outcome
  obtain rfl := yafsInv_bindings_eq inv'.yafs inv''
  refine ⟨height', bindings', inv', fun key tag => ?_⟩
  rw [bound key tag, catalogued key tag]
  unfold created
  rw [target]
  cases ok with
  | false => simp
  | true =>
    simp only [singleton_append, mem_cons, exists_eq_or_imp]
    rw [or_comm, eq_comm]
    simp

theorem Recorded.step {before after : State × List Entry} {creation : Creation}
    (recorded : Recorded before) (step : CreateStep before creation after) : Recorded after := by
  obtain ⟨height, bindings, inv, catalogued⟩ := recorded
  obtain ⟨made, ran, history⟩ := step
  obtain ⟨state, entries⟩ := before
  obtain ⟨state', entries'⟩ := after
  dsimp only at *
  subst history
  have refused : Recorded (state, created state creation false ++ entries) :=
    ⟨height, bindings, inv, by simpa [created] using catalogued⟩
  cases creation with
  | mkdir path =>
    obtain ⟨out, ranToo, outcome⟩ := mkdir_spec inv path
    obtain rfl := Except.ok.inj (ranToo.symm.trans ran)
    generalize whole : (state', made) = pair at outcome
    cases outcome with
    | refused nowhere =>
      cases whole
      exact refused
    | @ran parent name _ target outcome =>
      obtain ⟨yafs, ok, rfl, outcome⟩ := outcome
      cases whole
      exact Recorded.make inv catalogued (.inl rfl) target outcome
  | createFile path =>
    obtain ⟨out, ranToo, outcome⟩ := createFileYafs_spec inv path
    obtain rfl := Except.ok.inj (ranToo.symm.trans ran)
    generalize whole : (state', made) = pair at outcome
    cases outcome with
    | refused nowhere =>
      cases whole
      exact refused
    | @ran parent name _ target outcome =>
      obtain ⟨_, rfl⟩ | ⟨unbound, yafs, ok, rfl, outcome⟩ := outcome
      · cases whole
        exact refused
      · cases whole
        have asks : (Creation.createFile path).call = .mkdir (Creation.createFile path).path ∨
            (Creation.createFile path).call = .createFile (Creation.createFile path).path ∧
              bindings (Entry.key (parent, name)) = none := .inr ⟨rfl, unbound⟩
        exact Recorded.make inv catalogued asks target outcome

theorem fhsNames_keys : fhsNames.map Prod.fst = (fhsEntries.map Entry.key).reverse := by
  have computed : (fhsLinks [] 2 fhsTree).any (fun links =>
      decide (links.map Prod.fst = ((fhsEntriesIn links).map Entry.key).reverse)) = true := by
    decide +kernel
  cases made : fhsLinks [] 2 fhsTree with
  | none =>
    rw [made] at computed
    cases computed
  | some links =>
    rw [made] at computed
    have whole : fhsNames = links := by rw [fhsNames, made, Option.getD_some]
    rw [fhsEntries, whole]
    exact of_decide_eq_true computed

theorem Built.recorded (built : Built state.yafs bindings fhsNames 63)
    (next : state.nextIno = 1000) : Recorded (state, fhsEntries) := by
  refine ⟨0, bindings, built.inv_boot next, fun key tag => ?_⟩
  have keys : key ∈ fhsNames.map Prod.fst ↔ ∃ entry ∈ fhsEntries, entry.key = key := by
    rw [fhsNames_keys, mem_reverse, mem_map]
  rw [← keys, built.names key tag]
  constructor
  · intro bound
    obtain ⟨inode, found⟩ := Option.ne_none_iff_exists'.mp bound
    obtain ⟨front, back, whole, _⟩ := lookup_eq_some_iff.mp found
    simp [whole]
  · intro member
    obtain ⟨link, isLink, rfl⟩ := mem_map.mp member
    simp [(fhsFacts.keys link isLink).2]

theorem Recorded.resolve_iff (recorded : Recorded (state, entries)) (parent : Nat)
    (name : CString) :
    ∃ inode, resolve state parent name = .ok inode ∧
      (inode ≠ 0 ↔ ∃ other ∈ entries, other.key = dirEntryKey parent name) := by
  obtain ⟨height, bindings, inv, catalogued⟩ := recorded
  refine ⟨_, inv.resolve_eq parent name, ?_⟩
  rw [← catalogued _ (keyTag_dirEntryKey parent name)]
  exact not_congr (inv.yafs.filed.entryIn_eq_zero parent name)

theorem createFileYafs_fresh (inv : Inv state height bindings) {path : CString} {after : State}
    (ran : createFileYafs state (some path) = .ok (after, true)) :
    ¬ IsYafsInode state state.nextIno := by
  obtain ⟨out, ranToo, outcome⟩ := createFileYafs_spec inv (some path)
  obtain rfl := Except.ok.inj (ranToo.symm.trans ran)
  cases outcome with
  | ran target outcome =>
    obtain ⟨_, impossible⟩ | ⟨_, yafs, ok, isOut, outcome⟩ := outcome
    · cases impossible
    cases isOut
    cases outcome with
    | made _ yafsInv frame rooted grown =>
      have room := Nat.lt_of_lt_of_le grown yafsInv.rep.limit
      have fresh := inv.fresh room
      rintro (⟨key, lba, tag, value, found⟩ | ⟨key, tag, found⟩)
      · rw [inv.yafs.rep.lookup] at found
        have less := fresh.inode tag (by rw [Except.ok.inj found]; simp)
        rw [keyValue_of_inode tag] at value
        omega
      · rw [inv.yafs.rep.lookup] at found
        have less := fresh.entry tag (Except.ok.inj found)
        omega

theorem Inv.opens_fresh (inv : Inv state height bindings) {path name : CString}
    {parent flags inode : Nat} (plain : PlainName name)
    (target : parentOf state (some path) = .ok (some (parent, name)))
    (free : bindings (dirEntryKey parent name) = none)
    (opens : OpensInode state path flags inode) : ¬ IsYafsInode state inode := by
  obtain ⟨after, ran⟩ := opens
  obtain ⟨_, dir, isPath, split, toParent, parentLive⟩ := parentOf_split target
  cases isPath
  have missing : lookupPath state.yafs.device state.yafs.rootLba path = .ok 0 := by
    rw [lookupPath_split split toParent parentLive]
    simp only [pathStep, plain.1, plain.2.1, plain.2.2, or_self, if_false]
    rw [inv.yafs.rep.lookupName_eq, entryIn, free]
    rfl
  obtain ⟨rfl, found⟩ | ⟨_, _, made, created, found⟩ := openInode_cases ran
  · obtain ⟨looked, live⟩ := found inode rfl
    cases missing.symm.trans looked
    exact absurd rfl live
  · obtain ⟨rfl, looked, live⟩ := found inode rfl
    obtain ⟨_, _, _, _, target', added⟩ := createFileYafs_added inv created
    cases target.symm.trans target'
    obtain rfl := added.lookupPath_new target missing looked live
    exact createFileYafs_fresh inv created

theorem vfsOpen_opens {s s' : FdState} {env : Surroundings} {path : CString} {flags : Nat}
    {slot : Fin maxFds} (mounted : s.vfs.yafs.rootLba ≠ 0) (plain : routedTo path = none)
    (ran : vfsOpen s env path flags = .ok (s', some slot.val)) :
    OpensInode s.vfs path flags (s'.fdTable slot).yafsInode := by
  unfold vfsOpen at ran
  split at ran
  next => cases ran
  next =>
    split at ran
    next => cases ran
    next =>
      simp only [plain] at ran
      obtain ⟨_, vfs, opened, ⟨_, impossible, _⟩ | ⟨inode, vfs', ready, rfl, _, ends⟩⟩ :=
        openYafs_ok ran
      · cases impossible
      obtain ⟨_, impossible, _⟩ | ⟨_, offset, ran⟩ := ends
      · cases impossible
      obtain ⟨impossible, _⟩ | ⟨other, _, isFd, entry, _⟩ := openDescriptor_cases rfl ran
      · cases impossible
      obtain rfl := Fin.ext (Option.some.inj isFd)
      rw [entry]
      exact ⟨vfs, opened⟩

theorem parentOf_mounted {path : Option CString}
    (target : parentOf state path = .ok (some entry)) : state.yafs.rootLba ≠ 0 := by
  intro unmounted
  cases path with
  | none => cases target
  | some path => simp [parentOf, unmounted, pure_eq_ok] at target

theorem Recorded.nameSound_iff (recorded : Recorded (state, entries)) (parent : Nat)
    (name : CString) : NameSound state entries parent name ↔ ¬ Collides entries parent name := by
  obtain ⟨inode, resolved, found⟩ := recorded.resolve_iff parent name
  constructor
  · rintro sound ⟨absent, other⟩
    exact absent (sound.lookup inode resolved (found.mpr other))
  · intro apart
    have fresh : (parent, name) ∉ entries → PlainName name → ∀ {path flags opened},
        parentOf state (some path) = .ok (some (parent, name)) →
        OpensInode state path flags opened → ¬ IsYafsInode state opened := by
      intro absent plain path flags opened target opens
      obtain ⟨height, bindings, inv, catalogued⟩ := recorded
      refine inv.opens_fresh plain target ?_ opens
      by_contra bound
      exact apart ⟨absent, (catalogued _ (keyTag_dirEntryKey parent name)).mp bound⟩
    constructor
    · intro inode' resolved' live
      cases resolved.symm.trans resolved'
      by_contra absent
      exact apart ⟨absent, found.mp live⟩
    · intro absent plain path flags opened target _ _ opens
      exact fresh absent plain target opens
    · intro absent plain s env path flags s' slot same target _ _ unrouted ran
      subst same
      exact fresh absent plain target (vfsOpen_opens (parentOf_mounted target) unrouted ran)

/-- A name finds what was made under it exactly when no other made name has its key. -/
theorem lookup_sound_iff (blocks : Nat → Block) :
    ∃ start, boot blocks = .ok start ∧
      ∀ creations state entries, Steps CreateStep (start, fhsEntries) creations (state, entries) →
      ∀ parent name, NameSound state entries parent name ↔ ¬ Collides entries parent name := by
  obtain ⟨start, bindings, booted, built, next, _⟩ := boot_built blocks
  refine ⟨start, booted, fun creations state entries run parent name => ?_⟩
  have recorded : Recorded (state, entries) :=
    run.invariant Recorded (fun _ _ _ recorded step => recorded.step step) (built.recorded next)
  exact recorded.nameSound_iff parent name

theorem fhsEntries_name (member : entry ∈ fhsEntries) :
    ∃ line ∈ fhsTree, entry.2 = (fhsSplit line.path).2 := by
  obtain ⟨line, isLine, rfl⟩ := mem_map.mp member
  refine ⟨line, isLine, ?_⟩
  split <;> rfl

theorem szR_key (parent : Nat) :
    dirEntryKey parent (cstr "szR") = dirEntryKey parent (cstr "sys") := by
  have hashes : nameHash (cstr "szR") = nameHash (cstr "sys") := by decide
  rw [dirEntryKey, dirEntryKey, hashes]

/-- An `open` of `/szR`, of which there is no entry, makes no file and opens the inode of `/sys`. -/
theorem open_colliding_name :
    ∃ start, boot (fun _ => .data fun _ => 0) = .ok start ∧
      (1, cstr "szR") ∉ fhsEntries ∧ (1, cstr "sys") ∈ fhsEntries ∧
      resolve start 1 (cstr "szR") = .ok 14 ∧ resolve start 1 (cstr "sys") = .ok 14 ∧
      OpensInode start (cstr "/szR") oCreat 14 ∧ IsYafsInode start 14 ∧
      ¬ NameSound start fhsEntries 1 (cstr "szR") := by
  obtain ⟨start, bindings, booted, built, next, ready, _⟩ :=
    boot_built (fun _ => .data fun _ => 0)
  have inv := built.inv_boot next
  have sys : bindings (dirEntryKey 1 (cstr "sys")) = some 14 := by
    rw [built.names _ (keyTag_dirEntryKey 1 _)]
    exact fhsFacts.sys
  have szR : bindings (dirEntryKey 1 (cstr "szR")) = some 14 := by rw [szR_key, sys]
  have absent : (1, cstr "szR") ∉ fhsEntries := by
    intro member
    obtain ⟨entry, isEntry, named⟩ := fhsEntries_name member
    have otherwise : ∀ entry ∈ fhsTree, (fhsSplit entry.path).2 ≠ cstr "szR" := by decide +kernel
    exact otherwise entry isEntry named.symm
  have present : (1, cstr "sys") ∈ fhsEntries :=
    mem_map.mpr ⟨fhsDir "sys", by simp [fhsTree], rfl⟩
  have isSys : IsYafsInode start 14 := by
    refine .inr ⟨dirEntryKey 1 (cstr "sys"), keyTag_dirEntryKey 1 _, ?_⟩
    rw [inv.yafs.rep.lookup, sys]
  have resolved : resolve start 1 (cstr "szR") = .ok 14 := by
    rw [inv.resolve_eq, entryIn, szR, Option.getD_some]
  have found : InodeOf start (cstr "/szR") 14 := (inv.inodeOf_top (by decide) (by decide)).mpr szR
  have opens : OpensInode start (cstr "/szR") oCreat 14 := by
    refine ⟨start, ?_⟩
    rw [openInode_eq, found.1, ok_bind]
    rfl
  refine ⟨start, booted, absent, present, resolved, ?_, opens, isSys, fun sound => ?_⟩
  · rw [inv.resolve_eq, entryIn, sys, Option.getD_some]
  · exact absent (sound.lookup 14 resolved (by decide))

end M4KK1.Vfs
