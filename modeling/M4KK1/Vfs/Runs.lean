import M4KK1.Vfs.Effects

/-!
# Runs of the filesystem

Every state that a run of calls reaches keeps the invariant, and no call faults.
-/

namespace M4KK1.Vfs

open Lib Yafs Function

/-- A call that may change the filesystem. -/
inductive Call where
  | mkdir (path : Option CString)
  | createFile (path : Option CString)
  | unlink (path : Option CString)
  | rmdir (path : Option CString)
  | rename (oldPath newPath : Option CString)
  | write (inode : Nat) (buf : List UInt8) (offset : Nat)
  | truncate (inode : Nat)
  | chmod (euid : Option Nat) (path : Option CString) (mode : Nat)
  | chown (euid : Option Nat) (path : Option CString) (uid gid : Nat)

/-- What a call does; the flag is `false` when it returns -1. -/
def perform (state : State) : Call → Except Fault (State × Bool)
  | .mkdir path => mkdir state path
  | .createFile path => createFileYafs state path
  | .unlink path => unlink state path
  | .rmdir path => rmdir state path
  | .rename oldPath newPath => rename state oldPath newPath
  | .write inode buf offset => writeFile state inode buf offset
  | .truncate inode => truncate state inode
  | .chmod euid path mode => chmod state euid path mode
  | .chown euid path uid gid => chown state euid path uid gid

/-- The call returns and leaves this state. -/
def VfsStep (before : State) (call : Call) (after : State) : Prop :=
  ∃ ok, perform before call = .ok (after, ok)

def resolve (state : State) (parent : Nat) (name : CString) : Except Fault Nat :=
  lookupName state.yafs.device state.yafs.rootLba parent name

/-- The state keeps the invariant for some map. -/
def Sound (state : State) : Prop := ∃ height bindings, Inv state height bindings

/-- No directory entry has changed. -/
def SameEntries (bindings bindings' : Nat → Option Nat) : Prop :=
  ∀ key, keyTag key = ksDirEntry → bindings' key = bindings key

def KeepsRecords (bindings bindings' : Nat → Option Nat) : Prop :=
  ∀ key inode, keyTag key = ksDirEntry → bindings key = some inode →
    bindings (inodeKey inode) ≠ none → bindings' (inodeKey inode) ≠ none

/-- The new name is free or bound to the same inode, and there are blocks for both updates or too
few for the first. -/
def MovesCleanly (state : BtreeState) (height : Nat) (bindings : Nat → Option Nat)
    (oldKey newKey : Nat) : Prop :=
  ∀ child, bindings oldKey = some child →
    match bindings newKey with
    | none => freeBlocks state.device < insertCost state height newKey ∨
        insertCost state height newKey + (insertHeight state height newKey + 1) ≤
          freeBlocks state.device
    | some target => target = child ∨ freeBlocks state.device < height + 1

/-- What a call does to the directory entries, from the bindings before it to those
after it. -/
inductive EntryEffect (state : State) (height : Nat) (bindings : Nat → Option Nat) :
    Call → (Nat → Option Nat) → Prop where
  | kept {call : Call} {bindings' : Nat → Option Nat} (same : SameEntries bindings bindings') :
      EntryEffect state height bindings call bindings'
  | made {call : Call} {path : Option CString} {parent : Nat} {name : CString}
      {bindings' : Nat → Option Nat} (asks : call = .mkdir path ∨ call = .createFile path)
      (target : parentOf state path = .ok (some (parent, name)))
      (room : state.yafs.device.nextFreeBlock < ramdiskBlocks)
      (unbound : bindings (dirEntryKey parent name) = none)
      (record : bindings' (inodeKey state.nextIno) ≠ none)
      (same : SameEntries
        (update bindings (dirEntryKey parent name) (some state.nextIno)) bindings') :
      EntryEffect state height bindings call bindings'
  /-- A `mkdir` of a name that is there. -/
  | overwritten {path : Option CString} {parent : Nat} {name : CString}
      {bindings' : Nat → Option Nat}
      (target : parentOf state path = .ok (some (parent, name)))
      (bound : bindings (dirEntryKey parent name) ≠ none)
      (fits : state.yafs.device.nextFreeBlock +
        mkdirOverwriteCost state.yafs height state.nextIno ≤ ramdiskBlocks)
      (room : state.yafs.device.nextFreeBlock < ramdiskBlocks)
      (same : SameEntries
        (update bindings (dirEntryKey parent name) (some state.nextIno)) bindings') :
      EntryEffect state height bindings (.mkdir path) bindings'
  | removed {call : Call} {path : Option CString} {parent : Nat} {name : CString}
      {bindings' : Nat → Option Nat} (asks : call = .unlink path ∨ call = .rmdir path)
      (target : parentOf state path = .ok (some (parent, name)))
      (bound : bindings (dirEntryKey parent name) ≠ none)
      (fits : state.yafs.device.nextFreeBlock + (height + 1) ≤ ramdiskBlocks)
      (same : SameEntries (update bindings (dirEntryKey parent name) none) bindings') :
      EntryEffect state height bindings call bindings'
  /-- A `rename` that has put the new entry in and leaves the old one. -/
  | doubled {oldPath newPath : Option CString} {oldParent newParent : Nat}
      {oldName newName : CString} {child : Nat} {bindings' : Nat → Option Nat}
      (source : parentOf state oldPath = .ok (some (oldParent, oldName)))
      (target : parentOf state newPath = .ok (some (newParent, newName)))
      (bound : bindings (dirEntryKey oldParent oldName) = some child)
      (unclean : ¬ MovesCleanly state.yafs height bindings (dirEntryKey oldParent oldName)
        (dirEntryKey newParent newName))
      (same : SameEntries
        (update bindings (dirEntryKey newParent newName) (some child)) bindings') :
      EntryEffect state height bindings (.rename oldPath newPath) bindings'
  | moved {oldPath newPath : Option CString} {oldParent newParent : Nat}
      {oldName newName : CString} {child : Nat} {bindings' : Nat → Option Nat}
      (source : parentOf state oldPath = .ok (some (oldParent, oldName)))
      (target : parentOf state newPath = .ok (some (newParent, newName)))
      (bound : bindings (dirEntryKey oldParent oldName) = some child)
      (unbound : bindings (dirEntryKey newParent newName) = none)
      (fits : state.yafs.device.nextFreeBlock +
        (insertCost state.yafs height (dirEntryKey newParent newName) +
          (insertHeight state.yafs height (dirEntryKey newParent newName) + 1)) ≤ ramdiskBlocks)
      (same : SameEntries (update (update bindings
        (dirEntryKey newParent newName) (some child)) (dirEntryKey oldParent oldName) none)
        bindings') :
      EntryEffect state height bindings (.rename oldPath newPath) bindings'

/-- How a call ends that leaves the entries as `EntryEffect` says. -/
def Performed (state : State) (height : Nat) (bindings : Nat → Option Nat) (call : Call)
    (after : State) : Prop :=
  ∃ height' bindings', Inv after height' bindings' ∧ KeepsRecords bindings bindings' ∧
    EntryEffect state height bindings call bindings'

variable {state : State} {height : Nat} {bindings : Nat → Option Nat}

theorem Inv.resolve_eq (inv : Inv state height bindings) (parent : Nat) (name : CString) :
    resolve state parent name = .ok (entryIn bindings parent name) :=
  inv.yafs.rep.lookupName_eq parent name

theorem Inv.named_ne_next (inv : Inv state height bindings)
    (room : state.yafs.device.nextFreeBlock < ramdiskBlocks) {key inode : Nat}
    (tag : keyTag key = ksDirEntry) (bound : bindings key = some inode) :
    inodeKey inode ≠ inodeKey state.nextIno := by
  obtain ⟨_, _, whole, _⟩ := (inv.fresh room).next room
  have less := (inv.fresh room).entry tag bound
  rw [whole, inodeKey_eq]
  have := Nat.mod_le inode (2 ^ 60)
  omega

theorem Inv.freeBlocks_eq (inv : Inv state height bindings) :
    state.yafs.device.nextFreeBlock + freeBlocks state.yafs.device = ramdiskBlocks := by
  have := inv.yafs.rep.limit
  unfold freeBlocks
  omega

theorem Fresh.relink {nextIno next next' oldKey newKey child : Nat}
    (fresh : Fresh nextIno next bindings) (le : next ≤ next')
    (isEntry : keyTag newKey = ksDirEntry) (oldEntry : keyTag oldKey = ksDirEntry)
    (source : bindings oldKey = some child) :
    Fresh nextIno next' (update bindings newKey (some child)) := by
  refine fresh.frame le ?_ ?_
  · intro key tag bound
    have apart : key ≠ newKey := key_ne_of_tag (by rw [tag, isEntry]; decide)
    rwa [update_of_ne apart] at bound
  · intro key inode tag bound
    by_cases same : key = newKey
    · subst same
      rw [update_self] at bound
      exact ⟨oldKey, oldEntry, bound ▸ source⟩
    · rw [update_of_ne same] at bound
      exact ⟨key, tag, bound⟩

theorem Fresh.unlink {nextIno next next' key : Nat} (fresh : Fresh nextIno next bindings)
    (le : next ≤ next') : Fresh nextIno next' (update bindings key none) := by
  refine fresh.frame le ?_ ?_
  · intro other _ bound
    by_cases same : other = key
    · simp [same] at bound
    · rwa [update_of_ne same] at bound
  · intro other child tag bound
    by_cases same : other = key
    · simp [same] at bound
    · rw [update_of_ne same] at bound
      exact ⟨other, tag, bound⟩

theorem Performed.of_names {after : State} {height' : Nat} {bindings' : Nat → Option Nat}
    (inv' : Inv after height' bindings')
    (names : ∀ key, keyTag key ≠ ksExtent → bindings' key = bindings key) (call : Call) :
    Performed state height bindings call after := by
  refine ⟨height', bindings', inv', ?_, .kept fun key tag => names key (by rw [tag]; decide)⟩
  intro key inode tag bound record
  rwa [names _ (by rw [keyTag_inodeKey]; decide)]

theorem keepsRecords_update {bindings' : Nat → Option Nat}
    (agrees : ∀ key, keyTag key ≠ ksDirEntry → bindings' key = bindings key) :
    KeepsRecords bindings bindings' := by
  intro key inode tag bound record
  rwa [agrees _ (by rw [keyTag_inodeKey]; decide)]

theorem update_otherTag {key : Nat} (isEntry : keyTag key = ksDirEntry) (value : Option Nat)
    (other : Nat) (tag : keyTag other ≠ ksDirEntry) :
    update bindings key value other = bindings other :=
  update_of_ne (key_ne_of_tag (by rwa [isEntry])) _ _

variable {yafs : BtreeState}

section

variable (inv : Inv state height bindings)

include inv

theorem Inv.make {call : Call} {path : Option CString} {parent : Nat} {name : CString} {ok : Bool}
    (asks : call = .mkdir path ∨ call = .createFile path ∧
      bindings (dirEntryKey parent name) = none)
    (target : parentOf state path = .ok (some (parent, name)))
    (outcome :
      MakeOutcome state.yafs height bindings (dirEntryKey parent name) state.nextIno (yafs, ok)) :
    Performed state height bindings call { state.takeIno with yafs } := by
  generalize whole : (yafs, ok) = pair at outcome
  have isEntry := keyTag_dirEntryKey parent name
  cases outcome with
  | full yafsInv frame rooted agrees used short =>
    obtain ⟨rfl, _⟩ := Prod.mk.inj whole
    refine ⟨_, _, ⟨yafsInv, fun room => absurd room (by simp only [used]; omega)⟩, ?_, .kept ?_⟩
    · intro key inode tag bound record
      rwa [agrees _ fun room => inv.named_ne_next room tag bound]
    · intro key tag
      exact agrees key fun _ => key_ne_of_tag (by rw [tag, keyTag_inodeKey]; decide)
  | overwritten bound fits yafsInv frame rooted grown entry agrees =>
    obtain ⟨rfl, _⟩ := Prod.mk.inj whole
    have room : state.yafs.device.nextFreeBlock < ramdiskBlocks :=
      Nat.lt_of_lt_of_le grown yafsInv.rep.limit
    obtain rfl | ⟨_, unbound⟩ := asks
    · refine ⟨_, _, ⟨yafsInv, fun roomAfter => ?_⟩, ?_, .overwritten target bound fits room ?_⟩
      · refine (inv.fresh room).taken room grown _ agrees isEntry fun inode bound => ?_
        rw [entry] at bound
        exact .inl (Option.some.inj bound).symm
      · intro key inode tag bound record
        rwa [agrees _ (inv.named_ne_next room tag bound) (inodeKey_ne_dirEntryKey _ _ _)]
      · intro key tag
        by_cases same : key = dirEntryKey parent name
        · rw [same, entry, update_self]
        · rw [update_of_ne same]
          exact agrees key (key_ne_of_tag (by rw [tag, keyTag_inodeKey]; decide)) same
    · exact absurd unbound bound
  | made unbound yafsInv frame rooted grown =>
    obtain ⟨rfl, _⟩ := Prod.mk.inj whole
    have room : state.yafs.device.nextFreeBlock < ramdiskBlocks :=
      Nat.lt_of_lt_of_le grown yafsInv.rep.limit
    refine ⟨_, _, ⟨yafsInv, fun roomAfter => ?_⟩, ?_,
      .made (asks.imp_right And.left) target room unbound ?_ ?_⟩
    · refine (inv.fresh room).taken room grown _ (fun other notInode notDir => ?_) isEntry
        fun inode bound => ?_
      · rw [update_of_ne notDir, update_of_ne notInode]
      · rw [update_self] at bound
        exact .inl (Option.some.inj bound).symm
    · intro key inode tag bound record
      rwa [update_of_ne (inodeKey_ne_dirEntryKey _ _ _),
        update_of_ne (inv.named_ne_next room tag bound)]
    · rw [update_of_ne (inodeKey_ne_dirEntryKey _ _ _), update_self]
      exact Option.some_ne_none _
    · intro key tag
      have apart : key ≠ inodeKey state.nextIno :=
        key_ne_of_tag (by rw [tag, keyTag_inodeKey]; decide)
      by_cases same : key = dirEntryKey parent name
      · rw [same, update_self, update_self]
      · rw [update_of_ne same, update_of_ne same, update_of_ne apart]

theorem Inv.unlinked {call : Call} {path : Option CString} {parent : Nat} {name : CString}
    {ok : Bool}
    (asks : call = .unlink path ∨ call = .rmdir path)
    (target : parentOf state path = .ok (some (parent, name)))
    (outcome : UnlinkOutcome state.yafs height bindings (dirEntryKey parent name) (yafs, ok)) :
    Performed state height bindings call { state with yafs } := by
  generalize whole : (yafs, ok) = pair at outcome
  cases outcome with
  | missing unbound =>
    obtain ⟨rfl, _⟩ := Prod.mk.inj whole
    exact .of_names inv (fun _ _ => rfl) call
  | full bound frame used =>
    obtain ⟨rfl, _⟩ := Prod.mk.inj whole
    have yafsInv := inv.yafs.frame frame.keepsKinds (Nat.le_of_eq used)
    exact .of_names (inv.sameNames yafsInv frame.next_le fun _ _ => rfl) (fun _ _ => rfl) call
  | removed bound fits frame rooted yafsInv =>
    obtain ⟨rfl, _⟩ := Prod.mk.inj whole
    refine ⟨height, _, ⟨yafsInv, fun room => ?_⟩,
      keepsRecords_update (update_otherTag (keyTag_dirEntryKey parent name) none),
      .removed asks target bound fits fun _ _ => rfl⟩
    exact (inv.fresh (Nat.lt_of_le_of_lt frame.next_le room)).unlink frame.next_le

theorem Inv.renamed {oldPath newPath : Option CString}
    {oldParent newParent : Nat} {oldName newName : CString} {ok : Bool}
    (source : parentOf state oldPath = .ok (some (oldParent, oldName)))
    (target : parentOf state newPath = .ok (some (newParent, newName)))
    (outcome : RenameOutcome state.yafs height bindings (dirEntryKey oldParent oldName)
      (dirEntryKey newParent newName) (yafs, ok)) :
    Performed state height bindings (.rename oldPath newPath) { state with yafs } := by
  have oldEntry := keyTag_dirEntryKey oldParent oldName
  have newEntry := keyTag_dirEntryKey newParent newName
  have free := inv.freeBlocks_eq
  generalize whole : (yafs, ok) = pair at outcome
  cases outcome with
  | missing unbound =>
    obtain ⟨rfl, _⟩ := Prod.mk.inj whole
    exact .of_names inv (fun _ _ => rfl) _
  | full bound frame used short =>
    obtain ⟨rfl, _⟩ := Prod.mk.inj whole
    have yafsInv := inv.yafs.frame frame.keepsKinds (Nat.le_of_eq used)
    exact .of_names (inv.sameNames yafsInv frame.next_le fun _ _ => rfl) (fun _ _ => rfl) _
  | @overwritten _ child old bound taken fits frame rooted yafsInv =>
    obtain ⟨rfl, _⟩ := Prod.mk.inj whole
    have afterInv : Inv { state with yafs } _ _ := ⟨yafsInv, fun room =>
      (inv.fresh (Nat.lt_of_le_of_lt frame.next_le room)).relink frame.next_le newEntry oldEntry
        bound⟩
    refine ⟨_, _, afterInv, keepsRecords_update (update_otherTag newEntry _), ?_⟩
    by_cases same : old = child
    · rw [← same, ← taken, update_eq_self]
      exact .kept fun _ _ => rfl
    · refine .doubled source target bound (fun cleanly => ?_) fun _ _ => rfl
      have := cleanly child bound
      rw [taken] at this
      exact this.elim same fun short => by omega
  | @stuck _ _ child bound unbound fits short frame rooted used yafsInv =>
    obtain ⟨rfl, _⟩ := Prod.mk.inj whole
    refine ⟨_, _, ⟨yafsInv, fun room => absurd room (by simp only [used]; omega)⟩,
      keepsRecords_update (update_otherTag newEntry _),
      .doubled source target bound (fun cleanly => ?_) fun _ _ => rfl⟩
    have := cleanly child bound
    rw [unbound] at this
    simp only at this
    omega
  | moved bound unbound fits keeps rooted yafsInv =>
    obtain ⟨rfl, _⟩ := Prod.mk.inj whole
    refine ⟨_, _, ⟨yafsInv, fun room => ?_⟩, keepsRecords_update fun key tag => ?_,
      .moved source target bound unbound fits fun _ _ => rfl⟩
    · exact ((inv.fresh (Nat.lt_of_le_of_lt keeps.next_le room)).relink keeps.next_le newEntry
        oldEntry bound).unlink (Nat.le_refl _)
    · rw [update_otherTag oldEntry _ key tag, update_otherTag newEntry _ key tag]

theorem perform_effect (call : Call) :
    ∃ out, perform state call = .ok out ∧ Performed state height bindings call out.1 := by
  have unchanged : ∀ call, Performed state height bindings call state :=
    fun call => .of_names inv (fun _ _ => rfl) call
  have sameNames : ∀ {out : State × Bool}, SameNames bindings out → ∀ call,
      Performed state height bindings call out.1 := by
    rintro out ⟨height', bindings', inv', names⟩ call
    exact .of_names inv' names call
  have unlinks : ∀ path, ∃ out, unlink state path = .ok out ∧ ∀ call,
      call = .unlink path ∨ call = .rmdir path → Performed state height bindings call out.1 := by
    intro path
    obtain ⟨out, ran, outcome⟩ := unlink_spec inv path
    refine ⟨out, ran, fun call asks => ?_⟩
    cases outcome with
    | refused => exact unchanged call
    | ran target outcome =>
      obtain ⟨yafs, ok, rfl, outcome⟩ := outcome
      exact inv.unlinked asks target outcome
  cases call with
  | mkdir path =>
    obtain ⟨out, ran, outcome⟩ := mkdir_spec inv path
    refine ⟨out, ran, ?_⟩
    cases outcome with
    | refused => exact unchanged _
    | ran target outcome =>
      obtain ⟨yafs, ok, rfl, outcome⟩ := outcome
      exact inv.make (.inl rfl) target outcome
  | createFile path =>
    obtain ⟨out, ran, outcome⟩ := createFileYafs_spec inv path
    refine ⟨out, ran, ?_⟩
    cases outcome with
    | refused => exact unchanged _
    | ran target outcome =>
      obtain ⟨_, rfl⟩ | ⟨unbound, yafs, ok, rfl, outcome⟩ := outcome
      · exact unchanged _
      · exact inv.make (.inr ⟨rfl, unbound⟩) target outcome
  | unlink path =>
    obtain ⟨out, ran, performed⟩ := unlinks path
    exact ⟨out, ran, performed _ (.inl rfl)⟩
  | rmdir path =>
    obtain ⟨out, ran, performed⟩ := unlinks path
    exact ⟨out, ran, performed _ (.inr rfl)⟩
  | rename oldPath newPath =>
    obtain ⟨out, ran, outcome⟩ := rename_spec inv oldPath newPath
    refine ⟨out, ran, ?_⟩
    cases outcome with
    | refused => exact unchanged _
    | ran source target outcome => exact inv.renamed source target outcome
  | write inode buf offset =>
    obtain ⟨out, ran, same⟩ := writeFile_spec inv inode buf offset
    exact ⟨out, ran, sameNames same _⟩
  | truncate inode =>
    obtain ⟨out, ran, same⟩ := truncate_spec inv inode
    exact ⟨out, ran, sameNames same _⟩
  | chmod euid path mode =>
    obtain ⟨out, ran, same⟩ := editInode_spec inv path _ _
    exact ⟨out, ran, sameNames same _⟩
  | chown euid path uid gid =>
    obtain ⟨out, ran, same⟩ := editInode_spec inv path _ _
    exact ⟨out, ran, sameNames same _⟩

/-- Every call has the effect that is listed for it. -/
theorem VfsStep.effect {call : Call} {after : State}
    (step : VfsStep state call after) : Performed state height bindings call after := by
  obtain ⟨ok, ran⟩ := step
  obtain ⟨out, ranToo, performed⟩ := perform_effect inv call
  obtain rfl := Except.ok.inj (ranToo.symm.trans ran)
  exact performed

end

theorem perform_sound (sound : Sound state) (call : Call) :
    ∃ out, perform state call = .ok out ∧ Sound out.1 := by
  obtain ⟨height, bindings, inv⟩ := sound
  obtain ⟨out, ran, height', bindings', inv', _⟩ := perform_effect inv call
  exact ⟨out, ran, height', bindings', inv'⟩

/-- By `VfsStep.effect`, over a whole run. -/
theorem steps_sound {start : State} {calls : List Call} (sound : Sound start)
    (run : Steps VfsStep start calls state) : Sound state := by
  refine run.invariant Sound ?_ sound
  rintro before call after beforeSound ⟨ok, ran⟩
  obtain ⟨out, ranToo, outSound⟩ := perform_sound beforeSound call
  obtain rfl := Except.ok.inj (ranToo.symm.trans ran)
  exact outSound

end M4KK1.Vfs
