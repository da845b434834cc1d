import M4KK1.Vfs.Boot

/-!
# Refused calls and the directory entries

An insert overwrites before its caller sees that the key was taken (`Meets`).
-/

namespace M4KK1.Vfs

open Lib Yafs Function

def InodePresent (state : State) (inode : Nat) : Prop :=
  ∃ lba, btreeLookup state.yafs.device state.yafs.rootLba (inodeKey inode) = .ok (some lba)

/-- Every name resolves as before, to an inode number whose key is still there. -/
structure EntriesIntact (before after : State) : Prop where
  resolves : ∀ parent name, resolve after parent name = resolve before parent name
  inodes : ∀ parent name inode, resolve before parent name = .ok inode → inode ≠ 0 →
    InodePresent before inode → InodePresent after inode

/-- Every name leads to an inode that is there. -/
def EntriesHaveInodes (state : State) : Prop :=
  ∀ parent name inode, resolve state parent name = .ok inode → inode ≠ 0 →
    InodePresent state inode

/-- The name is free, or there is no room to get as far as the entry; a `rename` also does not run
out of blocks before its delete. -/
def Meets (state : State) : Call → Prop
  | .mkdir path => ∀ parent name, parentOf state path = .ok (some (parent, name)) →
      resolve state parent name ≠ .ok 0 →
      freeBlocks state.yafs.device <
        mkdirOverwriteCost state.yafs (btreeHeight state.yafs) state.nextIno
  | .rename oldPath newPath => ∀ oldParent oldName newParent newName child target,
      parentOf state oldPath = .ok (some (oldParent, oldName)) →
      parentOf state newPath = .ok (some (newParent, newName)) →
      resolve state oldParent oldName = .ok child → child ≠ 0 →
      resolve state newParent newName = .ok target →
      if target = 0 then
        freeBlocks state.yafs.device <
            insertCost state.yafs (btreeHeight state.yafs) (dirEntryKey newParent newName) ∨
          insertCost state.yafs (btreeHeight state.yafs) (dirEntryKey newParent newName) +
            (insertHeight state.yafs (btreeHeight state.yafs) (dirEntryKey newParent newName) + 1) ≤
            freeBlocks state.yafs.device
      else target = child ∨ freeBlocks state.yafs.device < btreeHeight state.yafs + 1
  | _ => True

variable {before after : State} {height height' : Nat} {bindings bindings' : Nat → Option Nat}

section

variable (inv : Inv before height bindings)

include inv

theorem Inv.inodePresent_iff (inode : Nat) :
    InodePresent before inode ↔ bindings (inodeKey inode) ≠ none := by
  unfold InodePresent
  rw [inv.yafs.rep.lookup, Option.ne_none_iff_exists']
  constructor
  · rintro ⟨lba, found⟩
    exact ⟨lba, Except.ok.inj found⟩
  · rintro ⟨lba, found⟩
    exact ⟨lba, by rw [found]⟩

theorem entriesIntact_iff (inv' : Inv after height' bindings') : EntriesIntact before after ↔
      (∀ parent name, entryIn bindings' parent name = entryIn bindings parent name) ∧
      ∀ parent name, entryIn bindings parent name ≠ 0 →
        bindings (inodeKey (entryIn bindings parent name)) ≠ none →
        bindings' (inodeKey (entryIn bindings parent name)) ≠ none := by
  constructor
  · rintro ⟨resolves, inodes⟩
    constructor
    · intro parent name
      have same := resolves parent name
      rw [inv.resolve_eq, inv'.resolve_eq] at same
      exact Except.ok.inj same
    · intro parent name live bound
      rw [← inv'.inodePresent_iff]
      exact inodes parent name _ (inv.resolve_eq parent name) live
        ((inv.inodePresent_iff _).mpr bound)
  · rintro ⟨resolves, inodes⟩
    constructor
    · intro parent name
      rw [inv.resolve_eq, inv'.resolve_eq, resolves]
    · intro parent name inode found live present
      rw [inv.resolve_eq] at found
      obtain rfl := Except.ok.inj found
      rw [inv.inodePresent_iff] at present
      rw [inv'.inodePresent_iff]
      exact inodes parent name live present

theorem EntriesIntact.of_agree (inv' : Inv after height' bindings')
    (names : ∀ key, keyTag key = ksDirEntry → bindings' key = bindings key)
    (inodes : ∀ parent name, entryIn bindings parent name ≠ 0 →
      bindings' (inodeKey (entryIn bindings parent name)) =
        bindings (inodeKey (entryIn bindings parent name))) : EntriesIntact before after := by
  rw [entriesIntact_iff inv inv']
  refine ⟨fun parent name => ?_, fun parent name live bound => ?_⟩
  · rw [entryIn, entryIn, names _ (keyTag_dirEntryKey parent name)]
  · rwa [inodes parent name live]

theorem EntriesIntact.refl : EntriesIntact before before :=
  .of_agree inv inv (fun _ _ => rfl) fun _ _ _ => rfl

end

variable {yafs : BtreeState}

section

variable (inv : Inv before height bindings)

include inv

theorem make_intact_iff {parent : Nat} {name : CString} {ok : Bool}
    (outcome : MakeOutcome before.yafs height bindings (dirEntryKey parent name) before.nextIno
      (yafs, ok)) :
    (ok = false → EntriesIntact before { before.takeIno with yafs }) ↔
    (entryIn bindings parent name ≠ 0 →
        freeBlocks before.yafs.device < mkdirOverwriteCost before.yafs height before.nextIno) := by
  have free := inv.freeBlocks_eq
  generalize whole : (yafs, ok) = pair at outcome
  cases outcome with
  | full yafsInv frame rooted agrees used short =>
    obtain ⟨rfl, rfl⟩ := Prod.mk.inj whole
    have afterInv : Inv { before.takeIno with yafs } _ _ :=
      ⟨yafsInv, fun room => absurd room (by simp only [used]; omega)⟩
    constructor
    · intro _ live
      have := short (mt (inv.yafs.filed.entryIn_eq_zero parent name).mpr live)
      omega
    · intro _ _
      refine .of_agree inv afterInv (fun key tag => agrees key fun _ => ?_) ?_
      · exact key_ne_of_tag (by rw [tag, keyTag_inodeKey]; decide)
      · intro parent name live
        exact agrees _ fun room =>
          inv.named_ne_next room (keyTag_dirEntryKey parent name) (entryIn_bound live)
  | overwritten bound fits yafsInv frame rooted grown entry agrees =>
    obtain ⟨rfl, rfl⟩ := Prod.mk.inj whole
    have live := mt (inv.yafs.filed.entryIn_eq_zero parent name).mp bound
    constructor
    · intro intact
      have same := (intact rfl).resolves parent name
      have newName : lookupName yafs.device yafs.rootLba parent name = .ok before.nextIno := by
        rw [yafsInv.rep.lookupName_eq, entryIn, entry, Option.getD_some]
      have room : before.yafs.device.nextFreeBlock < ramdiskBlocks := by
        have := yafsInv.rep.limit
        omega
      obtain ⟨old, oldBound⟩ := Option.ne_none_iff_exists'.mp bound
      have less := (inv.fresh room).entry (keyTag_dirEntryKey parent name) oldBound
      rw [inv.resolve_eq, resolve, newName, entryIn, oldBound, Option.getD_some] at same
      have := Except.ok.inj same
      omega
    · intro clean
      have := clean live
      omega
  | made unbound yafsInv frame rooted grown =>
    obtain ⟨rfl, rfl⟩ := Prod.mk.inj whole
    constructor
    · intro _ live
      exact absurd ((inv.yafs.filed.entryIn_eq_zero parent name).mpr unbound) live
    · intro _ failed
      cases failed

theorem relink_intact_iff {child : Nat}
    {parent : Nat} {name : CString} (positive : 0 < child)
    (inv' : Inv { before with yafs } height'
      (update bindings (dirEntryKey parent name) (some child))) :
    EntriesIntact before { before with yafs } ↔
      bindings (dirEntryKey parent name) = some child := by
  constructor
  · intro intact
    have same := ((entriesIntact_iff inv inv').mp intact).1 parent name
    unfold entryIn at same
    rw [update_self, Option.getD_some] at same
    cases old : bindings (dirEntryKey parent name) with
    | none =>
      rw [old, Option.getD_none] at same
      omega
    | some target =>
      rw [old, Option.getD_some] at same
      rw [same]
  · intro bound
    rw [← bound, update_eq_self] at inv'
    exact .of_agree inv inv' (fun _ _ => rfl) fun _ _ _ => rfl

theorem rename_intact_iff {oldParent newParent : Nat} {oldName newName : CString} {ok : Bool}
    (outcome : RenameOutcome before.yafs height bindings (dirEntryKey oldParent oldName)
      (dirEntryKey newParent newName) (yafs, ok)) :
    (ok = false → EntriesIntact before { before with yafs }) ↔
      MovesCleanly before.yafs height bindings (dirEntryKey oldParent oldName)
        (dirEntryKey newParent newName) := by
  have free := inv.freeBlocks_eq
  have newTag := keyTag_dirEntryKey newParent newName
  have oldTag := keyTag_dirEntryKey oldParent oldName
  generalize whole : (yafs, ok) = pair at outcome
  unfold MovesCleanly
  cases outcome with
  | missing unbound =>
    obtain ⟨rfl, rfl⟩ := Prod.mk.inj whole
    refine ⟨fun _ child source => ?_, fun _ _ => .refl inv⟩
    rw [unbound] at source
    cases source
  | full bound frame used short =>
    obtain ⟨rfl, rfl⟩ := Prod.mk.inj whole
    have afterInv := inv.sameNames (inv.yafs.frame frame.keepsKinds (Nat.le_of_eq used))
      frame.next_le fun _ _ => rfl
    refine ⟨fun _ child source => ?_, fun _ _ =>
      .of_agree inv afterInv (fun _ _ => rfl) fun _ _ _ => rfl⟩
    cases target : bindings (dirEntryKey newParent newName) with
    | none => exact .inl (by omega)
    | some value =>
      have cost := (inv.yafs.rep.insertCost_bound
        (show bindings (dirEntryKey newParent newName) ≠ none by simp [target])).1
      exact .inr (by omega)
  | @overwritten _ child old source bound fits frame rooted yafsInv =>
    obtain ⟨rfl, rfl⟩ := Prod.mk.inj whole
    have positive := (inv.yafs.filed.entry oldTag source).1
    have afterInv : Inv { before with yafs } _ _ := ⟨yafsInv, fun room =>
      (inv.fresh (Nat.lt_of_le_of_lt frame.next_le room)).relink frame.next_le newTag oldTag
        source⟩
    rw [relink_intact_iff inv positive afterInv]
    constructor
    · intro same child' source'
      obtain rfl := Option.some.inj (source'.symm.trans source)
      rw [same rfl]
      exact .inl rfl
    · intro clean _
      have := clean child source
      rw [bound] at this ⊢
      rcases this with same | short
      · rw [same]
      · omega
  | @stuck _ height'' child source unbound fits short frame rooted used yafsInv =>
    obtain ⟨rfl, rfl⟩ := Prod.mk.inj whole
    have positive := (inv.yafs.filed.entry oldTag source).1
    have afterInv : Inv { before with yafs } _ _ :=
      ⟨yafsInv, fun room => absurd room (by simp only [used]; omega)⟩
    rw [relink_intact_iff inv positive afterInv, unbound]
    constructor
    · intro same
      cases same rfl
    · intro clean
      have := clean child source
      simp only at this
      omega
  | moved source unbound fits keeps rooted yafsInv =>
    obtain ⟨rfl, rfl⟩ := Prod.mk.inj whole
    refine ⟨fun _ child _ => ?_, fun _ failed => nomatch failed⟩
    rw [unbound]
    exact .inr (by omega)

theorem meets_rename_iff {oldPath newPath : Option CString}
    {oldParent newParent : Nat} {oldName newName : CString}
    (source : parentOf before oldPath = .ok (some (oldParent, oldName)))
    (target : parentOf before newPath = .ok (some (newParent, newName))) :
    Meets before (.rename oldPath newPath) ↔
      MovesCleanly before.yafs height bindings (dirEntryKey oldParent oldName)
        (dirEntryKey newParent newName) := by
  unfold Meets MovesCleanly
  rw [inv.yafs.rep.btreeHeight_eq]
  have newZero := inv.yafs.filed.entryIn_eq_zero newParent newName
  constructor
  · intro meets child bound
    have live := (inv.yafs.filed.entry (keyTag_dirEntryKey oldParent oldName) bound).1
    have holds := meets oldParent oldName newParent newName child
      (entryIn bindings newParent newName) source target
      (by rw [inv.resolve_eq, entryIn, bound, Option.getD_some]) (by omega)
      (inv.resolve_eq newParent newName)
    cases new : bindings (dirEntryKey newParent newName) with
    | none => rwa [if_pos (newZero.mpr new)] at holds
    | some value =>
      rw [if_neg (mt newZero.mp (by simp [new]))] at holds
      simpa [entryIn, new] using holds
  · intro cleanly oldParent' oldName' newParent' newName' child value source' target' found live
      foundNew
    obtain ⟨rfl, rfl⟩ := Prod.mk.inj (Option.some.inj (Except.ok.inj (source.symm.trans source')))
    obtain ⟨rfl, rfl⟩ := Prod.mk.inj (Option.some.inj (Except.ok.inj (target.symm.trans target')))
    rw [inv.resolve_eq] at found foundNew
    obtain rfl := Except.ok.inj found
    obtain rfl := Except.ok.inj foundNew
    obtain ⟨child, bound⟩ := Option.ne_none_iff_exists'.mp
      (mt (inv.yafs.filed.entryIn_eq_zero oldParent oldName).mpr live)
    have holds := cleanly child bound
    cases new : bindings (dirEntryKey newParent newName) with
    | none =>
      rw [if_pos (newZero.mpr new)]
      rwa [new] at holds
    | some value =>
      rw [if_neg (mt newZero.mp (by simp [new]))]
      rw [new] at holds
      simpa [entryIn, new, bound] using holds

theorem meets_mkdir_iff {path : Option CString} {parent : Nat}
    {name : CString} (target : parentOf before path = .ok (some (parent, name))) :
    Meets before (.mkdir path) ↔ (entryIn bindings parent name ≠ 0 → freeBlocks before.yafs.device <
        mkdirOverwriteCost before.yafs height before.nextIno) := by
  unfold Meets
  rw [inv.yafs.rep.btreeHeight_eq]
  constructor
  · intro meets live
    refine meets parent name target fun zero => live ?_
    rw [inv.resolve_eq] at zero
    exact Except.ok.inj zero
  · intro clean parent' name' target' live
    obtain ⟨rfl, rfl⟩ := Prod.mk.inj (Option.some.inj (Except.ok.inj (target.symm.trans target')))
    refine clean fun zero => live ?_
    rw [inv.resolve_eq, zero]

theorem SameNames.intact {out : State × Bool}
    (same : SameNames bindings out) : EntriesIntact before out.1 := by
  obtain ⟨height', bindings', inv', names⟩ := same
  refine .of_agree inv inv' (fun key tag => names key ?_) fun _ _ _ => names _ ?_
  · rw [tag]
    decide
  · rw [keyTag_inodeKey]
    decide

theorem unlink_intact (path : Option CString) :
    ∃ after ok, unlink before path = .ok (after, ok) ∧
      (ok = false → EntriesIntact before after) := by
  obtain ⟨⟨after, ok⟩, ran, outcome⟩ := unlink_spec inv path
  refine ⟨after, ok, ran, ?_⟩
  cases outcome with
  | refused => exact fun _ => .refl inv
  | ran target outcome =>
    obtain ⟨yafs, ok', whole, outcome⟩ := outcome
    obtain ⟨rfl, rfl⟩ := Prod.mk.inj whole
    rintro rfl
    generalize pair : (yafs, false) = out at outcome
    cases outcome with
    | missing =>
      obtain ⟨rfl, _⟩ := Prod.mk.inj pair
      exact .refl inv
    | full bound frame used short =>
      obtain ⟨rfl, _⟩ := Prod.mk.inj pair
      have yafsInv := inv.yafs.frame frame.keepsKinds (Nat.le_of_eq used)
      exact .of_agree inv (inv.sameNames yafsInv frame.next_le fun _ _ => rfl) (fun _ _ => rfl)
        fun _ _ _ => rfl
    | removed => cases pair

theorem perform_intact_iff (call : Call) : ∃ after ok, perform before call = .ok (after, ok) ∧
      ((ok = false → EntriesIntact before after) ↔ Meets before call) := by
  have nowhere : ∀ {path : Option CString} {parent : Nat} {name : CString},
      parentOf before path = .ok none → parentOf before path ≠ .ok (some (parent, name)) := by
    intro path parent name none some
    cases none.symm.trans some
  cases call with
  | mkdir path =>
    obtain ⟨⟨after, ok⟩, ran, outcome⟩ := mkdir_spec inv path
    refine ⟨after, ok, ran, ?_⟩
    cases outcome with
    | refused none =>
      exact ⟨fun _ _ _ target => absurd target (nowhere none), fun _ _ => .refl inv⟩
    | ran target outcome =>
      obtain ⟨yafs, ok', whole, outcome⟩ := outcome
      obtain ⟨rfl, rfl⟩ := Prod.mk.inj whole
      rw [make_intact_iff inv outcome, meets_mkdir_iff inv target]
  | createFile path =>
    obtain ⟨⟨after, ok⟩, ran, outcome⟩ := createFileYafs_spec inv path
    refine ⟨after, ok, ran, iff_of_true ?_ trivial⟩
    cases outcome with
    | refused => exact fun _ => .refl inv
    | ran target outcome =>
      obtain ⟨_, whole⟩ | ⟨unbound, yafs, ok', whole, outcome⟩ := outcome
      · obtain ⟨rfl, rfl⟩ := Prod.mk.inj whole
        exact fun _ => .refl inv
      · obtain ⟨rfl, rfl⟩ := Prod.mk.inj whole
        rw [make_intact_iff inv outcome]
        intro live
        exact absurd ((inv.yafs.filed.entryIn_eq_zero _ _).mpr unbound) live
  | unlink path =>
    obtain ⟨after, ok, ran, intact⟩ := unlink_intact inv path
    exact ⟨after, ok, ran, iff_of_true intact trivial⟩
  | rmdir path =>
    obtain ⟨after, ok, ran, intact⟩ := unlink_intact inv path
    exact ⟨after, ok, ran, iff_of_true intact trivial⟩
  | rename oldPath newPath =>
    obtain ⟨⟨after, ok⟩, ran, outcome⟩ := rename_spec inv oldPath newPath
    refine ⟨after, ok, ran, ?_⟩
    cases outcome with
    | refused none =>
      refine ⟨fun _ => ?_, fun _ _ => .refl inv⟩
      intro oldParent oldName newParent newName child target source toward
      rcases none with none | none
      · exact absurd source (nowhere none)
      · exact absurd toward (nowhere none)
    | ran source target outcome =>
      rw [rename_intact_iff inv outcome, meets_rename_iff inv source target]
  | write inode buf offset =>
    obtain ⟨⟨after, ok⟩, ran, same⟩ := writeFile_spec inv inode buf offset
    exact ⟨after, ok, ran, iff_of_true (fun _ => same.intact inv) trivial⟩
  | truncate inode =>
    obtain ⟨⟨after, ok⟩, ran, same⟩ := truncate_spec inv inode
    exact ⟨after, ok, ran, iff_of_true (fun _ => same.intact inv) trivial⟩
  | chmod euid path mode =>
    obtain ⟨⟨after, ok⟩, ran, same⟩ := editInode_spec inv path _ _
    exact ⟨after, ok, ran, iff_of_true (fun _ => same.intact inv) trivial⟩
  | chown euid path uid gid =>
    obtain ⟨⟨after, ok⟩, ran, same⟩ := editInode_spec inv path _ _
    exact ⟨after, ok, ran, iff_of_true (fun _ => same.intact inv) trivial⟩

end

def HasRecords (bindings : Nat → Option Nat) : Prop :=
  ∀ key inode, keyTag key = ksDirEntry → bindings key = some inode →
    bindings (inodeKey inode) ≠ none

theorem HasRecords.step (records : HasRecords bindings) (keeps : KeepsRecords bindings bindings')
    (origin : ∀ key inode, keyTag key = ksDirEntry → bindings' key = some inode →
      bindings' (inodeKey inode) ≠ none ∨
        ∃ old, keyTag old = ksDirEntry ∧ bindings old = some inode) : HasRecords bindings' := by
  intro key inode tag bound
  obtain record | ⟨old, oldTag, oldBound⟩ := origin key inode tag bound
  · exact record
  · exact keeps old inode oldTag oldBound (records old inode oldTag oldBound)

theorem HasRecords.performed (inv : Inv before height bindings) {call : Call}
    (records : HasRecords bindings) (meets : Meets before call)
    (keeps : KeepsRecords bindings bindings')
    (effect : EntryEffect before height bindings call bindings') : HasRecords bindings' := by
  refine records.step keeps ?_
  intro key inode tag bound
  have updated : ∀ {entry : Nat} {value : Option Nat} {old : Nat → Option Nat},
      update old entry value key = some inode →
      value = some inode ∨ old key = some inode := by
    intro entry value old found
    by_cases same : key = entry
    · rw [same, update_self] at found
      exact .inl found
    · rw [update_of_ne same] at found
      exact .inr found
  cases effect with
  | kept same =>
    rw [same key tag] at bound
    exact .inr ⟨key, tag, bound⟩
  | made asks target room unbound record same =>
    rw [same key tag] at bound
    obtain isNew | old := updated bound
    · obtain rfl := Option.some.inj isNew
      exact .inl record
    · exact .inr ⟨key, tag, old⟩
  | overwritten target taken fits room same =>
    have short := (meets_mkdir_iff inv target).mp meets
      (mt (inv.yafs.filed.entryIn_eq_zero _ _).mp taken)
    have free := inv.freeBlocks_eq
    omega
  | removed asks target taken fits same =>
    rw [same key tag] at bound
    obtain isNone | old := updated bound
    · cases isNone
    · exact .inr ⟨key, tag, old⟩
  | doubled source target taken unclean same =>
    exact absurd ((meets_rename_iff inv source target).mp meets) unclean
  | @moved _ _ oldParent _ oldName _ child _ source target taken unbound fits same =>
    rw [same key tag] at bound
    obtain isNone | middle := updated bound
    · cases isNone
    · obtain isChild | old := updated middle
      · obtain rfl := Option.some.inj isChild
        exact .inr ⟨_, keyTag_dirEntryKey oldParent oldName, taken⟩
      · exact .inr ⟨key, tag, old⟩

/-- The invariant of runs whose calls all meet the condition. -/
def SoundRecords (state : State) : Prop :=
  ∃ height bindings, Inv state height bindings ∧ HasRecords bindings

theorem guarded_records {start state : State} {calls : List Call} (initially : SoundRecords start)
    (run : Steps (Guarded VfsStep Meets) start calls state) : SoundRecords state := by
  refine run.invariant SoundRecords ?_ initially
  rintro before call after ⟨height, bindings, inv, records⟩ ⟨meets, step⟩
  obtain ⟨height', bindings', inv', keeps, effect⟩ := step.effect inv
  exact ⟨height', bindings', inv', records.performed inv meets keeps effect⟩

theorem SoundRecords.entriesHaveInodes {state : State} (sound : SoundRecords state) :
    EntriesHaveInodes state := by
  obtain ⟨height, bindings, inv, records⟩ := sound
  intro parent name inode found live
  rw [inv.resolve_eq] at found
  obtain rfl := Except.ok.inj found
  rw [inv.inodePresent_iff]
  exact records _ _ (keyTag_dirEntryKey parent name) (entryIn_bound live)

theorem Built.hasRecords (built : Built yafs bindings fhsNames 63) : HasRecords bindings := by
  intro key inode tag bound
  have numbered := fhsFacts.numbered _ (built.mem_names tag bound)
  simp only at numbered
  have isKey : inodeKey inode = inode := by
    rw [inodeKey_eq]
    exact Nat.mod_eq_of_lt (by omega)
  rw [built.inodes _ (keyTag_inodeKey inode), isKey]
  omega

/-- A call that returns -1 leaves every entry intact exactly when `Meets` holds of it. -/
theorem refused_call_intact_iff (blocks : Nat → Block) :
    ∃ start, boot blocks = .ok start ∧
      (∀ calls state, Steps VfsStep start calls state → ∀ call, ∃ after ok,
        perform state call = .ok (after, ok) ∧
          ((ok = false → EntriesIntact state after) ↔ Meets state call)) ∧
      ∀ calls state, Steps (Guarded VfsStep Meets) start calls state →
        EntriesHaveInodes state := by
  obtain ⟨start, bindings, booted, built, next, _⟩ := boot_built blocks
  have inv := built.inv_boot next
  refine ⟨start, booted, ?_, ?_⟩
  · intro calls state run call
    obtain ⟨height', bindings', inv'⟩ := steps_sound ⟨0, bindings, inv⟩ run
    exact perform_intact_iff inv' call
  · intro calls state run
    exact (guarded_records ⟨0, bindings, inv, built.hasRecords⟩ run).entriesHaveInodes

/-- `mkdir("/bin")` returns -1 and leaves `/bin` with the inode number it had given back. -/
theorem mkdir_bin_overwrites :
    ∃ start after, boot (fun _ => .data fun _ => 0) = .ok start ∧
      perform start (.mkdir (some (cstr "/bin"))) = .ok (after, false) ∧
      resolve start 1 (cstr "bin") = .ok 2 ∧ resolve after 1 (cstr "bin") = .ok 1000 ∧
      ¬ EntriesIntact start after := by
  obtain ⟨start, bindings, booted, built, next, ready, used⟩ :=
    boot_built (fun _ => .data fun _ => 0)
  have inv := built.inv_boot next
  have entry : bindings (dirEntryKey 1 (cstr "bin")) = some 2 := by
    rw [built.names _ (keyTag_dirEntryKey 1 _)]
    exact fhsFacts.bin
  have target : parentOf start (some (cstr "/bin")) = .ok (some (1, cstr "bin")) :=
    built.parentOf_eq ready (by decide) (show pathIn fhsNames (cstr "/") = .ok 1 from rfl)
      Nat.one_ne_zero
  have old : resolve start 1 (cstr "bin") = .ok 2 := by
    rw [inv.resolve_eq, entryIn, entry, Option.getD_some]
  obtain ⟨out, ran, outcome⟩ := mkdir_spec inv (some (cstr "/bin"))
  cases outcome with
  | refused none => cases none.symm.trans target
  | ran target' outcome =>
    obtain ⟨rfl, rfl⟩ := Prod.mk.inj (Option.some.inj (Except.ok.inj (target.symm.trans target')))
    obtain ⟨yafs, ok, rfl, outcome⟩ := outcome
    generalize whole : (yafs, ok) = pair at outcome
    cases outcome with
    | full _ _ _ _ _ short =>
      have small := short (by simp [entry])
      obtain ⟨cost, sameHeight⟩ := inv.yafs.rep.insertCost_small
        (show start.yafs.device.nextFreeBlock ≤ fewBlocks by unfold fewBlocks btreeMaxKeys; omega)
        (inodeKey start.nextIno)
      unfold mkdirOverwriteCost ramdiskBlocks at small
      omega
    | overwritten _ _ yafsInv _ _ _ isNext =>
      obtain ⟨rfl, rfl⟩ := Prod.mk.inj whole
      have new : resolve { start.takeIno with yafs } 1 (cstr "bin") = .ok 1000 := by
        unfold resolve
        rw [yafsInv.rep.lookupName_eq, entryIn, isNext, Option.getD_some, next]
      refine ⟨start, _, booted, ran, old, new, fun intact => ?_⟩
      have same := intact.resolves 1 (cstr "bin")
      rw [old, new] at same
      cases same
    | made unbound =>
      rw [entry] at unbound
      cases unbound

end M4KK1.Vfs
