import M4KK1.Vfs.Numbers

/-!
# Runs of the whole interface

Whatever the order of the calls, the filesystem keeps its invariant.
-/

namespace M4KK1.Vfs

open Lib Yafs

variable {state : State} {height : Nat} {bindings : Nat → Option Nat}

theorem lookupPath_root (device : Device) (rootTree : Nat) :
    lookupPath device rootTree (cstr "/") = .ok 1 := by
  rw [lookupPath_eq]
  rfl

def InodeOf (state : State) (path : CString) (inode : Nat) : Prop :=
  lookupPath state.yafs.device state.yafs.rootLba path = .ok inode ∧ inode ≠ 0

theorem openInode_eq (state : State) (path : CString) (flags : Nat) :
    openInode state path flags = (do
      let inode ← lookupPath state.yafs.device state.yafs.rootLba path
      if inode = 0 ∧ flags &&& oCreat ≠ 0 then do
        let (state, made) ← createFileYafs state (some path)
        if made = false then return (state, none)
        else do
          let inode ← lookupPath state.yafs.device state.yafs.rootLba path
          return (state, if inode = 0 then none else some inode)
      else return (state, if inode = 0 then none else some inode)) := by
  unfold openInode
  dsimp only
  split
  next isRoot => rw [isRoot, lookupPath_root, pure_eq_ok]
  next => rfl

variable {after : State} {path : CString} {flags : Nat} {result : Option Nat}

theorem openInode_cases {found : Option Nat}
    (ran : openInode state path flags = .ok (after, found)) :
    (after = state ∧ ∀ inode, found = some inode → InodeOf state path inode) ∨
    (lookupPath state.yafs.device state.yafs.rootLba path = .ok 0 ∧ flags &&& oCreat ≠ 0 ∧
      ∃ made, createFileYafs state (some path) = .ok (after, made) ∧
        ∀ inode, found = some inode → made = true ∧ InodeOf after path inode) := by
  have toInode : ∀ {inode inode' : Nat}, (if inode = 0 then none else some inode) = some inode' →
      inode = inode' ∧ inode' ≠ 0 := by
    intro inode inode' isSome
    split at isSome
    next => cases isSome
    next live =>
      cases isSome
      exact ⟨rfl, live⟩
  rw [openInode_eq] at ran
  obtain ⟨inode, looked, ran⟩ := bind_ok ran
  split at ran
  next creates =>
    obtain ⟨rfl, asked⟩ := creates
    obtain ⟨⟨made', made⟩, created, ran⟩ := bind_ok ran
    dsimp only at ran
    split at ran
    next =>
      cases ran
      refine .inr ⟨looked, asked, made, created, fun inode impossible => ?_⟩
      cases impossible
    next isMade =>
      obtain ⟨inode', looked', ran⟩ := bind_ok ran
      cases ran
      refine .inr ⟨looked, asked, made, created, fun inode isInode => ⟨by simpa using isMade, ?_⟩⟩
      obtain ⟨rfl, live⟩ := toInode isInode
      exact ⟨looked', live⟩
  next =>
    cases ran
    refine .inl ⟨rfl, fun inode' isInode => ?_⟩
    obtain ⟨rfl, live⟩ := toInode isInode
    exact ⟨looked, live⟩

theorem Truncated.kept (inv : Inv state height bindings) {inode : Nat} {ready : Bool}
    (truncated : Truncated flags inode state after ready) :
    ∃ height' bindings', Inv after height' bindings' ∧ SameEntries bindings bindings' := by
  obtain ⟨_, ran⟩ | ⟨_, rfl, _⟩ := truncated
  · obtain ⟨out, ranToo, height', bindings', inv', names⟩ := truncate_spec inv inode
    obtain rfl := Except.ok.inj (ranToo.symm.trans ran)
    exact ⟨height', bindings', inv', fun key tag => names key (by rw [tag]; decide)⟩
  · exact ⟨height, bindings, inv, fun _ _ => rfl⟩

theorem Truncated.sound (sound : Sound state) {inode : Nat} {ready : Bool}
    (truncated : Truncated flags inode state after ready) : Sound after := by
  obtain ⟨height, bindings, inv⟩ := sound
  obtain ⟨height', bindings', inv', _⟩ := truncated.kept inv
  exact ⟨height', bindings', inv'⟩

theorem openInode_sound (sound : Sound state) {found : Option Nat}
    (ran : openInode state path flags = .ok (after, found)) :
    Sound after := by
  obtain ⟨rfl, _⟩ | ⟨_, _, made, created, _⟩ := openInode_cases ran
  · exact sound
  · obtain ⟨out, ranToo, outSound⟩ := perform_sound sound (.createFile (some path))
    obtain rfl := Except.ok.inj (ranToo.symm.trans created)
    exact outSound

theorem vfsOpen_found {s : FdState} {env : Surroundings} {inode : Nat}
    {fd : Fin maxFds} (ready : s.vfs.initialized = true) (mounted : s.vfs.yafs.rootLba ≠ 0)
    (admitted : ¬ turnedAway env path) (plain : routedTo path = none)
    (found : InodeOf s.vfs path inode) (keeps : flags &&& oTrunc = 0)
    (fromStart : flags &&& oAppend = 0) (scanned : scanFds s 0 0 maxFds = some fd) :
    vfsOpen s env path flags =
      .ok (({ s with fdSearchStart := (fd.val + 1) % maxFds } : FdState).setFd fd
        ⟨some 0, 0, flags, true, inode⟩, some fd.val) := by
  unfold turnedAway at admitted
  obtain ⟨looked, live⟩ := found
  have opened : openInode s.vfs path flags = .ok (s.vfs, some inode) := by
    rw [openInode_eq, looked, ok_bind, if_neg (fun creates => live creates.1), if_neg live]
    rfl
  have fromZero : appendOffset s.vfs.yafs inode flags = .ok 0 := by
    rw [appendOffset, if_neg (not_not.mpr fromStart)]
    rfl
  rw [vfsOpen, if_neg (by simp [ready]), if_neg admitted, plain]
  dsimp only
  rw [if_pos mounted, openYafs, opened, ok_bind]
  dsimp only
  rw [if_neg (not_not.mpr keeps), pure_eq_ok, ok_bind]
  dsimp only
  rw [if_neg (by decide), fromZero, ok_bind, openDescriptor, vfsAllocFd, scanned]
  rfl

variable {s s' : FdState}

theorem openDescriptor_vfs {d : FileDesc} (used : d.inUse = true)
    (ran : openDescriptor s d = (s', result)) : s'.vfs = s.vfs := by
  obtain ⟨_, rfl⟩ | ⟨_, _, _, _, same, _⟩ := openDescriptor_cases used ran
  · rfl
  · exact same

theorem openSpecial_vfs (s : FdState) (env : Surroundings) (backend : Backend) (path : CString)
    (flags : Nat) : (openSpecial s env backend path flags).1.vfs = s.vfs := by
  cases backend
  all_goals
    unfold openSpecial
    dsimp only
    split
    next => split <;> rfl
    next => rfl

theorem openYafs_sound (sound : Sound s.vfs)
    (ran : openYafs s path flags = .ok (s', result)) : Sound s'.vfs := by
  obtain ⟨found, vfs, opened, ends⟩ := openYafs_ok ran
  have openedSound := openInode_sound sound opened
  obtain ⟨_, _, rfl⟩ | ⟨inode, vfs', ready, _, truncated, ends⟩ := ends
  · exact openedSound
  have truncatedSound := truncated.sound openedSound
  obtain ⟨_, _, rfl⟩ | ⟨_, offset, ran⟩ := ends
  · exact truncatedSound
  · rwa [openDescriptor_vfs rfl ran]

theorem openRamfs_vfs (ran : openRamfs s path flags = (s', result)) : s'.vfs = s.vfs := by
  obtain ⟨files, ⟨_, rfl⟩ | ⟨k, offset, ran⟩⟩ := openRamfs_cases ran
  · rfl
  · have used :
      ({ file := some k, offset, flags, inUse := true, yafsInode := 0 } : FileDesc).inUse =
        true := rfl
    rw [openDescriptor_vfs used ran]

theorem vfsOpen_sound (sound : Sound s.vfs) {env : Surroundings}
    (ran : vfsOpen s env path flags = .ok (s', result)) : Sound s'.vfs := by
  unfold vfsOpen at ran
  split at ran
  next =>
    cases ran
    exact sound
  next =>
    split at ran
    next =>
      cases ran
      exact sound
    next =>
      split at ran
      next backend route =>
        have same := openSpecial_vfs s env backend path flags
        rw [Except.ok.inj ran] at same
        rwa [same]
      next =>
        split at ran
        next => exact openYafs_sound sound ran
        next => rwa [openRamfs_vfs (Except.ok.inj ran)]

theorem vfsPipe_vfs {result : Option (Fin maxFds × Fin maxFds)}
    (ran : vfsPipe s = (s', result)) : s'.vfs = s.vfs := by
  obtain ⟨_, rfl⟩ | ⟨_, _, _, _, rfl⟩ | ⟨_, _, _, _, _, _, _, rfl⟩ := vfsPipe_cases ran
  · rfl
  · rfl
  · rfl

theorem vfsClose_vfs {fd : Nat} {ok : Bool} (ran : vfsClose s fd = (s', ok)) : s'.vfs = s.vfs := by
  obtain ⟨rfl, _⟩ | ⟨owner, _, _, rfl⟩ | ⟨slot, _, _, _, rfl, _⟩ := vfsClose_cases ran
  · rfl
  · cases owner <;> rfl
  · obtain ⟨pipes, torn⟩ := closePipe_pipes s (s.fdTable slot)
    rw [FdState.setFd_vfs, torn]

theorem vfsDup2_vfs {oldfd newfd : Nat} (ran : vfsDup2 s oldfd newfd = (s', result)) :
    s'.vfs = s.vfs := by
  unfold vfsDup2 at ran
  split at ran
  next inside =>
    dsimp only at ran
    split at ran
    next =>
      cases ran
      rfl
    next =>
      split at ran
      next =>
        cases ran
        rfl
      next =>
        cases ran
        rw [FdState.setFd_vfs]
        split
        next => exact vfsClose_vfs Prod.mk.eta.symm
        next => rfl
  next =>
    cases ran
    rfl

theorem vfsRead_vfs {fd count : Nat} {reply : Reply (List UInt8)}
    (ran : vfsRead s fd count = .ok (s', reply)) : s'.vfs = s.vfs := by
  obtain rfl | ⟨slot, _, _, ran⟩ | ⟨slot, offset, _, _, rfl⟩ := vfsRead_cases ran
  · rfl
  · obtain ⟨pipes, read⟩ := pipeRead_pipes s (s.fdTable slot) count
    have isRead : s' = { s with pipes := pipes } := by rw [← read, ran]
    rw [isRead]
  · rfl

theorem vfsWrite_sound (sound : Sound s.vfs) {fd : Nat} {buf : List UInt8} {reply : Reply Nat}
    (ran : vfsWrite s fd buf = .ok (s', reply)) : Sound s'.vfs := by
  obtain rfl | ⟨slot, _, _, ran⟩ | ⟨slot, out, _, _, wrote, ends⟩ := vfsWrite_cases ran
  · exact sound
  · obtain ⟨pipes, written⟩ := pipeWrite_pipes s (s.fdTable slot) buf
    have isWritten : s' = { s with pipes := pipes } := by rw [← written, ran]
    rwa [isWritten]
  · have written : s'.vfs = { s.vfs with yafs := out.state } := by
      obtain rfl | ⟨offset, rfl⟩ := ends
      · rfl
      · rfl
    obtain ⟨height, bindings, inv⟩ := sound
    obtain ⟨out', height', bindings', ranToo, outcome⟩ := writeFileData_spec inv.yafs _ buf _
    obtain rfl : out' = out := Except.ok.inj (ranToo.symm.trans wrote)
    rw [written]
    exact ⟨height', bindings', inv.sameNames outcome.inv outcome.keeps.next_le outcome.names⟩

theorem FdStep.sound {call : FdCall} (step : FdStep s call s') (sound : Sound s.vfs) :
    Sound s'.vfs := by
  cases step with
  | «open» ran => exact vfsOpen_sound sound ran
  | pipe ran => rwa [vfsPipe_vfs ran]
  | dup2 ran => rwa [vfsDup2_vfs ran]
  | close ran => rwa [vfsClose_vfs ran]
  | read ran => rwa [vfsRead_vfs ran]
  | write ran => exact vfsWrite_sound sound ran

inductive SystemCall where
  | fd (call : FdCall)
  | name (call : Call)

inductive SystemStep : FdState → SystemCall → FdState → Prop where
  | fd {s s' : FdState} {call : FdCall} (step : FdStep s call s') : SystemStep s (.fd call) s'
  | name {s : FdState} {call : Call} {vfs : State} (step : VfsStep s.vfs call vfs) :
      SystemStep s (.name call) { s with vfs := vfs }

/-- Whatever the calls, the filesystem under them stays sound. -/
theorem systemSteps_sound {start : FdState} {calls : List SystemCall} (sound : Sound start.vfs)
    (run : Steps SystemStep start calls s) : Sound s.vfs := by
  refine run.invariant (fun s => Sound s.vfs) ?_ sound
  intro before call after beforeSound step
  cases step with
  | fd step => exact step.sound beforeSound
  | name step => exact steps_sound beforeSound (Steps.refl.step step)

end M4KK1.Vfs
