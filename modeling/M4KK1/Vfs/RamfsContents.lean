import M4KK1.Lib.ByteFile
import M4KK1.Vfs.Ramfs

/-!
# Ramfs files are arrays of bytes

Each buffer holds its file with zeros behind (`Backed`, `ByteFile`).
-/

namespace M4KK1.Vfs

open Lib Yafs Function RamState

abbrev Files := Fin maxFiles → ByteFile

/-- The file that the ramfs branch of an `open` truncates or creates. -/
def clearedFile (s : FdState) (path : CString) (flags : Nat) : Option (Fin maxFiles) :=
  match findFile s path with
  | some k => if flags &&& oTrunc ≠ 0 then some k else none
  | none => if flags &&& oCreat ≠ 0 then (createFile s path).2 else none

/-- The file that an `open` truncates or creates. -/
def cleared (s : FdState) (env : Surroundings) (path : CString) (flags : Nat) :
    Option (Fin maxFiles) :=
  if opensFile s env path = true then clearedFile s path flags else none

def Files.clear (files : Files) : Option (Fin maxFiles) → Files
  | none => files
  | some k => update files k .empty

theorem Files.clear_again (files : Files) (k : Fin maxFiles) (again : Prop) [Decidable again] :
    (files.clear (some k)).clear (if again then some k else none) = files.clear (some k) := by
  split
  · exact update_idem ..
  · rfl

def filesAfter (s : RamState) (files : Files) : RamCall → Files
  | .open env path flags _ => files.clear (cleared s.fds env path flags)
  | .write fd buf (.done _) =>
    match ramTarget s.fds fd with
    | some (slot, k) =>
      update files k ((files k).write (s.fds.fdTable slot).offset buf)
    | none => files
  | _ => files

def FileStep (before : RamState × Files) (call : RamCall) (after : RamState × Files) : Prop :=
  RamStep before.1 call after.1 ∧ after.2 = filesAfter before.1 before.2 call

theorem FileStep.of {s s' : RamState} {call : RamCall} (transition : RamStep s call s')
    (files : Files) :
    FileStep (s, files) call (s', filesAfter s files call) :=
  ⟨transition, rfl⟩

/-- Entries have the size and bytes of their files, and buffers hold zeros behind. -/
structure ByteArrays (s : RamState) (files : Files) : Prop where
  size : ∀ k, (s.file k).size = (files k).size
  bytes : ∀ k, ∀ i < (s.file k).size, s.mem (s.address k i) = (files k).byte i
  read : ∀ {fd slot k}, ramTarget s.fds fd = some (slot, k) → (s.file k).regular = true → ∀ count,
    let out := (files k).read (s.fds.fdTable slot).offset count
    ramRead s fd count =
      .ok ({ s with fds := s.fds.setOffset slot ((s.fds.fdTable slot).offset + out.length) },
        .done out)
  write : ∀ {fd slot k}, ramTarget s.fds fd = some (slot, k) → (s.file k).regular = true →
    ∀ heap rounds buf, (s.fds.fdTable slot).offset + buf.length ≤ (s.file k).capacity →
      ramWrite s heap rounds fd buf = .ok (some (s.stored slot k buf, .done buf.length))
  refused : ∀ {heap rounds fd buf s'}, ramWrite s heap rounds fd buf = .ok (some (s', .refused)) →
    s' = s
  tail : ∀ {k base length}, s.Buffer k base length → ∀ i, (s.file k).size ≤ i → i < length →
    s.mem (base + i) = 0

theorem createFile_cases {s s' : FdState} {name : CString} {result : Option (Fin maxFiles)}
    (made : createFile s name = (s', result)) :
    (result = none ∧ s' = s) ∨
    ∃ k entry, result = some k ∧ s' = s.setFile k entry ∧ entry.size = 0 ∧ entry.capacity = 0 := by
  unfold createFile at made
  dsimp only at made
  generalize (if name.head? = some slash then name.drop 1 else name) = stripped at made
  split at made
  next =>
    cases made
    exact .inl ⟨rfl, rfl⟩
  next =>
    split at made
    next =>
      cases made
      exact .inl ⟨rfl, rfl⟩
    next =>
      cases made
      exact .inr ⟨_, _, rfl, rfl, rfl, rfl⟩

structure Backed (s : RamState) (files : Files) : Prop where
  unmounted : s.fds.vfs.yafs.rootLba = 0
  size : ∀ k, (s.file k).size = (files k).size
  room : ∀ k, (s.file k).size ≤ (s.file k).capacity
  capacity : ∀ k, IsCapacity (s.file k).capacity
  noBuffer : ∀ {k}, s.data k = none → (s.file k).capacity = 0
  apart : ∀ {k k' base base' length length'}, k ≠ k' → s.Buffer k base length →
    s.Buffer k' base' length' → base + length ≤ base' ∨ base' + length' ≤ base
  bytes : ∀ {k base length}, s.Buffer k base length → ∀ i < length,
    s.mem (base + i) = (files k).byte i

namespace Backed

variable {s s' : RamState} {files : Files}

theorem withFds (backed : Backed s files) {fds : FdState}
    (sameFiles : fds.fileTable = s.fds.fileTable) (sameVfs : fds.vfs = s.fds.vfs) :
    Backed { s with fds := fds } files := by
  have sameFile : ∀ k, ({ s with fds := fds } : RamState).file k = s.file k := by
    intro k
    exact congrFun sameFiles k
  have sameBuffer : ∀ {k base length}, ({ s with fds := fds } : RamState).Buffer k base length →
      s.Buffer k base length := by
    intro k base length buffer
    exact ⟨buffer.1, (congrArg FileEnt.capacity (sameFile k)).symm.trans buffer.2⟩
  constructor
  · exact (congrArg (·.yafs.rootLba) sameVfs).trans backed.unmounted
  · intro k
    rw [sameFile]
    exact backed.size k
  · intro k
    rw [sameFile]
    exact backed.room k
  · intro k
    rw [sameFile]
    exact backed.capacity k
  · intro k none
    rw [sameFile]
    exact backed.noBuffer none
  · intro k k' base base' length length' other buffer buffer'
    exact backed.apart other (sameBuffer buffer) (sameBuffer buffer')
  · intro k base length buffer
    exact backed.bytes (sameBuffer buffer)

variable {k : Fin maxFiles}

theorem replace (backed : Backed s files) {file : ByteFile} (sameVfs : s'.fds.vfs = s.fds.vfs)
    (sameFile : ∀ other, other ≠ k → s'.file other = s.file other)
    (sameData : ∀ other, other ≠ k → s'.data other = s.data other)
    (kept : ∀ {other base length}, other ≠ k → s.Buffer other base length → ∀ i < length,
      s'.mem (base + i) = s.mem (base + i))
    (size : (s'.file k).size = file.size) (room : (s'.file k).size ≤ (s'.file k).capacity)
    (capacity : IsCapacity (s'.file k).capacity)
    (noBuffer : s'.data k = none → (s'.file k).capacity = 0)
    (apart : ∀ {base length}, s'.Buffer k base length → ∀ {other base' length'}, other ≠ k →
      s.Buffer other base' length' → base + length ≤ base' ∨ base' + length' ≤ base)
    (bytes : ∀ {base length}, s'.Buffer k base length →
      ∀ i < length, s'.mem (base + i) = file.byte i) :
    Backed s' (update files k file) := by
  have sameBuffer : ∀ {other base length}, other ≠ k → s'.Buffer other base length →
      s.Buffer other base length := by
    intro other base length elsewhere buffer
    rw [RamState.Buffer, sameData other elsewhere, sameFile other elsewhere] at buffer
    exact buffer
  constructor
  · rw [sameVfs]
    exact backed.unmounted
  · intro other
    by_cases here : other = k
    · rw [here, update_self]
      exact size
    · rw [update_of_ne here, sameFile other here]
      exact backed.size other
  · intro other
    by_cases here : other = k
    · rw [here]
      exact room
    · rw [sameFile other here]
      exact backed.room other
  · intro other
    by_cases here : other = k
    · rw [here]
      exact capacity
    · rw [sameFile other here]
      exact backed.capacity other
  · intro other none
    by_cases here : other = k
    · rw [here] at none ⊢
      exact noBuffer none
    · rw [sameData other here] at none
      rw [sameFile other here]
      exact backed.noBuffer none
  · intro left right base base' length length' distinct buffer buffer'
    by_cases here : left = k
    · subst here
      exact apart buffer distinct.symm (sameBuffer distinct.symm buffer')
    · by_cases there : right = k
      · subst there
        exact (apart buffer' here (sameBuffer here buffer)).symm
      · exact backed.apart distinct (sameBuffer here buffer) (sameBuffer there buffer')
  · intro other base length buffer i below
    by_cases here : other = k
    · subst here
      rw [update_self]
      exact bytes buffer i below
    · have before := sameBuffer here buffer
      rw [update_of_ne here, kept here before i below]
      exact backed.bytes before i below

theorem emptied (backed : Backed s files) (sameVfs : s'.fds.vfs = s.fds.vfs)
    (sameFile : ∀ other, other ≠ k → s'.file other = s.file other)
    (isData : s'.data = update s.data k none)
    (kept : ∀ {other base length}, other ≠ k → s.Buffer other base length → ∀ i < length,
      s'.mem (base + i) = s.mem (base + i))
    (size : (s'.file k).size = 0) (capacity : (s'.file k).capacity = 0) :
    Backed s' (update files k .empty) := by
  have noBlock : ∀ {base length}, ¬ s'.Buffer k base length := by
    rintro base length ⟨some, -⟩
    rw [isData, update_self] at some
    cases some
  refine backed.replace sameVfs sameFile ?_ kept size ?_ (.inl capacity) (fun _ => capacity) ?_ ?_
  · intro other elsewhere
    rw [isData, update_of_ne elsewhere]
  · rw [size]
    exact Nat.zero_le _
  · intro base length buffer
    exact absurd buffer noBlock
  · intro base length buffer
    exact absurd buffer noBlock

theorem truncate (backed : Backed s files) {heap : HeapReply}
    (freeKeeps : ∀ {old other base length}, s.data k = some old → other ≠ k →
      s.Buffer other base length → ∀ mem, ∀ i < length,
      heap.onFree old mem (base + i) = mem (base + i)) :
    Backed (s.truncate heap k) (update files k .empty) := by
  refine backed.emptied rfl ?_ rfl ?_ ?_ ?_
  · intro other elsewhere
    exact update_of_ne elsewhere ..
  · intro other base length elsewhere buffer i below
    cases isData : s.data k with
    | none => simp only [RamState.truncate, isData]
    | some old =>
      simp only [RamState.truncate, isData]
      exact freeKeeps isData elsewhere buffer _ i below
  · rw [file_truncate]
  · rw [file_truncate]

theorem create (backed : Backed s files) {name : CString}
    (made : ramCreate s name = (s', some k)) : Backed s' (update files k .empty) := by
  unfold ramCreate at made
  split at made
  next => cases made
  next fds created isMade =>
    cases made
    obtain ⟨impossible, -⟩ | ⟨k, entry, result, rfl, size, capacity⟩ := createFile_cases isMade
    · cases impossible
    cases result
    refine backed.emptied rfl ?_ rfl (fun _ _ _ _ => rfl) ?_ ?_
    · intro other elsewhere
      exact update_of_ne elsewhere ..
    · simp [RamState.file, FdState.setFile, size]
    · simp [RamState.file, FdState.setFile, capacity]

theorem grown (backed : Backed s files) {heap : HeapReply} (sound : heap.Sound s)
    {newCap block : Nat} (room : (s.file k).size ≤ newCap) (capacity : IsCapacity newCap)
    (block? : heap.alloc newCap = some block) :
    Backed (s.grown heap k block newCap) files := by
  have same : update files k (files k) = files := update_eq_self k files
  rw [← same]
  have isBuffer : ∀ {base length}, (s.grown heap k block newCap).Buffer k base length →
      base = block ∧ length = newCap := by
    rintro base length ⟨isBase, isLength⟩
    rw [data_grown] at isBase
    rw [file_grown] at isLength
    exact ⟨(Option.some.inj isBase).symm, isLength.symm⟩
  refine backed.replace rfl ?_ ?_ ?_ ?_ ?_ ?_ ?_ ?_ ?_
  · intro other elsewhere
    exact update_of_ne elsewhere ..
  · intro other elsewhere
    exact update_of_ne elsewhere ..
  · intro other base length elsewhere buffer i below
    have apart := sound.fresh block? buffer
    simp only [RamState.grown]
    rw [fillBytes_other (by omega)]
    cases isData : s.data k with
    | none => exact sound.allocKeeps buffer _ i below
    | some old =>
      dsimp only
      rw [sound.freeKeeps isData elsewhere buffer _ i below, copyBytes_other (by omega)]
      exact sound.allocKeeps buffer _ i below
  · rw [file_grown]
    exact backed.size k
  · rw [file_grown]
    exact room
  · rw [file_grown]
    exact capacity
  · simp
  · intro base length buffer other base' length' elsewhere buffer'
    obtain ⟨rfl, rfl⟩ := isBuffer buffer
    exact sound.fresh block? buffer'
  · intro base length buffer i below
    obtain ⟨rfl, rfl⟩ := isBuffer buffer
    simp only [RamState.grown]
    by_cases old : i < (s.file k).size
    · rw [fillBytes_other (by omega)]
      have wide := backed.room k
      cases isData : s.data k with
      | none =>
        have noRoom := backed.noBuffer isData
        omega
      | some source =>
        -- the old bytes came with the copy, and the free of their block left it alone
        have oldBuffer : s.Buffer k source (s.file k).capacity := ⟨isData, rfl⟩
        have apart := sound.fresh block? oldBuffer
        dsimp only
        rw [sound.freeKeepsNew isData block? _ i below, copyBytes_self (by omega) old,
          sound.allocKeeps oldBuffer _ i (by omega)]
        exact backed.bytes oldBuffer i (by omega)
    · obtain ⟨behind, rfl⟩ : ∃ behind, i = (s.file k).size + behind :=
        ⟨i - (s.file k).size, by omega⟩
      rw [← Nat.add_assoc, fillBytes_self (by omega)]
      refine ((files k).beyond _ ?_).symm
      rw [← backed.size k]
      exact Nat.le_add_right _ _

theorem stored (backed : Backed s files) {fd : Fin maxFds} {k : Fin maxFiles} {buf : List UInt8}
    (fits : (s.fds.fdTable fd).offset + buf.length ≤ (s.file k).capacity) :
    Backed (s.stored fd k buf)
      (update files k ((files k).write (s.fds.fdTable fd).offset buf)) := by
  have isSize : ((s.stored fd k buf).file k).size =
      max (s.file k).size ((s.fds.fdTable fd).offset + buf.length) := by
    rw [file_stored]
    dsimp only
    split
    · omega
    · omega
  have isCapacity : ((s.stored fd k buf).file k).capacity = (s.file k).capacity := by
    rw [file_stored]
  have isBuffer : ∀ {base length}, (s.stored fd k buf).Buffer k base length →
      s.Buffer k base length := by
    rintro base length ⟨isBase, isLength⟩
    exact ⟨isBase, isCapacity.symm.trans isLength⟩
  have room := backed.room k
  refine backed.replace rfl ?_ (fun _ _ => rfl) ?_ ?_ ?_ ?_ ?_ ?_ ?_
  · intro other elsewhere
    exact update_of_ne elsewhere ..
  · intro other base length elsewhere buffer i below
    cases isData : s.data k with
    | none =>
      have noRoom := backed.noBuffer isData
      exact placeBytes_other (by omega)
    | some start =>
      have apart := backed.apart elsewhere buffer ⟨isData, rfl⟩
      have isAddress : s.address k (s.fds.fdTable fd).offset =
          start + (s.fds.fdTable fd).offset := by
        rw [RamState.address, isData]
        rfl
      exact placeBytes_other (by omega)
  · rw [isSize, backed.size k]
    rfl
  · rw [isSize, isCapacity]
    omega
  · rw [isCapacity]
    exact backed.capacity k
  · intro none
    rw [isCapacity]
    exact backed.noBuffer none
  · intro base length buffer other base' length' elsewhere buffer'
    exact backed.apart elsewhere.symm (isBuffer buffer) buffer'
  · intro base length buffer i below
    obtain ⟨isData, -⟩ := isBuffer buffer
    have isAddress : s.address k (s.fds.fdTable fd).offset = base + (s.fds.fdTable fd).offset := by
      rw [RamState.address, isData]
      rfl
    simp only [RamState.stored, placeBytes, isAddress, ByteFile.write]
    by_cases written : (s.fds.fdTable fd).offset ≤ i ∧ i < (s.fds.fdTable fd).offset + buf.length
    · rw [if_pos (by omega), if_pos written, Nat.add_sub_add_left]
    · rw [if_neg (by omega), if_neg written]
      exact backed.bytes (isBuffer buffer) i below

end Backed

section Unmounted

variable {s s' : FdState}

theorem openSpecial_files (s : FdState) (env : Surroundings) (backend : Backend) (path : CString)
    (flags : Nat) : (openSpecial s env backend path flags).1.fileTable = s.fileTable ∧
      (openSpecial s env backend path flags).1.vfs = s.vfs := by
  unfold openSpecial
  cases backend
  all_goals
    dsimp only
    split
    next =>
      split
      next => exact ⟨rfl, rfl⟩
      next => exact ⟨rfl, rfl⟩
    next => exact ⟨rfl, rfl⟩

theorem openDescriptor_files (s : FdState) (d : FileDesc) :
    (openDescriptor s d).1.fileTable = s.fileTable ∧ (openDescriptor s d).1.vfs = s.vfs := by
  unfold openDescriptor vfsAllocFd
  split
  next none =>
    split at none
    next =>
      cases none
      exact ⟨rfl, rfl⟩
    next => cases none
  next found =>
    split at found
    next => cases found
    next =>
      cases found
      exact ⟨rfl, rfl⟩

theorem vfsOpen_special {env : Surroundings} {path : CString} {flags : Nat} {result : Option Nat}
    (elsewhere : ¬ opensFile s env path = true)
    (ran : vfsOpen s env path flags = .ok (s', result)) :
    s'.fileTable = s.fileTable ∧ s'.vfs = s.vfs := by
  unfold vfsOpen at ran
  split at ran
  next =>
    cases ran
    exact ⟨rfl, rfl⟩
  next ready =>
    split at ran
    next =>
      cases ran
      exact ⟨rfl, rfl⟩
    next allowed =>
      split at ran
      next backend _ =>
        have opened := Except.ok.inj ran
        have same := openSpecial_files s env backend path flags
        rw [opened] at same
        exact same
      next plain =>
        refine absurd ?_ elsewhere
        simp only [not_and, Bool.not_eq_true, Bool.not_eq_false] at ready allowed
        simp only [opensFile, ready, plain, Bool.true_and, Option.isNone_none, Bool.and_true,
          Bool.not_eq_true', Bool.and_eq_false_imp]
        exact allowed

theorem vfsRead_files {fd count : Nat} {reply : Reply (List UInt8)}
    (ran : vfsRead s fd count = .ok (s', reply)) : s'.fileTable = s.fileTable ∧ s'.vfs = s.vfs := by
  obtain rfl | ⟨slot, rfl, -, ran⟩ | ⟨slot, offset, rfl, -, rfl⟩ := vfsRead_cases ran
  · exact ⟨rfl, rfl⟩
  · obtain ⟨pipes, isPipes⟩ := pipeRead_pipes s (s.fdTable slot) count
    rw [ran] at isPipes
    cases isPipes
    exact ⟨rfl, rfl⟩
  · exact ⟨rfl, rfl⟩

theorem pipeWrite_refused {d : FileDesc} {buf : List UInt8}
    (ran : pipeWrite s d buf = (s', .refused)) : s' = s := by
  unfold pipeWrite at ran
  split at ran
  next =>
    cases ran
    rfl
  next =>
    split at ran
    next =>
      cases ran
      rfl
    next => cases ran

theorem vfsWrite_unmounted {fd : Nat} {buf : List UInt8} {reply : Reply Nat}
    (unmounted : s.vfs.yafs.rootLba = 0) (ran : vfsWrite s fd buf = .ok (s', reply)) :
    (s'.fileTable = s.fileTable ∧ s'.vfs = s.vfs) ∧ (reply = .refused → s' = s) := by
  unfold vfsWrite at ran
  split at ran
  next inside =>
    split at ran
    next =>
      cases ran
      exact ⟨⟨rfl, rfl⟩, fun _ => rfl⟩
    next =>
      dsimp only at ran
      split at ran
      next isPipe =>
        obtain ⟨pipes, isPipes⟩ := pipeWrite_pipes s (s.fdTable ⟨fd, inside.1⟩) buf
        have ran := Except.ok.inj ran
        rw [ran] at isPipes
        dsimp only at isPipes
        subst isPipes
        refine ⟨⟨rfl, rfl⟩, ?_⟩
        rintro rfl
        exact pipeWrite_refused ran
      next =>
        split at ran
        next =>
          cases ran
          exact ⟨⟨rfl, rfl⟩, fun _ => rfl⟩
        next =>
          split at ran
          next mounted => exact absurd unmounted mounted.2
          next =>
            cases ran
            exact ⟨⟨rfl, rfl⟩, fun _ => rfl⟩
  next =>
    cases ran
    exact ⟨⟨rfl, rfl⟩, fun _ => rfl⟩

theorem vfsClose_files {fd : Nat} {ok : Bool} (ran : vfsClose s fd = (s', ok)) :
    s'.fileTable = s.fileTable ∧ s'.vfs = s.vfs := by
  obtain ⟨rfl, -⟩ | ⟨owner, -, -, rfl⟩ | ⟨slot, -, -, -, rfl, -⟩ := vfsClose_cases ran
  · exact ⟨rfl, rfl⟩
  · cases owner
    all_goals exact ⟨rfl, rfl⟩
  · obtain ⟨pipes, isPipes⟩ := closePipe_pipes s (s.fdTable slot)
    rw [isPipes]
    exact ⟨rfl, rfl⟩

end Unmounted

namespace Backed

open RamState

variable {s s' : RamState} {files : Files}

variable {heap : HeapReply} {k : Fin maxFiles}

theorem writeFile (backed : Backed s files) (sound : heap.Sound s) {rounds : Nat}
    {slot : Fin maxFds} {buf : List UInt8} {reply : Reply Nat}
    (ran : ramWriteFile s heap rounds slot k buf = some (s', reply)) :
    (reply = .refused ∧ s' = s) ∨
    (reply = .done buf.length ∧ Backed s'
      (update files k ((files k).write (s.fds.fdTable slot).offset buf))) := by
  obtain refused | ⟨isDone, ⟨newCap, block, larger, ended, isBlock, rfl⟩ | ⟨fits, rfl⟩⟩ :=
    ramWriteFile_cases ran
  · exact .inl refused
  · have enough := growLoop_enough rounds _ ended
    have room := backed.room k
    have isNew := growLoop_capacity (backed.capacity k) (by omega) ended
    have moved := backed.grown (k := k) sound (by omega) isNew isBlock
    refine .inr ⟨isDone, moved.stored ?_⟩
    rw [file_grown]
    exact enough
  · exact .inr ⟨isDone, backed.stored fits⟩

theorem openFound (backed : Backed s files) {flags : Nat}
    (freeKeeps : ∀ {old other base length}, s.data k = some old → other ≠ k →
      s.Buffer other base length → ∀ mem, ∀ i < length,
      heap.onFree old mem (base + i) = mem (base + i))
    (d : RamState → FileDesc) :
    let t := if flags &&& oTrunc ≠ 0 then s.truncate heap k else s
    Backed { t with fds := (openDescriptor t.fds (d t)).1 }
      (files.clear (if flags &&& oTrunc ≠ 0 then some k else none)) := by
  intro t
  have same := openDescriptor_files t.fds (d t)
  refine Backed.withFds ?_ same.1 same.2
  by_cases truncates : flags &&& oTrunc ≠ 0
  · simp only [t, if_pos truncates]
    exact backed.truncate freeKeeps
  · simp only [t, if_neg truncates]
    exact backed

theorem openFile (backed : Backed s files) (sound : heap.Sound s) (path : CString) (flags : Nat) :
    Backed (ramOpenFile s heap path flags).1 (files.clear (clearedFile s.fds path flags)) := by
  unfold ramOpenFile ramFound clearedFile
  cases findFile s.fds path with
  | some k =>
    exact backed.openFound (fun isOld elsewhere buffer => sound.freeKeeps isOld elsewhere buffer)
      fun t =>
        ⟨some k, if flags &&& oAppend ≠ 0 then (t.fds.fileTable k).size else 0, flags, true, 0⟩
  | none =>
    by_cases creates : flags &&& oCreat ≠ 0
    · simp only [if_pos creates]
      cases isMade : createFile s.fds path with
      | mk fds made =>
      cases made with
      | none =>
        have failed : ramCreate s path = ({ s with fds := fds }, none) := by
          rw [ramCreate, isMade]
        obtain ⟨-, rfl⟩ | ⟨_, _, impossible, -⟩ := createFile_cases isMade
        · rw [failed]
          exact backed
        · cases impossible
      | some k =>
        have created : ramCreate s path =
            ({ s with fds := fds, data := update s.data k none }, some k) := by
          rw [ramCreate, isMade]
        rw [created]
        have new := backed.create created
        have noBlock : ∀ {old : Nat}, update s.data k none k ≠ some old := by
          intro old isOld
          rw [update_self] at isOld
          cases isOld
        rw [← Files.clear_again files k (flags &&& oTrunc ≠ 0)]
        exact new.openFound (fun isOld _ _ => absurd isOld noBlock)
          fun t =>
            ⟨some k, if flags &&& oAppend ≠ 0 then (t.fds.fileTable k).size else 0, flags, true, 0⟩
    · simp only [if_neg creates]
      exact backed

theorem step (backed : Backed s files) {call : RamCall} (transition : RamStep s call s') :
    Backed s' (filesAfter s files call) := by
  cases transition with
  | @«open» _ heap env path flags result sound ran =>
    unfold ramOpen at ran
    by_cases opens : opensFile s.fds env path = true
    · rw [if_pos ⟨opens, backed.unmounted⟩] at ran
      have opened := Except.ok.inj ran
      have isNext := backed.openFile sound path flags
      rw [opened] at isNext
      rw [filesAfter, cleared, if_pos opens]
      exact isNext
    · have elsewhere : ¬ (opensFile s.fds env path = true ∧ s.fds.vfs.yafs.rootLba = 0) :=
        fun both => opens both.1
      rw [if_neg elsewhere] at ran
      obtain ⟨⟨fds, result⟩, opened, ran⟩ := bind_ok ran
      cases ran
      obtain ⟨sameFiles, sameVfs⟩ := vfsOpen_special opens opened
      rw [filesAfter, cleared, if_neg opens]
      exact backed.withFds sameFiles sameVfs
  | lseek ran =>
    obtain rfl | ⟨slot, offset, -, rfl⟩ := vfsLseek_cases ran
    · exact backed.withFds rfl rfl
    · exact backed.withFds rfl rfl
  | @read _ fd count reply ran =>
    unfold ramRead at ran
    split at ran
    next slot k _ =>
      have read := Except.ok.inj ran
      unfold ramReadFile at read
      dsimp only at read
      split at read
      next =>
        cases read
        exact backed
      next =>
        split at read
        next =>
          cases read
          exact backed
        next =>
          cases read
          exact backed.withFds rfl rfl
    next =>
      obtain ⟨⟨fds, reply⟩, read, ran⟩ := bind_ok ran
      cases ran
      obtain ⟨sameFiles, sameVfs⟩ := vfsRead_files read
      exact backed.withFds sameFiles sameVfs
  | @write _ heap rounds fd buf reply sound small ran =>
    unfold ramWrite at ran
    split at ran
    next slot k target =>
      obtain ⟨rfl, rfl⟩ | ⟨rfl, isNext⟩ := backed.writeFile sound (Except.ok.inj ran)
      · exact backed
      · rw [filesAfter, target]
        exact isNext
    next target =>
      obtain ⟨⟨fds, reply⟩, wrote, ran⟩ := bind_ok ran
      cases ran
      obtain ⟨⟨sameFiles, sameVfs⟩, -⟩ := vfsWrite_unmounted backed.unmounted wrote
      have nothing : filesAfter s files (.write fd buf reply) = files := by
        cases reply with
        | done => rw [filesAfter, target]
        | refused => rfl
        | special => rfl
        | ramfs => rfl
      rw [nothing]
      exact backed.withFds sameFiles sameVfs
  | close ran =>
    obtain ⟨sameFiles, sameVfs⟩ := vfsClose_files ran
    exact backed.withFds sameFiles sameVfs

theorem address_eq {base length : Nat} (buffer : s.Buffer k base length)
    (offset : Nat) : s.address k offset = base + offset := by
  rw [RamState.address, buffer.1]
  rfl

theorem exists_buffer (backed : Backed s files) (some : 0 < (s.file k).size) :
    ∃ base, s.Buffer k base (s.file k).capacity := by
  cases isData : s.data k with
  | none =>
    have noRoom := backed.noBuffer isData
    have room := backed.room k
    omega
  | some base => exact ⟨base, isData, rfl⟩

theorem readFile (backed : Backed s files) {slot : Fin maxFds} {count : Nat}
    (regular : (s.file k).regular = true) : ramReadFile s slot k count =
      ({ s with fds := s.fds.setOffset slot ((s.fds.fdTable slot).offset +
          ((files k).read (s.fds.fdTable slot).offset count).length) },
        .done ((files k).read (s.fds.fdTable slot).offset count)) := by
  have isSize := backed.size k
  unfold ramReadFile
  dsimp only
  rw [if_neg (by simp [regular])]
  split
  next behind =>
    rw [ByteFile.read_beyond (isSize ▸ behind), List.length_nil, Nat.add_zero, FdState.setOffset,
      FdState.setFd,
      update_eq_self]
  next before =>
    obtain ⟨base, buffer⟩ := backed.exists_buffer (k := k) (by omega)
    have room := backed.room k
    have bounded := (backed.capacity k).le
    have sameCount : (if count < (s.file k).size - (s.fds.fdTable slot).offset then count
        else (s.file k).size - (s.fds.fdTable slot).offset) =
        min count ((files k).size - (s.fds.fdTable slot).offset) := by
      rw [← isSize]
      split
      · omega
      · omega
    have sameBytes : (List.range (min count ((files k).size - (s.fds.fdTable slot).offset))).map
        (fun i => s.mem (s.address k (s.fds.fdTable slot).offset + i)) =
          (files k).read (s.fds.fdTable slot).offset count := by
      rw [ByteFile.read, address_eq buffer]
      apply List.map_congr_left
      intro i member
      have below : i < min count ((files k).size - (s.fds.fdTable slot).offset) :=
        List.mem_range.mp member
      rw [Nat.add_assoc]
      exact backed.bytes buffer _ (by omega)
    rw [sameCount, sameBytes, ByteFile.read_length, Nat.mod_eq_of_lt (by omega)]

theorem byteArrays (backed : Backed s files) : ByteArrays s files := by
  constructor
  · exact backed.size
  · intro k i below
    obtain ⟨base, buffer⟩ := backed.exists_buffer (k := k) (by omega)
    have room := backed.room k
    rw [address_eq buffer]
    exact backed.bytes buffer i (by omega)
  · intro fd slot k target regular count
    unfold ramRead
    rw [target]
    exact congrArg Except.ok (backed.readFile regular)
  · intro fd slot k target regular heap rounds buf fits
    have bounded := (backed.capacity k).le
    unfold ramWrite
    rw [target]
    change Except.ok (ramWriteFile s heap rounds slot k buf) = _
    unfold ramWriteFile
    dsimp only
    rw [if_neg (by simp [regular]), if_neg (by omega), if_neg (by omega)]
  · intro heap rounds fd buf s' ran
    unfold ramWrite at ran
    split at ran
    next slot k target =>
      obtain ⟨-, rfl⟩ | ⟨impossible, -⟩ := ramWriteFile_cases (Except.ok.inj ran)
      · rfl
      · cases impossible
    next =>
      obtain ⟨⟨fds, reply⟩, wrote, ran⟩ := bind_ok ran
      cases ran
      obtain ⟨-, same⟩ := vfsWrite_unmounted backed.unmounted wrote
      rw [same rfl]
  · intro k base length buffer i above below
    rw [backed.bytes buffer i below]
    refine (files k).beyond i ?_
    rw [← backed.size k]
    exact above

end Backed

theorem initial_backed {vfs : State} (unmounted : vfs.yafs.rootLba = 0) (mem : ByteMemory) :
    Backed (initialRam vfs mem) fun _ => .empty := by
  have nothing : ∀ k, ((initialRam vfs mem).file k).size = 0 ∧
      ((initialRam vfs mem).file k).capacity = 0 := by
    intro k
    by_cases isRoot : k = 0
    · subst isRoot
      exact ⟨rfl, rfl⟩
    · simp [RamState.file, initialRam, initialFds, update_of_ne isRoot]
  have noBuffer : ∀ {k base length}, ¬ (initialRam vfs mem).Buffer k base length := by
    rintro k base length ⟨impossible, -⟩
    cases impossible
  refine ⟨unmounted, fun k => (nothing k).1, ?_, fun k => .inl (nothing k).2,
    fun {k} _ => (nothing k).2, ?_, ?_⟩
  · intro k
    rw [(nothing k).1]
    exact Nat.zero_le _
  · intro k k' base base' length length' _ buffer
    exact absurd buffer noBuffer
  · intro k base length buffer
    exact absurd buffer noBuffer

theorem run_backed {vfs : State} (unmounted : vfs.yafs.rootLba = 0) {mem : ByteMemory}
    {calls : List RamCall} {s : RamState} {files : Files}
    (run : Steps FileStep (initialRam vfs mem, fun _ => .empty) calls (s, files)) :
    Backed s files := by
  refine run.invariant (fun reached => Backed reached.1 reached.2) ?_ (initial_backed unmounted mem)
  rintro ⟨before, filesBefore⟩ call ⟨after, filesAfter⟩ backed ⟨transition, isAfter⟩
  rw [isAfter]
  exact backed.step transition

/-- Whatever memory holds at the start, ramfs files are arrays of bytes in every run. -/
theorem ramfs_contents {vfs : State} (unmounted : vfs.yafs.rootLba = 0) {mem : ByteMemory}
    {calls : List RamCall} {s : RamState} {files : Files}
    (run : Steps FileStep (initialRam vfs mem, fun _ => .empty) calls (s, files)) :
    ByteArrays s files :=
  (run_backed unmounted run).byteArrays

/-- A system without a YAFS root, and a memory full of old bytes. -/
def plainRam : RamState := initialRam ⟨⟨⟨fun _ => .zero, 0, 0⟩, 0⟩, 0, true⟩ fun _ => 0xAA

/-- The heap of a run with a single allocation. -/
def plainHeap : HeapReply := ⟨fun _ => some 4096, id, fun _ => id⟩

theorem plainHeap_sound {s : RamState} (unused : ∀ k, s.data k = none) : plainHeap.Sound s := by
  have noBuffer : ∀ {k base length}, ¬ s.Buffer k base length := by
    rintro k base length ⟨isData, -⟩
    rw [unused k] at isData
    cases isData
  constructor
  · intro _ _ _ _ _ _ buffer
    exact absurd buffer noBuffer
  · intro _ _ _ buffer
    exact absurd buffer noBuffer
  · intro _ _ _ _ _ _ _ buffer
    exact absurd buffer noBuffer
  · intro k old _ _ isData
    rw [unused k] at isData
    cases isData

/-- `open("/f", O_CREAT)` by root. -/
def createCall : RamCall :=
  .open ⟨some 0, [], [], fun _ => 0, fun _ _ => false⟩ (cstr "/f") oCreat (some 0)

/-- The system with the new file under descriptor 0. -/
def createdRam : RamState := (ramOpenFile plainRam plainHeap (cstr "/f") oCreat).1

/-- The system after two bytes were written to it. -/
def writtenRam : RamState := (createdRam.grown plainHeap 1 4096 4096).stored 0 1 [7, 8]

theorem writtenRam_reached : ∃ files, Steps FileStep (plainRam, fun _ => .empty)
    [createCall, .write 0 [7, 8] (.done 2)] (writtenRam, files) ∧ (files 1).read 0 10 = [7, 8] := by
  have noBlock : ∀ k, createdRam.data k = none := by
    intro k
    by_cases isNew : k = 1
    · subst isNew
      rfl
    · exact update_of_ne isNew ..
  have opened : RamStep plainRam createCall createdRam :=
    @RamStep.open _ _ plainHeap _ _ _ _ (plainHeap_sound fun _ => rfl) rfl
  have written : RamStep createdRam (.write 0 [7, 8] (.done 2)) writtenRam :=
    @RamStep.write _ _ plainHeap 0 0 [7, 8] _ (plainHeap_sound noBlock) (by decide) rfl
  have start : Steps FileStep (plainRam, fun _ => ByteFile.empty) [] (plainRam, fun _ => .empty) :=
    .refl
  exact ⟨_, (start.step (FileStep.of opened _)).step (FileStep.of written _), rfl⟩

/-- Descriptor 0 is at the beginning of the file again. -/
def rewoundRam : RamState := { writtenRam with fds := writtenRam.fds.setOffset 0 0 }

/-- Two bytes written, sought back to and read. -/
theorem ramfs_contents_written : ∃ files, Steps FileStep (plainRam, fun _ => .empty)
    [createCall, .write 0 [7, 8] (.done 2), .lseek 0 0 seekSet (.done 0)] (rewoundRam, files) ∧
      ByteArrays rewoundRam files ∧ ∃ s, ramRead rewoundRam 0 10 = .ok (s, .done [7, 8]) := by
  obtain ⟨files, run, isContents⟩ := writtenRam_reached
  have sought : RamStep writtenRam (.lseek 0 0 seekSet (.done 0)) rewoundRam :=
    @RamStep.lseek writtenRam rewoundRam.fds 0 0 seekSet (.done 0) rfl
  have run := run.step (FileStep.of sought files)
  have arrays : ByteArrays rewoundRam files := ramfs_contents rfl run
  have read := arrays.read (show ramTarget rewoundRam.fds 0 = some (0, 1) from rfl) rfl 10
  dsimp only at read
  rw [show (rewoundRam.fds.fdTable 0).offset = 0 from rfl, isContents] at read
  exact ⟨files, run, arrays, _, read⟩

/-- The doubling loop ends, with room, exactly when the write ends at 2^31 or before. -/
theorem growth_ends_iff {vfs : State} (unmounted : vfs.yafs.rootLba = 0) {mem : ByteMemory}
    {calls : List RamCall} {s : RamState} {files : Files}
    (run : Steps FileStep (initialRam vfs mem, fun _ => .empty) calls (s, files)) (k : Fin maxFiles)
    (offset count : Nat) : GrowthEnds (s.file k).capacity offset count ↔ offset + count ≤ 2 ^ 31 :=
  growthEnds_iff ((run_backed unmounted run).capacity k)

/-- The capacity of 4096 doubles twice for a write of 9000 bytes behind the first two. -/
theorem growth_ends_doubled : GrowthEnds (writtenRam.file 1).capacity 2 9000 := by
  obtain ⟨files, run, -⟩ := writtenRam_reached
  exact (growth_ends_iff rfl run 1 2 9000).mpr (by decide)

/-- A write that ends behind 2^31: the capacity gets to 0 and stays there. -/
theorem not_growth_ends : ¬ ∀ (k : Fin maxFiles) (offset count : Nat), count < 2 ^ 32 →
    offset ≤ 0xFFFFFFFF - count → GrowthEnds (plainRam.file k).capacity offset count := by
  intro ends
  have small := (growthEnds_iff (.inl rfl)).mp (ends 1 0 (2 ^ 31 + 1) (by decide) (by decide))
  exact absurd small (by decide)

end M4KK1.Vfs
