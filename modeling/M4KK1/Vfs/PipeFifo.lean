import M4KK1.Vfs.Atomic
import M4KK1.Vfs.Pipes

/-!
# A pipe between its two descriptors

Any interleaving treats a pipe as a queue, unless a special filesystem has its number.
-/

namespace M4KK1.Vfs

open Lib Yafs Function

def OnEnds (rfd wfd : Fin maxFds) (_ : FdState) : FdCall → Prop
  | .read fd _ _ => fd = rfd
  | .write fd _ _ => fd = wfd
  | _ => False

def accepted (calls : List FdCall) : List UInt8 :=
  calls.flatMap fun call =>
    match call with
    | .write _ buf (.done written) => buf.take written
    | _ => []

def returned (calls : List FdCall) : List UInt8 :=
  calls.flatMap fun call =>
    match call with
    | .read _ _ (.done bytes) => bytes
    | _ => []

/-- What a bounded queue in slot `p` shows after the calls so far, and to the next read
and write. -/
structure FifoAt (s : FdState) (rfd wfd : Fin maxFds) (p : Fin maxPipes) (calls : List FdCall) :
    Prop where
  order : returned calls <+: accepted calls
  held : (returned calls).length + (s.pipes p).bytes = (accepted calls).length
  bounded : (s.pipes p).bytes ≤ pipeBufSize
  reader : (s.pipes p).readPos < pipeBufSize
  writer : (s.pipes p).writePos < pipeBufSize
  positions : (s.pipes p).writePos = ((s.pipes p).readPos + (s.pipes p).bytes) % pipeBufSize
  write : ∀ buf, ∃ s', vfsWrite s wfd buf =
    .ok (s', .done (min buf.length (pipeBufSize - (s.pipes p).bytes)))
  read : ∀ count, ∃ s' bytes, vfsRead s rfd count = .ok (s', .done bytes) ∧
    bytes.length = min count (s.pipes p).bytes

/-- Every interleaving of reads of `rfd` and writes of `wfd` sees a bounded queue. -/
def IsFifo (s : FdState) (rfd wfd : Fin maxFds) : Prop :=
  ∃ p, (s.fdTable rfd).pipeIndex = some p ∧
    ∀ calls final, Steps (Guarded FdStep (OnEnds rfd wfd)) s calls final →
      FifoAt final rfd wfd p calls

/-- Both descriptors reach an open pipe that holds what was accepted and not returned. -/
structure Flowing (s : FdState) (rfd wfd : Fin maxFds) (p : Fin maxPipes) (calls : List FdCall)
    (queue : List UInt8) : Prop where
  reads : Reaches s rfd p
  writes : Reaches s wfd p
  readOpen : (s.pipes p).readClosed = false
  writeOpen : (s.pipes p).writeClosed = false
  holds : Holds (s.pipes p) queue
  balance : accepted calls = returned calls ++ queue

namespace Flowing

variable {s s' : FdState} {rfd wfd : Fin maxFds} {p : Fin maxPipes} {calls : List FdCall}
  {queue : List UInt8}

theorem setPipe (flowing : Flowing s rfd wfd p calls queue) {pipe : PipeBuffer}
    (ends : SameEnds (s.pipes p) pipe) {after : List UInt8} (holds : Holds pipe after)
    {call : FdCall} (balance : accepted (calls ++ [call]) = returned (calls ++ [call]) ++ after) :
    Flowing (s.setPipe p pipe) rfd wfd p (calls ++ [call]) after where
  reads := flowing.reads.setPipe ends
  writes := flowing.writes.setPipe ends
  readOpen := by simpa [ends.readClosed] using flowing.readOpen
  writeOpen := by simpa [ends.writeClosed] using flowing.writeOpen
  holds := by simpa using holds
  balance := balance

theorem step (flowing : Flowing s rfd wfd p calls queue) {call : FdCall}
    (taken : Guarded FdStep (OnEnds rfd wfd) s call s') :
    ∃ after, Flowing s' rfd wfd p (calls ++ [call]) after := by
  obtain ⟨onEnds, step⟩ := taken
  have balance := flowing.balance
  cases step with
  | @read s' fd count reply ran =>
    obtain rfl : fd = rfd := onEnds
    obtain ⟨pipe, reading, rest, ends⟩ := flowing.reads.read flowing.readOpen flowing.holds count
    obtain ⟨rfl, rfl⟩ : s.setPipe p pipe = s' ∧ .done (queue.take count) = reply := by
      simpa [reading] using ran
    refine ⟨queue.drop count, flowing.setPipe ends rest ?_⟩
    unfold accepted returned at balance ⊢
    simp [balance]
  | @write s' fd buf reply ran =>
    obtain rfl : fd = wfd := onEnds
    obtain ⟨pipe, writing, stored, ends⟩ :=
      flowing.writes.write flowing.writeOpen flowing.holds buf
    obtain ⟨rfl, rfl⟩ : s.setPipe p pipe = s' ∧
        .done (min buf.length (pipeBufSize - queue.length)) = reply := by
      simpa [writing] using ran
    refine ⟨_, flowing.setPipe ends stored ?_⟩
    have clipped : buf.take (min buf.length (pipeBufSize - queue.length)) =
        buf.take (pipeBufSize - queue.length) := List.take_eq_take_iff.mpr (by omega)
    unfold accepted returned at balance ⊢
    simp [balance, clipped]
  | «open» => exact onEnds.elim
  | pipe => exact onEnds.elim
  | dup2 => exact onEnds.elim
  | close => exact onEnds.elim

theorem fifoAt (flowing : Flowing s rfd wfd p calls queue) : FifoAt s rfd wfd p calls where
  order := by
    rw [flowing.balance]
    exact List.prefix_append _ _
  held := by rw [flowing.balance, List.length_append, flowing.holds.count]
  bounded := by
    rw [flowing.holds.count]
    exact flowing.holds.fits
  reader := flowing.holds.reader
  writer := flowing.holds.writePos_lt
  positions := flowing.holds.writer
  write := by
    intro buf
    obtain ⟨pipe, ran, -, -⟩ := flowing.writes.write flowing.writeOpen flowing.holds buf
    exact ⟨_, by rw [ran, flowing.holds.count]⟩
  read := by
    intro count
    obtain ⟨pipe, ran, -, -⟩ := flowing.reads.read flowing.readOpen flowing.holds count
    exact ⟨_, _, ran, by rw [List.length_take, flowing.holds.count]⟩

end Flowing

variable {s s' : FdState}

theorem vfsRead_done {fd count : Nat} {bytes : List UInt8}
    (ran : vfsRead s fd count = .ok (s', .done bytes)) :
    s.vfs.initialized = true ∧ s.backend fd = none := by
  unfold vfsRead at ran
  split at ran
  next inside =>
    split at ran
    next => cases ran
    next plain => exact ⟨inside.2, plain⟩
  next => cases ran

theorem vfsWrite_done {fd written : Nat} {buf : List UInt8}
    (ran : vfsWrite s fd buf = .ok (s', .done written)) :
    s.vfs.initialized = true ∧ s.backend fd = none := by
  unfold vfsWrite at ran
  split at ran
  next inside =>
    split at ran
    next => cases ran
    next plain => exact ⟨inside.2, plain⟩
  next => cases ran

theorem vfsRead_special {fd : Nat} {backend : Backend} (inside : fd < maxFds)
    (ready : s.vfs.initialized = true) (owner : s.backend fd = some backend) (count : Nat) :
    vfsRead s fd count = .ok (s, .special backend) := by
  rw [vfsRead, dif_pos ⟨inside, ready⟩, owner]
  rfl

theorem vfsPipe_backend (s : FdState) (fd : Nat) : (vfsPipe s).1.backend fd = s.backend fd := by
  obtain ⟨-, same⟩ | ⟨-, _, _, -, same⟩ | ⟨_, _, _, -, -, -, -, same⟩ :=
    vfsPipe_cases (Prod.mk.eta (p := vfsPipe s)).symm
  · rw [same]
  · rw [same]
    rfl
  · rw [same]
    rfl

theorem vfsPipe_writes {rfd wfd : Fin maxFds}
    (made : vfsPipe s = (s', some (rfd, wfd))) (ready : s.vfs.initialized = true)
    (plain : s.backend wfd = none) :
    ∃ p, Reaches s' wfd p ∧ (s'.pipes p).writeClosed = false ∧ Holds (s'.pipes p) [] := by
  obtain ⟨impossible, -⟩ | ⟨impossible, -⟩ | ⟨p, r, w, results, free, -, -, rfl⟩ :=
    vfsPipe_cases made
  · cases impossible
  · cases impossible
  cases results
  refine ⟨p, .of_entry ready plain (update_self ..) ?_, ?_, ?_⟩
  · simp
  · simp [PipeBuffer.zero]
  · simpa using Holds.opened

theorem vfsPipe_flowing {rfd wfd : Fin maxFds}
    (made : vfsPipe s = (s', some (rfd, wfd))) (distinct : rfd ≠ wfd)
    (ready : s.vfs.initialized = true) (plainRead : s.backend rfd = none)
    (plainWrite : s.backend wfd = none) : ∃ p, Flowing s' rfd wfd p [] [] := by
  obtain ⟨impossible, -⟩ | ⟨impossible, -⟩ | ⟨p, r, w, results, free, -, -, rfl⟩ :=
    vfsPipe_cases made
  · cases impossible
  · cases impossible
  cases results
  have readEntry : update (update s.fdTable rfd ⟨some 0, p, oRdonly, true, 0⟩) wfd
      ⟨some 0, p, oWronly, true, 0⟩ rfd = ⟨some 0, p, oRdonly, true, 0⟩ := by
    rw [update_of_ne distinct, update_self]
  refine ⟨p, .of_entry ready plainRead readEntry ?_,
    .of_entry ready plainWrite (update_self ..) ?_, ?_, ?_, ?_, rfl⟩
  · simp
  · simp
  · simp [PipeBuffer.zero]
  · simp [PipeBuffer.zero]
  · simpa using Holds.opened

/-- A new pipe is a queue when neither number is open in a special filesystem. -/
theorem pipe_fifo_iff {s s' : FdState} {rfd wfd : Fin maxFds}
    (made : vfsPipe s = (s', some (rfd, wfd))) (distinct : rfd ≠ wfd) :
    IsFifo s' rfd wfd ↔
      s.vfs.initialized = true ∧ s.backend rfd = none ∧ s.backend wfd = none := by
  constructor
  · rintro ⟨p, -, fifo⟩
    have fresh := fifo [] s' .refl
    obtain ⟨_, writing⟩ := fresh.write []
    obtain ⟨_, _, reading, -⟩ := fresh.read 0
    have read := vfsRead_done reading
    have write := vfsWrite_done writing
    obtain ⟨impossible, -⟩ | ⟨impossible, -⟩ | ⟨_, _, _, -, -, -, -, rfl⟩ := vfsPipe_cases made
    · cases impossible
    · cases impossible
    · exact ⟨read.1, read.2, write.2⟩
  · rintro ⟨ready, plainRead, plainWrite⟩
    obtain ⟨p, flowing⟩ := vfsPipe_flowing made distinct ready plainRead plainWrite
    refine ⟨p, flowing.reads.index, fun calls final run => ?_⟩
    obtain ⟨queue, after⟩ := run.history
      (fun calls state => ∃ queue, Flowing state rfd wfd p calls queue)
      (fun _ _ _ _ ⟨_, flowing⟩ taken => flowing.step taken) ⟨[], flowing⟩
    exact after.fifoAt

/-- The first pipe after mounting has the descriptors 3 and 4. -/
theorem pipe_fifo_first : ∃ start s', boot (fun _ => .data fun _ => 0) = .ok start ∧
    vfsPipe (initialFds start) = (s', some (3, 4)) ∧ IsFifo s' 3 4 := by
  obtain ⟨start, _, booted, _, _, ready, _⟩ := boot_built (fun _ => .data fun _ => 0)
  have made : vfsPipe (initialFds start) = ((vfsPipe (initialFds start)).1, some (3, 4)) := rfl
  exact ⟨start, _, booted, made, (pipe_fifo_iff made (by decide)).mpr
    ⟨ready, initial_plain start 3, initial_plain start 4⟩⟩

/-- A call made by root, with no processes, sessions or drives around. -/
def bareRoot : Surroundings := ⟨some 0, [], [], fun _ => 0, fun _ _ => false⟩

theorem vfsOpen_root {fd : Fin maxFds} (ready : s.vfs.initialized = true)
    (mounted : s.vfs.yafs.rootLba ≠ 0) (scanned : scanFds s 0 0 maxFds = some fd) :
    vfsOpen s bareRoot (cstr "/") 0 =
      .ok (({ s with fdSearchStart := (fd.val + 1) % maxFds } : FdState).setFd fd
        ⟨some 0, 0, 0, true, 1⟩, some fd.val) := by
  rw [vfsOpen, if_neg (by simp [ready]), if_neg (by decide),
    show routedTo (cstr "/") = none from rfl]
  dsimp only
  rw [if_pos mounted]
  show Except.ok (openDescriptor s ⟨some 0, 0, 0, true, 1⟩) = _
  rw [openDescriptor, vfsAllocFd, scanned]

/-- The state after `/sys/proc` was opened and the cursor of `vfs_alloc_fd` moved to `n`. -/
def procOpened (vfs : State) (n : Nat) : FdState :=
  { initialFds vfs with
    procfs := ⟨update (fun _ => ⟨0, false⟩) 0 ⟨1000, true⟩, 1001⟩
    fdSearchStart := n }

section ProcOpened

variable {vfs : State}

theorem open_proc (ready : vfs.initialized = true) :
    vfsOpen (initialFds vfs) bareRoot (cstr "/sys/proc") 0 = .ok (procOpened vfs 0, some 1000) := by
  rw [vfsOpen, if_neg (by simp [initialFds, ready])]
  rfl

theorem procOpened_backend {n fd : Nat} (other : fd ≠ 1000) :
    (procOpened vfs n).backend fd = none := by
  refine FdState.backend_eq_none.mpr ⟨?_, SpecialTable.empty_isFd _ _,
    SpecialTable.empty_isFd _ _, SpecialTable.empty_isFd _ _⟩
  rw [SpecialTable.isFd_iff]
  rintro ⟨k, used, number⟩
  by_cases first : k = 0
  · subst first
    exact other number.symm
  · simp [procOpened, update_of_ne first] at used

theorem close_root (ready : vfs.initialized = true) {n m : Nat} (inside : n < maxFds)
    (other : n ≠ 1000) :
    vfsClose ((procOpened vfs m).setFd ⟨n, inside⟩ ⟨some 0, 0, 0, true, 1⟩) n =
      (procOpened vfs m, true) := by
  rw [vfsClose, dif_pos ⟨inside, ready⟩, FdState.setFd_backend, procOpened_backend other]
  simp [closePipe, FileDesc.IsPipe, FdState.setFd, procOpened, initialFds]

theorem procOpened_reached (ready : vfs.initialized = true) (mounted : vfs.yafs.rootLba ≠ 0)
    (n : Nat) : n ≤ 1000 → ∃ calls, Steps FdStep (initialFds vfs) calls (procOpened vfs n) := by
  induction n with
  | zero =>
    intro _
    exact ⟨_, Steps.step .refl (.open (open_proc ready))⟩
  | succ n ih =>
    intro below
    have inside : n < maxFds := by
      unfold maxFds
      omega
    obtain ⟨calls, run⟩ := ih (by omega)
    have scanned : scanFds (procOpened vfs n) 0 0 maxFds = some ⟨n, inside⟩ :=
      scanFds_here rfl (Nat.zero_le _) rfl
    have opened := vfsOpen_root ready mounted scanned
    rw [Nat.mod_eq_of_lt (show n + 1 < maxFds by unfold maxFds; omega)] at opened
    exact ⟨_, (run.step (.open opened)).step (.close (close_root ready inside (by omega)))⟩

end ProcOpened

/-- The pipe is made on 1000 and 1001, and its read goes to the process filesystem. -/
theorem pipe_end_captured :
    ∃ start s s' calls, boot (fun _ => .data fun _ => 0) = .ok start ∧
      Steps FdStep (initialFds start) calls s ∧ vfsPipe s = (s', some (1000, 1001)) ∧
      (∃ written, vfsWrite s' 1001 [7] = .ok (written, .done 1) ∧
        vfsRead written 1000 1 = .ok (written, .special .procfs)) ∧
      ¬ IsFifo s' 1000 1001 := by
  obtain ⟨start, _, booted, built, _, ready, _⟩ := boot_built (fun _ => .data fun _ => 0)
  obtain ⟨calls, run⟩ := procOpened_reached ready built.rooted 1000 (Nat.le_refl _)
  have made : vfsPipe (procOpened start 1000) =
      ((vfsPipe (procOpened start 1000)).1, some (1000, 1001)) := rfl
  have owner : (vfsPipe (procOpened start 1000)).1.backend 1000 = some .procfs := by
    rw [vfsPipe_backend]
    rfl
  obtain ⟨p, writes, isOpen, holds⟩ :=
    vfsPipe_writes made ready
      (procOpened_backend (show ((1001 : Fin maxFds) : Nat) ≠ 1000 by decide))
  refine ⟨start, _, _, calls, booted, run, made, ?_, ?_⟩
  · obtain ⟨pipe, ran, -, -⟩ := writes.write isOpen holds [7]
    refine ⟨_, ran, ?_⟩
    apply vfsRead_special (by decide)
    · exact writes.ready
    · exact owner
  · rintro ⟨_, -, fifo⟩
    obtain ⟨_, _, reading, -⟩ := (fifo [] _ .refl).read 0
    have plain := (vfsRead_done reading).2
    rw [show ((1000 : Fin maxFds) : Nat) = 1000 from rfl, owner] at plain
    cases plain

end M4KK1.Vfs
