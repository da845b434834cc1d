import M4KK1.Vfs.Calls
import M4KK1.Vfs.Special

/-!
# Descriptors and pipes of `vfs.c`

The special filesystems are asked before the descriptor table; `none` or `false` is -1.
-/

namespace M4KK1.Vfs

open Lib Yafs Function

def maxFds : Nat := 1024

def maxPipes : Nat := 32

def pipeBufSize : Nat := 4096

def maxFiles : Nat := 128

instance : NeZero maxFds := ⟨by decide⟩

instance : NeZero maxPipes := ⟨by decide⟩

instance : NeZero maxFiles := ⟨by decide⟩

def oRdonly : Nat := 0x1

def oWronly : Nat := 0x2

def oCreat : Nat := 0x100

def oTrunc : Nat := 0x1000

def oAppend : Nat := 0x2000

/-- `mkrn_file_desc_t`; `file` is an index into `file_table`, or NULL. -/
structure FileDesc where
  file : Option (Fin maxFiles)
  offset : Nat
  flags : Nat
  inUse : Bool
  yafsInode : Nat
deriving DecidableEq, Repr

def FileDesc.zero : FileDesc := ⟨none, 0, 0, false, 0⟩

/-- The test for a pipe: `file_table[0]` without an inode. -/
def FileDesc.IsPipe (d : FileDesc) : Prop := d.file = some 0 ∧ d.yafsInode = 0

instance (d : FileDesc) : Decidable d.IsPipe := inferInstanceAs (Decidable (_ ∧ _))

/-- `pipe_buffer_t` -/
structure PipeBuffer where
  data : CArray UInt8 pipeBufSize
  readPos : Nat
  writePos : Nat
  bytes : Nat
  inUse : Bool
  readClosed : Bool
  writeClosed : Bool

def PipeBuffer.zero : PipeBuffer := ⟨.fill 0, 0, 0, 0, false, false, false⟩

/-- `mkrn_file_ent_t` without its contents: `regular` is `M4K_FILE_REGULAR`. -/
structure FileEnt where
  name : CString
  regular : Bool
  size : Nat
  capacity : Nat
  inUse : Bool

/-- The special filesystems, in the order in which they are asked. -/
inductive Backend where
  | procfs
  | sessions
  | deviceTree
  | devfs
deriving DecidableEq, Repr

/-- The globals of `vfs.c` and the open files of the special filesystems. -/
structure FdState where
  vfs : State
  fileTable : Fin maxFiles → FileEnt
  fdTable : Fin maxFds → FileDesc
  fdSearchStart : Nat
  pipes : Fin maxPipes → PipeBuffer
  procfs : SpecialTable 64
  sessions : SpecialTable 32
  deviceTree : SpecialTable 32
  devfs : SpecialTable 64

/-- Which special filesystem a call on the descriptor goes to. -/
def FdState.backend (s : FdState) (fd : Nat) : Option Backend :=
  if s.procfs.IsFd fd then some .procfs
  else if s.sessions.IsFd fd then some .sessions
  else if s.deviceTree.IsFd fd then some .deviceTree
  else if s.devfs.IsFd fd then some .devfs
  else none

variable {s s' : FdState}

theorem FdState.backend_eq_none {fd : Nat} :
    s.backend fd = none ↔ ¬ s.procfs.IsFd fd ∧ ¬ s.sessions.IsFd fd ∧ ¬ s.deviceTree.IsFd fd ∧
      ¬ s.devfs.IsFd fd := by
  unfold FdState.backend
  split_ifs <;> simp_all

def FdState.setFd (s : FdState) (fd : Fin maxFds) (d : FileDesc) : FdState :=
  { s with fdTable := update s.fdTable fd d }

def FdState.setPipe (s : FdState) (p : Fin maxPipes) (pipe : PipeBuffer) : FdState :=
  { s with pipes := update s.pipes p pipe }

section Updates

variable (s : FdState) (fd : Fin maxFds) (d : FileDesc) (p : Fin maxPipes) (pipe : PipeBuffer)

@[simp] theorem FdState.setFd_vfs : (s.setFd fd d).vfs = s.vfs := rfl

@[simp] theorem FdState.setFd_pipes : (s.setFd fd d).pipes = s.pipes := rfl

@[simp] theorem FdState.setFd_fdTable : (s.setFd fd d).fdTable = update s.fdTable fd d := rfl

@[simp] theorem FdState.setFd_backend (number : Nat) :
    (s.setFd fd d).backend number = s.backend number := rfl

@[simp] theorem FdState.setPipe_vfs : (s.setPipe p pipe).vfs = s.vfs := rfl

@[simp] theorem FdState.setPipe_fdTable : (s.setPipe p pipe).fdTable = s.fdTable := rfl

@[simp] theorem FdState.setPipe_pipes : (s.setPipe p pipe).pipes = update s.pipes p pipe := rfl

@[simp] theorem FdState.setPipe_backend (number : Nat) :
    (s.setPipe p pipe).backend number = s.backend number := rfl

end Updates

/-- The loop of `vfs_alloc_fd` from its step `n` on. -/
def scanFds (s : FdState) (minFd : Nat) (n : Nat) : Nat → Option (Fin maxFds)
  | 0 => none
  | steps + 1 =>
    let i : Fin maxFds := ⟨(s.fdSearchStart + n) % maxFds, Nat.mod_lt _ (by decide)⟩
    if i.val < minFd ∨ (s.fdTable i).inUse = true then scanFds s minFd (n + 1) steps else some i

/-- `vfs_alloc_fd`: the number, and the cursor moved behind it. The slot is not marked. -/
def vfsAllocFd (s : FdState) (minFd : Nat) : FdState × Option (Fin maxFds) :=
  match scanFds s minFd 0 maxFds with
  | none => (s, none)
  | some i => ({ s with fdSearchStart := (i.val + 1) % maxFds }, some i)

theorem scanFds_free {minFd : Nat} {i : Fin maxFds} (steps : Nat) :
    ∀ n, scanFds s minFd n steps = some i → minFd ≤ i.val ∧ (s.fdTable i).inUse = false := by
  induction steps with
  | zero =>
    intro n found
    cases found
  | succ steps ih =>
    intro n found
    rw [scanFds] at found
    dsimp only at found
    split at found
    next taken => exact ih _ found
    next free =>
      cases found
      simpa using free

theorem scanFds_here {fd : Fin maxFds} (cursor : s.fdSearchStart = fd) {minFd : Nat}
    (above : minFd ≤ fd) (free : (s.fdTable fd).inUse = false) :
    scanFds s minFd 0 maxFds = some fd := by
  have here : (⟨(s.fdSearchStart + 0) % maxFds, Nat.mod_lt _ (by decide)⟩ : Fin maxFds) = fd := by
    apply Fin.ext
    rw [cursor]
    exact Nat.mod_eq_of_lt fd.isLt
  show scanFds s minFd 0 (1023 + 1) = some fd
  rw [scanFds, here, if_neg]
  simp [above, free]

theorem scanFds_congr {t : FdState} (sameTable : s.fdTable = t.fdTable)
    (sameStart : s.fdSearchStart = t.fdSearchStart) (minFd steps : Nat) :
    ∀ n, scanFds s minFd n steps = scanFds t minFd n steps := by
  induction steps with
  | zero =>
    intro n
    rfl
  | succ steps ih =>
    intro n
    simp only [scanFds, sameTable, sameStart, ih]

theorem vfsAllocFd_cases {minFd : Nat} {result : Option (Fin maxFds)}
    (ran : vfsAllocFd s minFd = (s', result)) :
    (s' = s ∧ result = none) ∨
    ∃ i, result = some i ∧ scanFds s minFd 0 maxFds = some i ∧ minFd ≤ i.val ∧
      (s.fdTable i).inUse = false ∧ s' = { s with fdSearchStart := (i.val + 1) % maxFds } := by
  unfold vfsAllocFd at ran
  split at ran
  next => cases ran; exact .inl ⟨rfl, rfl⟩
  next i found =>
    cases ran
    obtain ⟨above, free⟩ := scanFds_free _ _ found
    exact .inr ⟨i, rfl, found, above, free, rfl⟩

/-- `mkrn_vfs_pipe`: the read and the write descriptor. -/
def vfsPipe (s : FdState) : FdState × Option (Fin maxFds × Fin maxFds) :=
  match firstSlot s.pipes fun pipe => pipe.inUse = false with
  | none => (s, none)
  | some p =>
    let s := s.setPipe p { PipeBuffer.zero with inUse := true }
    match vfsAllocFd s 3 with
    | (s, none) => (s.setPipe p { s.pipes p with inUse := false }, none)
    | (s, some rfd) =>
      match vfsAllocFd s 3 with
      | (s, none) => (s.setPipe p { s.pipes p with inUse := false }, none)
      | (s, some wfd) =>
        let s := s.setFd rfd ⟨some 0, p, oRdonly, true, 0⟩
        let s := s.setFd wfd ⟨some 0, p, oWronly, true, 0⟩
        (s, some (rfd, wfd))

/-- The end of a pipe a descriptor stands for, as `mkrn_vfs_close` tells it. -/
def FileDesc.isWriteEnd (d : FileDesc) : Bool := d.flags &&& oWronly ≠ 0

def PipeBuffer.closeEnd (pipe : PipeBuffer) (writeEnd : Bool) : PipeBuffer :=
  let pipe :=
    if writeEnd then { pipe with writeClosed := true } else { pipe with readClosed := true }
  if pipe.readClosed && pipe.writeClosed then PipeBuffer.zero else pipe

def FileDesc.pipeIndex (d : FileDesc) : Option (Fin maxPipes) :=
  if inside : d.offset < maxPipes then some ⟨d.offset, inside⟩ else none

/-- The teardown of a pipe in `mkrn_vfs_close`. -/
def closePipe (s : FdState) (d : FileDesc) : FdState :=
  if d.IsPipe then
    match d.pipeIndex with
    | none => s
    | some p =>
      if (s.pipes p).inUse then s.setPipe p ((s.pipes p).closeEnd d.isWriteEnd) else s
  else s

theorem closePipe_pipes (s : FdState) (d : FileDesc) :
    ∃ pipes, closePipe s d = { s with pipes := pipes } := by
  unfold closePipe
  split
  next =>
    split
    next => exact ⟨s.pipes, rfl⟩
    next =>
      split
      next => exact ⟨_, rfl⟩
      next => exact ⟨s.pipes, rfl⟩
  next => exact ⟨s.pipes, rfl⟩

theorem closePipe_eq {d : FileDesc} {p : Fin maxPipes} (isPipe : d.IsPipe)
    (index : d.pipeIndex = some p) (used : (s.pipes p).inUse = true) :
    closePipe s d = s.setPipe p ((s.pipes p).closeEnd d.isWriteEnd) := by
  rw [closePipe, if_pos isPipe, index]
  exact if_pos used

def vfsClose (s : FdState) (fd : Nat) : FdState × Bool :=
  if inside : fd < maxFds ∧ s.vfs.initialized = true then
    match s.backend fd with
    | some .procfs => ({ s with procfs := (s.procfs.close fd).1 }, (s.procfs.close fd).2)
    | some .sessions => ({ s with sessions := (s.sessions.close fd).1 }, (s.sessions.close fd).2)
    | some .deviceTree =>
      ({ s with deviceTree := (s.deviceTree.close fd).1 }, (s.deviceTree.close fd).2)
    | some .devfs => ({ s with devfs := (s.devfs.close fd).1 }, (s.devfs.close fd).2)
    | none =>
      let fd : Fin maxFds := ⟨fd, inside.1⟩
      if (s.fdTable fd).inUse = false then (s, false)
      else ((closePipe s (s.fdTable fd)).setFd fd FileDesc.zero, true)
  else (s, false)

def FdState.closeSpecial (s : FdState) (fd : Nat) : Backend → FdState
  | .procfs => { s with procfs := (s.procfs.close fd).1 }
  | .sessions => { s with sessions := (s.sessions.close fd).1 }
  | .deviceTree => { s with deviceTree := (s.deviceTree.close fd).1 }
  | .devfs => { s with devfs := (s.devfs.close fd).1 }

/-- A close refuses, asks a special filesystem, or frees the slot with its pipe end. -/
theorem vfsClose_cases {fd : Nat} {ok : Bool} (ran : vfsClose s fd = (s', ok)) :
    (s' = s ∧ ok = false) ∨
    (∃ owner, s.backend fd = some owner ∧ fd < maxFds ∧ s' = s.closeSpecial fd owner) ∨
    ∃ slot : Fin maxFds, slot.val = fd ∧ s.backend fd = none ∧ (s.fdTable slot).inUse = true ∧
      s' = (closePipe s (s.fdTable slot)).setFd slot FileDesc.zero ∧ ok = true := by
  unfold vfsClose at ran
  split at ran
  next inside =>
    cases owner : s.backend fd with
    | none =>
      rw [owner] at ran
      dsimp only at ran
      split at ran
      next => cases ran; exact .inl ⟨rfl, rfl⟩
      next used =>
        cases ran
        exact .inr (.inr ⟨⟨fd, inside.1⟩, rfl, rfl, by simpa using used, rfl, rfl⟩)
    | some backend =>
      rw [owner] at ran
      refine .inr (.inl ⟨backend, rfl, inside.1, ?_⟩)
      cases backend
      all_goals
        cases ran
        rfl
  next => cases ran; exact .inl ⟨rfl, rfl⟩

theorem vfsClose_entry {fd : Fin maxFds} (ready : s.vfs.initialized = true)
    (plain : s.backend fd = none) (used : (s.fdTable fd).inUse = true) :
    vfsClose s fd = ((closePipe s (s.fdTable fd)).setFd fd FileDesc.zero, true) := by
  rw [vfsClose, dif_pos ⟨fd.isLt, ready⟩, plain]
  dsimp only
  rw [if_neg (by simp [used])]

def vfsDup2 (s : FdState) (oldfd newfd : Nat) : FdState × Option Nat :=
  if inside : oldfd < maxFds ∧ newfd < maxFds then
    let old : Fin maxFds := ⟨oldfd, inside.1⟩
    let new : Fin maxFds := ⟨newfd, inside.2⟩
    if (s.fdTable old).inUse = false then (s, none)
    else if oldfd = newfd then (s, some newfd)
    else
      let s := if (s.fdTable new).inUse then (vfsClose s newfd).1 else s
      (s.setFd new (s.fdTable old), some newfd)
  else (s, none)

/-- The segment loop of `mkrn_vfs_read` on a pipe; `count` rounds are enough. -/
def pipeReadLoop : Nat → PipeBuffer → Nat → List UInt8 → PipeBuffer × List UInt8
  | 0, pipe, _, out => (pipe, out)
  | rounds + 1, pipe, remaining, out =>
    if 0 < remaining ∧ 0 < pipe.bytes then
      let seg := min (min (pipeBufSize - pipe.readPos) pipe.bytes) remaining
      let chunk := (List.range seg).map fun index => pipe.data.cell (pipe.readPos + index)
      pipeReadLoop rounds
        { pipe with readPos := (pipe.readPos + seg) % pipeBufSize, bytes := pipe.bytes - seg }
        (remaining - seg) (out ++ chunk)
    else (pipe, out)

/-- `memcpy(data + pos, chunk, chunk.length)` -/
def PipeBuffer.store (pipe : PipeBuffer) (pos : Nat) (chunk : List UInt8) :
    CArray UInt8 pipeBufSize :=
  ⟨fun cell =>
    if pos ≤ cell ∧ cell < pos + chunk.length then chunk.getD (cell - pos) 0
    else pipe.data.cell cell⟩

/-- The segment loop of `mkrn_vfs_write` on a pipe, with the number written. -/
def pipeWriteLoop : Nat → PipeBuffer → List UInt8 → Nat → PipeBuffer × Nat
  | 0, pipe, _, total => (pipe, total)
  | rounds + 1, pipe, rest, total =>
    if 0 < rest.length ∧ pipe.bytes < pipeBufSize then
      let seg := min (min (pipeBufSize - pipe.writePos) (pipeBufSize - pipe.bytes)) rest.length
      pipeWriteLoop rounds
        { pipe with
          data := pipe.store pipe.writePos (rest.take seg)
          writePos := (pipe.writePos + seg) % pipeBufSize
          bytes := pipe.bytes + seg }
        (rest.drop seg) (total + seg)
    else (pipe, total)

/-- A read or a write ends with -1, in a pipe or YAFS, or in another filesystem. -/
inductive Reply (α : Type) where
  | refused
  | done (result : α)
  | special (backend : Backend)
  | ramfs
deriving DecidableEq, Repr

/-- The pipe branch of `mkrn_vfs_read`. -/
def pipeRead (s : FdState) (d : FileDesc) (count : Nat) : FdState × Reply (List UInt8) :=
  match d.pipeIndex with
  | none => (s, .refused)
  | some p =>
    if (s.pipes p).inUse = false ∨ (s.pipes p).readClosed = true then (s, .refused)
    else
      let (pipe, out) := pipeReadLoop count (s.pipes p) count []
      (s.setPipe p pipe, .done out)

/-- The pipe branch of `mkrn_vfs_write`. -/
def pipeWrite (s : FdState) (d : FileDesc) (buf : List UInt8) : FdState × Reply Nat :=
  match d.pipeIndex with
  | none => (s, .refused)
  | some p =>
    if (s.pipes p).inUse = false ∨ (s.pipes p).writeClosed = true then (s, .refused)
    else
      let (pipe, total) := pipeWriteLoop buf.length (s.pipes p) buf 0
      (s.setPipe p pipe, .done total)

def vfsRead (s : FdState) (fd count : Nat) : Except Fault (FdState × Reply (List UInt8)) :=
  if inside : fd < maxFds ∧ s.vfs.initialized = true then
    match s.backend fd with
    | some backend => return (s, .special backend)
    | none =>
      let fd : Fin maxFds := ⟨fd, inside.1⟩
      let d := s.fdTable fd
      if d.IsPipe then return pipeRead s d count
      else if d.inUse = false ∨ d.file = none then return (s, .refused)
      else if d.yafsInode ≠ 0 ∧ s.vfs.yafs.rootLba ≠ 0 then do
        let (bytes, ok) ← readFileData s.vfs.yafs d.yafsInode d.offset count
        if ok then
          return (s.setFd fd { d with offset := (d.offset + bytes.length) % 2 ^ 32 }, .done bytes)
        else return (s, .refused)
      else return (s, .ramfs)
  else return (s, .refused)

def vfsWrite (s : FdState) (fd : Nat) (buf : List UInt8) : Except Fault (FdState × Reply Nat) :=
  if inside : fd < maxFds ∧ s.vfs.initialized = true then
    match s.backend fd with
    | some backend => return (s, .special backend)
    | none =>
      let fd : Fin maxFds := ⟨fd, inside.1⟩
      let d := s.fdTable fd
      if d.IsPipe then return pipeWrite s d buf
      else if d.inUse = false ∨ d.file = none then return (s, .refused)
      else if d.yafsInode ≠ 0 ∧ s.vfs.yafs.rootLba ≠ 0 then do
        let out ← writeFileData s.vfs.yafs d.yafsInode buf d.offset
        let s := { s with vfs := { s.vfs with yafs := out.state } }
        if out.ok then
          return (s.setFd fd { d with offset := (d.offset + out.written) % 2 ^ 32 },
            .done out.written)
        else return (s, .refused)
      else return (s, .ramfs)
  else return (s, .refused)

theorem pipeRead_pipes (s : FdState) (d : FileDesc) (count : Nat) :
    ∃ pipes, (pipeRead s d count).1 = { s with pipes := pipes } := by
  unfold pipeRead
  split
  next => exact ⟨s.pipes, rfl⟩
  next =>
    split
    next => exact ⟨s.pipes, rfl⟩
    next => exact ⟨_, rfl⟩

theorem pipeWrite_pipes (s : FdState) (d : FileDesc) (buf : List UInt8) :
    ∃ pipes, (pipeWrite s d buf).1 = { s with pipes := pipes } := by
  unfold pipeWrite
  split
  next => exact ⟨s.pipes, rfl⟩
  next =>
    split
    next => exact ⟨s.pipes, rfl⟩
    next => exact ⟨_, rfl⟩

theorem vfsRead_cases {fd count : Nat} {reply : Reply (List UInt8)}
    (ran : vfsRead s fd count = .ok (s', reply)) :
    s' = s ∨
    (∃ slot : Fin maxFds, slot.val = fd ∧ (s.fdTable slot).IsPipe ∧
      pipeRead s (s.fdTable slot) count = (s', reply)) ∨
    ∃ (slot : Fin maxFds) (offset : Nat), slot.val = fd ∧ (s.fdTable slot).yafsInode ≠ 0 ∧
      s' = s.setFd slot { s.fdTable slot with offset := offset } := by
  unfold vfsRead at ran
  split at ran
  next inside =>
    split at ran
    next => cases ran; exact .inl rfl
    next =>
      dsimp only at ran
      split at ran
      next isPipe => exact .inr (.inl ⟨⟨fd, inside.1⟩, rfl, isPipe, Except.ok.inj ran⟩)
      next =>
        split at ran
        next => cases ran; exact .inl rfl
        next =>
          split at ran
          next isFile =>
            obtain ⟨⟨bytes, ok⟩, -, ran⟩ := bind_ok ran
            dsimp only at ran
            split at ran
            next => cases ran; exact .inr (.inr ⟨⟨fd, inside.1⟩, _, rfl, isFile.1, rfl⟩)
            next => cases ran; exact .inl rfl
          next => cases ran; exact .inl rfl
  next => cases ran; exact .inl rfl

theorem vfsWrite_cases {fd : Nat} {buf : List UInt8} {reply : Reply Nat}
    (ran : vfsWrite s fd buf = .ok (s', reply)) :
    s' = s ∨
    (∃ slot : Fin maxFds, slot.val = fd ∧ (s.fdTable slot).IsPipe ∧
      pipeWrite s (s.fdTable slot) buf = (s', reply)) ∨
    ∃ (slot : Fin maxFds) (out : WriteOut), slot.val = fd ∧ (s.fdTable slot).yafsInode ≠ 0 ∧
      writeFileData s.vfs.yafs (s.fdTable slot).yafsInode buf (s.fdTable slot).offset = .ok out ∧
      (s' = { s with vfs := { s.vfs with yafs := out.state } } ∨
        ∃ offset, s' = ({ s with vfs := { s.vfs with yafs := out.state } } : FdState).setFd slot
          { s.fdTable slot with offset := offset }) := by
  unfold vfsWrite at ran
  split at ran
  next inside =>
    split at ran
    next => cases ran; exact .inl rfl
    next =>
      dsimp only at ran
      split at ran
      next isPipe => exact .inr (.inl ⟨⟨fd, inside.1⟩, rfl, isPipe, Except.ok.inj ran⟩)
      next =>
        split at ran
        next => cases ran; exact .inl rfl
        next =>
          split at ran
          next isFile =>
            obtain ⟨out, wrote, ran⟩ := bind_ok ran
            split at ran
            next =>
              cases ran
              exact .inr (.inr ⟨⟨fd, inside.1⟩, out, rfl, isFile.1, wrote, .inr ⟨_, rfl⟩⟩)
            next =>
              cases ran
              exact .inr (.inr ⟨⟨fd, inside.1⟩, out, rfl, isFile.1, wrote, .inl rfl⟩)
          next => cases ran; exact .inl rfl
  next => cases ran; exact .inl rfl

/-- The paths under `/sys` and `/boot` that only root may open, by their spelling. -/
def protectedSpelling (path : CString) : Bool :=
  path = cstr "/sys" || startsWith path (cstr "/sys/") || path = cstr "/boot" ||
    startsWith path (cstr "/boot/")

def routedTo (path : CString) : Option Backend :=
  if startsWith path (cstr "/sys/proc") then some .procfs
  else if startsWith path (cstr "/sys/sessions") then some .sessions
  else if startsWith path (cstr "/device") then some .deviceTree
  else if startsWith path (cstr "/dev/") ∨ path = cstr "/dev" then some .devfs
  else none

/-- The `open` of a special filesystem. -/
def openSpecial (s : FdState) (env : Surroundings) (backend : Backend) (path : CString)
    (flags : Nat) : FdState × Option Nat :=
  match backend with
  | .procfs =>
    if procfsOpens env path then
      match procfsAllocFile s.procfs with
      | none => (s, none)
      | some table => ({ s with procfs := table }, some (procfsFd s.procfs))
    else (s, none)
  | .sessions =>
    if sessionsOpens env path then
      match sessionsAllocFile s.sessions with
      | none => (s, none)
      | some table => ({ s with sessions := table }, some s.sessions.next)
    else (s, none)
  | .deviceTree =>
    if deviceTreeOpens path then
      match dtAllocFile s.deviceTree with
      | none => (s, none)
      | some table => ({ s with deviceTree := table }, some s.deviceTree.next)
    else (s, none)
  | .devfs =>
    if devfsOpens env path flags then
      match devfsAllocFile s.devfs with
      | none => (s, none)
      | some table => ({ s with devfs := table }, some s.devfs.next)
    else (s, none)

/-- A free descriptor filled in, for the file that was found. -/
def openDescriptor (s : FdState) (d : FileDesc) : FdState × Option Nat :=
  match vfsAllocFd s 0 with
  | (s, none) => (s, none)
  | (s, some fd) => (s.setFd fd d, some fd)

/-- The inode `mkrn_vfs_open` finds for a path, after creating the file if asked to. -/
def openInode (state : State) (path : CString) (flags : Nat) :
    Except Fault (State × Option Nat) := do
  let inode ← if path = cstr "/" then pure 1 else
    lookupPath state.yafs.device state.yafs.rootLba path
  if inode = 0 ∧ flags &&& oCreat ≠ 0 then do
    let (state, made) ← createFileYafs state (some path)
    if made = false then return (state, none)
    else do
      let inode ← lookupPath state.yafs.device state.yafs.rootLba path
      return (state, if inode = 0 then none else some inode)
  else return (state, if inode = 0 then none else some inode)

/-- Where `M4K_O_APPEND` starts on a YAFS file. -/
def appendOffset (yafs : BtreeState) (inode flags : Nat) : Except Fault Nat :=
  if flags &&& oAppend ≠ 0 then do
    match ← readInodeRaw yafs inode with
    | none => return 0
    | some (_, value) => return value.size % 2 ^ 32
  else return 0

/-- The YAFS branch of `mkrn_vfs_open`. -/
def openYafs (s : FdState) (path : CString) (flags : Nat) :
    Except Fault (FdState × Option Nat) := do
  let (vfs, found) ← openInode s.vfs path flags
  match found with
  | none => return ({ s with vfs := vfs }, none)
  | some inode => do
    let (vfs, ready) ← if flags &&& oTrunc ≠ 0 then truncate vfs inode else pure (vfs, true)
    let s := { s with vfs := vfs }
    if ready = false then return (s, none)
    else do
      let offset ← appendOffset s.vfs.yafs inode flags
      return openDescriptor s ⟨some 0, offset, flags, true, inode⟩

/-- The filesystem after the `M4K_O_TRUNC` of an `open`, and whether that succeeded. -/
def Truncated (flags inode : Nat) (vfs vfs' : State) (ready : Bool) : Prop :=
  (flags &&& oTrunc ≠ 0 ∧ truncate vfs inode = .ok (vfs', ready)) ∨
  (flags &&& oTrunc = 0 ∧ vfs' = vfs ∧ ready = true)

theorem openReady_ok {ready : Bool} {inode flags : Nat} {result : Option Nat}
    (ran : (if ready = false then pure (s, none) else do
        let offset ← appendOffset s.vfs.yafs inode flags
        pure (openDescriptor s ⟨some 0, offset, flags, true, inode⟩) :
      Except Fault (FdState × Option Nat)) = .ok (s', result)) :
    (ready = false ∧ result = none ∧ s' = s) ∨
    (ready = true ∧ ∃ offset, openDescriptor s ⟨some 0, offset, flags, true, inode⟩ =
      (s', result)) := by
  split at ran
  next failed =>
    cases ran
    exact .inl ⟨failed, rfl, rfl⟩
  next succeeded =>
    obtain ⟨offset, -, ran⟩ := bind_ok ran
    exact .inr ⟨by simpa using succeeded, offset, Except.ok.inj ran⟩

theorem openYafs_ok {path : CString} {flags : Nat} {result : Option Nat}
    (ran : openYafs s path flags = .ok (s', result)) :
    ∃ found vfs, openInode s.vfs path flags = .ok (vfs, found) ∧
      ((found = none ∧ result = none ∧ s' = { s with vfs := vfs }) ∨
      ∃ inode vfs' ready, found = some inode ∧ Truncated flags inode vfs vfs' ready ∧
        ((ready = false ∧ result = none ∧ s' = { s with vfs := vfs' }) ∨
        (ready = true ∧ ∃ offset, openDescriptor { s with vfs := vfs' }
          ⟨some 0, offset, flags, true, inode⟩ = (s', result)))) := by
  obtain ⟨⟨vfs, found⟩, opened, ran⟩ := bind_ok ran
  refine ⟨found, vfs, opened, ?_⟩
  cases found with
  | none =>
    cases ran
    exact .inl ⟨rfl, rfl, rfl⟩
  | some inode =>
    dsimp only at ran
    split at ran
    next truncates =>
      obtain ⟨⟨vfs', ready⟩, truncated, ran⟩ := bind_ok ran
      exact .inr ⟨inode, vfs', ready, rfl, .inl ⟨truncates, truncated⟩, openReady_ok ran⟩
    next keeps =>
      rw [pure_eq_ok, ok_bind] at ran
      exact .inr ⟨inode, vfs, true, rfl, .inr ⟨not_not.mp keeps, rfl, rfl⟩, openReady_ok ran⟩

def findFile (s : FdState) (name : CString) : Option (Fin maxFiles) :=
  let name := if name.head? = some slash then name.drop 1 else name
  firstSlot s.fileTable fun file => file.inUse = true ∧ file.name = name

def createFile (s : FdState) (name : CString) : FdState × Option (Fin maxFiles) :=
  let name := if name.head? = some slash then name.drop 1 else name
  if findFile s name ≠ none then (s, none)
  else
    match (List.finRange maxFiles).find? fun k => 1 ≤ k.val ∧ (s.fileTable k).inUse = false with
    | none => (s, none)
    | some k =>
      ({ s with fileTable := update s.fileTable k ⟨name.take 127, true, 0, 0, true⟩ }, some k)

/-- The ramfs branch of `mkrn_vfs_open`. -/
def openRamfs (s : FdState) (path : CString) (flags : Nat) : FdState × Option Nat :=
  let (s, found) :=
    match findFile s path with
    | some k => (s, some k)
    | none => if flags &&& oCreat ≠ 0 then createFile s path else (s, none)
  match found with
  | none => (s, none)
  | some k =>
    let s :=
      if flags &&& oTrunc ≠ 0 then
        { s with fileTable :=
            update s.fileTable k { s.fileTable k with size := 0, capacity := 0 } }
      else s
    openDescriptor s
      ⟨some k, if flags &&& oAppend ≠ 0 then (s.fileTable k).size else 0, flags, true, 0⟩

def vfsOpen (s : FdState) (env : Surroundings) (path : CString) (flags : Nat) :
    Except Fault (FdState × Option Nat) :=
  if s.vfs.initialized = false then return (s, none)
  else if (env.euid.any fun euid => euid ≠ 0) = true ∧ protectedSpelling path = true then
    return (s, none)
  else
    match routedTo path with
    | some backend => return openSpecial s env backend path flags
    | none =>
      if s.vfs.yafs.rootLba ≠ 0 then openYafs s path flags
      else return openRamfs s path flags

/-- The state after `mkrn_vfs_init` and its siblings, around a mounted root. -/
def initialFds (vfs : State) : FdState :=
  { vfs := vfs
    fileTable := update (fun _ => ⟨[], false, 0, 0, false⟩) 0 ⟨cstr "/", false, 0, 0, true⟩
    fdTable := fun _ => FileDesc.zero
    fdSearchStart := 0
    pipes := fun _ => PipeBuffer.zero
    procfs := .empty 1000
    sessions := .empty 2000
    deviceTree := .empty 3000
    devfs := .empty 1000 }

/-- No special filesystem has a descriptor at first. -/
theorem initial_plain (vfs : State) (fd : Nat) : (initialFds vfs).backend fd = none :=
  FdState.backend_eq_none.mpr ⟨SpecialTable.empty_isFd _ _, SpecialTable.empty_isFd _ _,
    SpecialTable.empty_isFd _ _, SpecialTable.empty_isFd _ _⟩

/-- A call on descriptors and what it returned. The surroundings are those at the time of
the call. -/
inductive FdCall where
  | «open» (env : Surroundings) (path : CString) (flags : Nat) (result : Option Nat)
  | pipe (result : Option (Fin maxFds × Fin maxFds))
  | dup2 (oldfd newfd : Nat) (result : Option Nat)
  | close (fd : Nat) (ok : Bool)
  | read (fd count : Nat) (reply : Reply (List UInt8))
  | write (fd : Nat) (buf : List UInt8) (reply : Reply Nat)

inductive FdStep : FdState → FdCall → FdState → Prop where
  | «open» {s s' : FdState} {env : Surroundings} {path : CString} {flags : Nat}
      {result : Option Nat} (ran : vfsOpen s env path flags = .ok (s', result)) :
      FdStep s (.open env path flags result) s'
  | pipe {s s' : FdState} {result : Option (Fin maxFds × Fin maxFds)}
      (ran : vfsPipe s = (s', result)) : FdStep s (.pipe result) s'
  | dup2 {s s' : FdState} {oldfd newfd : Nat} {result : Option Nat}
      (ran : vfsDup2 s oldfd newfd = (s', result)) : FdStep s (.dup2 oldfd newfd result) s'
  | close {s s' : FdState} {fd : Nat} {ok : Bool} (ran : vfsClose s fd = (s', ok)) :
      FdStep s (.close fd ok) s'
  | read {s s' : FdState} {fd count : Nat} {reply : Reply (List UInt8)}
      (ran : vfsRead s fd count = .ok (s', reply)) : FdStep s (.read fd count reply) s'
  | write {s s' : FdState} {fd : Nat} {buf : List UInt8} {reply : Reply Nat}
      (ran : vfsWrite s fd buf = .ok (s', reply)) : FdStep s (.write fd buf reply) s'

end M4KK1.Vfs
