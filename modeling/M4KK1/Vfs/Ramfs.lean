import Mathlib.Algebra.Ring.Nat
import M4KK1.Lib.ByteMemory
import M4KK1.Vfs.Seek

/-!
# The contents of ramfs files

Files in buffers of the kernel heap; `HeapReply` is what `mkrn_alloc` and `mkrn_free` do.
-/

namespace M4KK1.Vfs

open Lib Yafs Function

/-- The globals of `vfs.c` with `data` of every file entry, `none` for NULL. -/
structure RamState where
  fds : FdState
  data : Fin maxFiles → Option Nat
  mem : ByteMemory

/-- The block that `mkrn_alloc` returns, and what allocating and freeing make of memory. -/
structure HeapReply where
  alloc : Nat → Option Nat
  onAlloc : ByteMemory → ByteMemory
  onFree : Nat → ByteMemory → ByteMemory

def RamState.file (s : RamState) (k : Fin maxFiles) : FileEnt := s.fds.fileTable k

def FdState.setOffset (s : FdState) (fd : Fin maxFds) (offset : Nat) : FdState :=
  s.setFd fd { s.fdTable fd with offset := offset }

def FdState.setFile (s : FdState) (k : Fin maxFiles) (file : FileEnt) : FdState :=
  { s with fileTable := update s.fileTable k file }

/-- The descriptor and the entry of its file, when its reads and writes come to the ramfs. -/
def ramTarget (s : FdState) (fd : Nat) : Option (Fin maxFds × Fin maxFiles) :=
  if inside : fd < maxFds ∧ s.vfs.initialized = true then
    let slot : Fin maxFds := ⟨fd, s.inTable inside⟩
    let d := s.fdTable slot
    if s.backend fd ≠ none ∨ d.IsPipe ∨ d.inUse = false ∨
        (d.yafsInode ≠ 0 ∧ s.vfs.yafs.rootLba ≠ 0) then none
    else d.file.map fun k => (slot, k)
  else none

/-- `M4K_O_TRUNC` of a ramfs file. -/
def RamState.truncate (s : RamState) (heap : HeapReply) (k : Fin maxFiles) : RamState :=
  { fds := s.fds.setFile k { s.file k with size := 0, capacity := 0 }
    data := update s.data k none
    mem :=
      match s.data k with
      | none => s.mem
      | some old => heap.onFree old s.mem }

/-- `mkrn_vfs_create_file`, which also clears `data`. -/
def ramCreate (s : RamState) (name : CString) : RamState × Option (Fin maxFiles) :=
  match createFile s.fds name with
  | (fds, none) => ({ s with fds := fds }, none)
  | (fds, some k) => ({ s with fds := fds, data := update s.data k none }, some k)

/-- The file that the ramfs branch of `mkrn_vfs_open` finds or creates. -/
def ramFound (s : RamState) (path : CString) (flags : Nat) : RamState × Option (Fin maxFiles) :=
  match findFile s.fds path with
  | some k => (s, some k)
  | none => if flags &&& oCreat ≠ 0 then ramCreate s path else (s, none)

/-- The ramfs branch of `mkrn_vfs_open`. -/
def ramOpenFile (s : RamState) (heap : HeapReply) (path : CString) (flags : Nat) :
    RamState × Option Nat :=
  match ramFound s path flags with
  | (s, none) => (s, none)
  | (s, some k) =>
    let s := if flags &&& oTrunc ≠ 0 then s.truncate heap k else s
    let (fds, result) := openDescriptor s.fds
      ⟨some k, if flags &&& oAppend ≠ 0 then (s.fds.fileTable k).size else 0, flags, true, 0⟩
    ({ s with fds := fds }, result)

/-- An `open` comes to the part of `mkrn_vfs_open` behind the special filesystems. -/
def opensFile (s : FdState) (env : Surroundings) (path : CString) : Bool :=
  s.vfs.initialized && !((env.euid.any fun euid => euid ≠ 0) && protectedSpelling path) &&
    (routedTo path).isNone

/-- `mkrn_vfs_open` -/
def ramOpen (s : RamState) (heap : HeapReply) (env : Surroundings) (path : CString) (flags : Nat) :
    Except Fault (RamState × Option Nat) :=
  if opensFile s.fds env path = true ∧ s.fds.vfs.yafs.rootLba = 0 then
    return ramOpenFile s heap path flags
  else do
    let (fds, result) ← vfsOpen s.fds env path flags
    return ({ s with fds := fds }, result)

def RamState.address (s : RamState) (k : Fin maxFiles) (offset : Nat) : Nat :=
  (s.data k).getD 0 + offset

/-- The ramfs branch of `mkrn_vfs_read`. -/
def ramReadFile (s : RamState) (fd : Fin maxFds) (k : Fin maxFiles) (count : Nat) :
    RamState × Reply (List UInt8) :=
  let d := s.fds.fdTable fd
  let file := s.file k
  if file.regular = false then (s, .refused)
  else if d.offset ≥ file.size then (s, .done [])
  else
    let toRead := if count < file.size - d.offset then count else file.size - d.offset
    let out := (List.range toRead).map fun i => s.mem (s.address k d.offset + i)
    ({ s with fds := s.fds.setOffset fd ((d.offset + toRead) % 2 ^ 32) }, .done out)

/-- `mkrn_vfs_read` -/
def ramRead (s : RamState) (fd count : Nat) : Except Fault (RamState × Reply (List UInt8)) :=
  match ramTarget s.fds fd with
  | some (slot, k) => return ramReadFile s slot k count
  | none => do
    let (fds, reply) ← vfsRead s.fds fd count
    return ({ s with fds := fds }, reply)

/-- The capacity with which the growth of a file starts. -/
def firstCapacity (capacity : Nat) : Nat := if capacity ≠ 0 then capacity * 2 % 2 ^ 32 else 4096

/-- `while (u32NewCap < u32NewSize) u32NewCap *= 2;`, or `none` when `rounds` turns do not
end it. -/
def growLoop (newSize : Nat) : Nat → Nat → Option Nat
  | 0, newCap => if newCap < newSize then none else some newCap
  | rounds + 1, newCap =>
    if newCap < newSize then growLoop newSize rounds (newCap * 2 % 2 ^ 32) else some newCap

/-- A file after its contents moved into a larger buffer. -/
def RamState.grown (s : RamState) (heap : HeapReply) (k : Fin maxFiles) (block newCap : Nat) :
    RamState :=
  let file := s.file k
  let mem := heap.onAlloc s.mem
  let mem :=
    match s.data k with
    | none => mem
    | some old => heap.onFree old (copyBytes file.size mem block old)
  { fds := s.fds.setFile k { file with capacity := newCap }
    data := update s.data k (some block)
    mem := fillBytes 0 (newCap - file.size) mem (block + file.size) }

/-- The end of `mkrn_vfs_write`: the bytes are stored, and the offset and the size moved. -/
def RamState.stored (s : RamState) (fd : Fin maxFds) (k : Fin maxFiles) (buf : List UInt8) :
    RamState :=
  let offset := (s.fds.fdTable fd).offset
  let last := offset + buf.length
  let file := s.file k
  { s with
    fds := (s.fds.setOffset fd last).setFile k
      { file with size := if last > file.size then last else file.size }
    mem := placeBytes s.mem (s.address k offset) buf }

section Entries

variable (s : RamState) (heap : HeapReply) (fd : Fin maxFds) (k : Fin maxFiles) (block newCap : Nat)
  (buf : List UInt8)

@[simp] theorem RamState.file_truncate :
    (s.truncate heap k).file k = { s.file k with size := 0, capacity := 0 } :=
  update_self ..

@[simp] theorem RamState.file_grown :
    (s.grown heap k block newCap).file k = { s.file k with capacity := newCap } :=
  update_self ..

@[simp] theorem RamState.data_grown : (s.grown heap k block newCap).data k = some block :=
  update_self ..

@[simp] theorem RamState.fds_grown_fdTable :
    (s.grown heap k block newCap).fds.fdTable = s.fds.fdTable := rfl

@[simp] theorem RamState.file_stored : (s.stored fd k buf).file k = { s.file k with
    size :=
      if (s.fds.fdTable fd).offset + buf.length > (s.file k).size then
        (s.fds.fdTable fd).offset + buf.length
      else (s.file k).size } :=
  update_self ..

end Entries

/-- The ramfs branch of `mkrn_vfs_write`; `rounds` bounds the loop for the capacity. -/
def ramWriteFile (s : RamState) (heap : HeapReply) (rounds : Nat) (fd : Fin maxFds)
    (k : Fin maxFiles) (buf : List UInt8) : Option (RamState × Reply Nat) :=
  let file := s.file k
  let offset := (s.fds.fdTable fd).offset
  if file.regular = false then some (s, .refused)
  else if offset > 0xFFFFFFFF - buf.length then some (s, .refused)
  else
    let newSize := offset + buf.length
    if newSize > file.capacity then
      match growLoop newSize rounds (firstCapacity file.capacity) with
      | none => none
      | some newCap =>
        match heap.alloc newCap with
        | none => some (s, .refused)
        | some block => some ((s.grown heap k block newCap).stored fd k buf, .done buf.length)
    else some (s.stored fd k buf, .done buf.length)

theorem ramWriteFile_cases {s s' : RamState} {heap : HeapReply} {rounds : Nat} {slot : Fin maxFds}
    {k : Fin maxFiles} {buf : List UInt8} {reply : Reply Nat}
    (ran : ramWriteFile s heap rounds slot k buf = some (s', reply)) :
    (reply = .refused ∧ s' = s) ∨
    (reply = .done buf.length ∧
      ((∃ newCap block, (s.file k).capacity < (s.fds.fdTable slot).offset + buf.length ∧
          growLoop ((s.fds.fdTable slot).offset + buf.length) rounds
            (firstCapacity (s.file k).capacity) = some newCap ∧
          heap.alloc newCap = some block ∧ s' = (s.grown heap k block newCap).stored slot k buf) ∨
        ((s.fds.fdTable slot).offset + buf.length ≤ (s.file k).capacity ∧
          s' = s.stored slot k buf))) := by
  unfold ramWriteFile at ran
  dsimp only at ran
  split at ran
  next =>
    cases ran
    exact .inl ⟨rfl, rfl⟩
  next =>
    split at ran
    next =>
      cases ran
      exact .inl ⟨rfl, rfl⟩
    next =>
      split at ran
      next larger =>
        split at ran
        next => cases ran
        next newCap ended =>
          split at ran
          next =>
            cases ran
            exact .inl ⟨rfl, rfl⟩
          next block isBlock =>
            cases ran
            exact .inr ⟨rfl, .inl ⟨newCap, block, larger, ended, isBlock, rfl⟩⟩
      next fits =>
        cases ran
        exact .inr ⟨rfl, .inr ⟨Nat.not_lt.mp fits, rfl⟩⟩

/-- `mkrn_vfs_write` -/
def ramWrite (s : RamState) (heap : HeapReply) (rounds : Nat) (fd : Nat) (buf : List UInt8) :
    Except Fault (Option (RamState × Reply Nat)) :=
  match ramTarget s.fds fd with
  | some (slot, k) => return ramWriteFile s heap rounds slot k buf
  | none => do
    let (fds, reply) ← vfsWrite s.fds fd buf
    return some ({ s with fds := fds }, reply)

/-- The calls on files, with what they returned. -/
inductive RamCall where
  | «open» (env : Surroundings) (path : CString) (flags : Nat) (result : Option Nat)
  | lseek (fd : Nat) (offset whence : Int) (reply : Reply Int)
  | read (fd count : Nat) (reply : Reply (List UInt8))
  | write (fd : Nat) (buf : List UInt8) (reply : Reply Nat)
  | close (fd : Nat) (ok : Bool)

def RamState.Buffer (s : RamState) (k : Fin maxFiles) (base size : Nat) : Prop :=
  s.data k = some base ∧ (s.file k).capacity = size

/-- The heap returns fresh blocks or NULL, and leaves those in use alone. -/
structure HeapReply.Sound (heap : HeapReply) (s : RamState) : Prop where
  fresh : ∀ {size block}, heap.alloc size = some block → ∀ {k base length}, s.Buffer k base length →
    block + size ≤ base ∨ base + length ≤ block
  allocKeeps : ∀ {k base length}, s.Buffer k base length → ∀ mem, ∀ i < length,
    heap.onAlloc mem (base + i) = mem (base + i)
  freeKeeps : ∀ {k old k' base length}, s.data k = some old → k' ≠ k → s.Buffer k' base length →
    ∀ mem, ∀ i < length, heap.onFree old mem (base + i) = mem (base + i)
  freeKeepsNew : ∀ {k old size block}, s.data k = some old → heap.alloc size = some block →
    ∀ mem, ∀ i < size, heap.onFree old mem (block + i) = mem (block + i)

/-- One call. A `size_t` has 32 bits. -/
inductive RamStep : RamState → RamCall → RamState → Prop where
  | «open» {s s' : RamState} {heap : HeapReply} {env : Surroundings} {path : CString} {flags : Nat}
      {result : Option Nat} (sound : heap.Sound s)
      (ran : ramOpen s heap env path flags = .ok (s', result)) :
      RamStep s (.open env path flags result) s'
  | lseek {s : RamState} {fds : FdState} {fd : Nat} {offset whence : Int} {reply : Reply Int}
      (ran : vfsLseek s.fds fd offset whence = .ok (fds, reply)) :
      RamStep s (.lseek fd offset whence reply) { s with fds := fds }
  | read {s s' : RamState} {fd count : Nat} {reply : Reply (List UInt8)}
      (ran : ramRead s fd count = .ok (s', reply)) : RamStep s (.read fd count reply) s'
  | write {s s' : RamState} {heap : HeapReply} {rounds fd : Nat} {buf : List UInt8}
      {reply : Reply Nat} (sound : heap.Sound s) (small : buf.length < 2 ^ 32)
      (ran : ramWrite s heap rounds fd buf = .ok (some (s', reply))) :
      RamStep s (.write fd buf reply) s'
  | close {s : RamState} {fds : FdState} {fd : Nat} {ok : Bool}
      (ran : vfsClose s.fds fd = (fds, ok)) : RamStep s (.close fd ok) { s with fds := fds }

/-- The state `mkrn_vfs_init` leaves, for a memory that holds anything. -/
def initialRam (vfs : State) (mem : ByteMemory) : RamState := ⟨initialFds vfs, fun _ => none, mem⟩

end M4KK1.Vfs

/-!
## How a ramfs file grows

`mkrn_vfs_write` doubles a 32-bit capacity until it reaches the new size. The capacities a file
can have are 0 and the powers of two from 4096 to 2^31; the double of the last is 0, and so is
every further double. `growthEnds_iff` says that the loop ends exactly for sizes up to 2^31.
-/

namespace M4KK1.Vfs

/-- A capacity that the growth of a file leads to. -/
def IsCapacity (capacity : Nat) : Prop := capacity = 0 ∨ ∃ e, 12 ≤ e ∧ e ≤ 31 ∧ capacity = 2 ^ e

/-- The loop ends with a capacity that holds the write. -/
def GrowthEnds (capacity offset count : Nat) : Prop :=
  capacity < offset + count → ∃ rounds newCap,
    growLoop (offset + count) rounds (firstCapacity capacity) = some newCap ∧
    offset + count ≤ newCap

variable {newSize newCap : Nat}

theorem growLoop_enough (rounds : Nat) : ∀ cap,
    growLoop newSize rounds cap = some newCap → newSize ≤ newCap := by
  induction rounds with
  | zero =>
    intro cap ended
    unfold growLoop at ended
    split at ended
    next => cases ended
    next enough =>
      cases ended
      exact Nat.not_lt.mp enough
  | succ rounds ih =>
    intro cap ended
    unfold growLoop at ended
    split at ended
    next => exact ih _ ended
    next enough =>
      cases ended
      exact Nat.not_lt.mp enough

theorem double_power {e : Nat} (bounded : e ≤ 31) :
    2 ^ e * 2 % 2 ^ 32 = if e = 31 then 0 else 2 ^ (e + 1) := by
  split
  next last =>
    rw [last]
    rfl
  next notLast =>
    rw [← Nat.pow_succ]
    exact Nat.mod_eq_of_lt (Nat.pow_lt_pow_right (by decide) (by omega))

theorem growLoop_zero (nonempty : 0 < newSize) (rounds : Nat) :
    growLoop newSize rounds 0 = none := by
  induction rounds with
  | zero => exact if_pos nonempty
  | succ rounds ih =>
    rw [growLoop, if_pos nonempty]
    exact ih

theorem growLoop_power (nonempty : 0 < newSize) (rounds : Nat) : ∀ e, 12 ≤ e → e ≤ 31 →
    growLoop newSize rounds (2 ^ e) = some newCap → IsCapacity newCap := by
  induction rounds with
  | zero =>
    intro e low high ended
    unfold growLoop at ended
    split at ended
    next => cases ended
    next =>
      cases ended
      exact .inr ⟨e, low, high, rfl⟩
  | succ rounds ih =>
    intro e low high ended
    unfold growLoop at ended
    split at ended
    next =>
      rw [double_power high] at ended
      split at ended
      next =>
        rw [growLoop_zero nonempty] at ended
        cases ended
      next notLast => exact ih (e + 1) (by omega) (by omega) ended
    next =>
      cases ended
      exact .inr ⟨e, low, high, rfl⟩

theorem growLoop_ends (small : newSize ≤ 2 ^ 31) (rounds : Nat) : ∀ e, e + rounds = 31 →
    ∃ newCap, growLoop newSize rounds (2 ^ e) = some newCap := by
  induction rounds with
  | zero =>
    intro e last
    obtain rfl : e = 31 := by omega
    exact ⟨2 ^ 31, if_neg (by omega)⟩
  | succ rounds ih =>
    intro e next
    rw [growLoop]
    split
    next =>
      rw [double_power (by omega), if_neg (by omega)]
      exact ih (e + 1) (by omega)
    next => exact ⟨2 ^ e, rfl⟩

theorem firstCapacity_cases {capacity : Nat} (isCapacity : IsCapacity capacity) :
    (∃ e, 12 ≤ e ∧ e ≤ 31 ∧ firstCapacity capacity = 2 ^ e) ∨
    (capacity = 2 ^ 31 ∧ firstCapacity capacity = 0) := by
  obtain rfl | ⟨e, low, high, rfl⟩ := isCapacity
  · exact .inl ⟨12, by decide, by decide, rfl⟩
  · have notZero : 2 ^ e ≠ 0 := (Nat.two_pow_pos e).ne'
    rw [firstCapacity, if_pos notZero, double_power high]
    split
    next last => exact .inr ⟨by rw [last], rfl⟩
    next notLast => exact .inl ⟨e + 1, by omega, by omega, rfl⟩

theorem growLoop_capacity {capacity rounds : Nat} (isCapacity : IsCapacity capacity)
    (nonempty : 0 < newSize)
    (ended : growLoop newSize rounds (firstCapacity capacity) = some newCap) :
    IsCapacity newCap := by
  obtain ⟨e, low, high, first⟩ | ⟨-, first⟩ := firstCapacity_cases isCapacity
  · rw [first] at ended
    exact growLoop_power nonempty rounds e low high ended
  · rw [first, growLoop_zero nonempty] at ended
    cases ended

theorem IsCapacity.le {capacity : Nat} (isCapacity : IsCapacity capacity) : capacity ≤ 2 ^ 31 := by
  obtain rfl | ⟨e, -, high, rfl⟩ := isCapacity
  · exact Nat.zero_le _
  · exact Nat.pow_le_pow_right (by decide) high

/-- The doubling ends exactly for an end of at most 2^31. -/
theorem growthEnds_iff {capacity offset count : Nat} (isCapacity : IsCapacity capacity) :
    GrowthEnds capacity offset count ↔ offset + count ≤ 2 ^ 31 := by
  constructor
  · intro ends
    by_cases grows : capacity < offset + count
    · obtain ⟨rounds, newCap, ended, enough⟩ := ends grows
      have isNew := growLoop_capacity isCapacity (by omega) ended
      exact enough.trans isNew.le
    · exact (Nat.not_lt.mp grows).trans isCapacity.le
  · intro small grows
    obtain ⟨e, low, high, first⟩ | ⟨full, -⟩ := firstCapacity_cases isCapacity
    · obtain ⟨newCap, ended⟩ := growLoop_ends small (31 - e) e (by omega)
      rw [first]
      exact ⟨31 - e, newCap, ended, growLoop_enough _ _ ended⟩
    · omega

end M4KK1.Vfs
