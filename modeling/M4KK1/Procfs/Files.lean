import M4KK1.Kernel.NamespaceTable
import M4KK1.Lib.TextBuffer
import M4KK1.Vfs.Special

/-!
# The texts of the process files

The texts that `fs/procfs/mkrn_procfs.c` puts into its local buffers.
-/

namespace M4KK1.Procfs

open Lib Lib.CArray Yafs Kernel

/-- `mkrn_process_t` -/
structure Process where
  pid : UInt32
  ppid : UInt32
  uid : UInt32
  gid : UInt32
  euid : UInt32
  egid : UInt32
  stateTags : UInt64
  name : CString
  cwd : CString
  argv : Option (List CString)
  envp : Option (List CString)
  ns : NsTable

/-- `all_procs` in its order, and `current`. -/
structure Processes where
  all : List Process
  current : Option Process

/-- `mkrn_process_find` -/
def Processes.find (procs : Processes) (pid : Nat) : Option Process :=
  (procs.all.find? fun p => p.pid.toNat = pid).orElse fun _ =>
    procs.current.filter fun p => p.pid.toNat = pid

/-- The table `map` of `format_state_tags`. -/
def stateTagNames : List (UInt64 × CString) :=
  [(0x00000001, cstr "SCHED_READY"), (0x00000002, cstr "SCHED_RUNNING"),
    (0x00000004, cstr "SCHED_SLEEPING"), (0x00000100, cstr "WAIT_FS"),
    (0x00000200, cstr "WAIT_PIPE"), (0x00000400, cstr "WAIT_TIMER"), (0x00000800, cstr "WAIT_IPC"),
    (0x00001000, cstr "WAIT_CHILD"), (0x00002000, cstr "WAIT_LOCK"),
    (0x00004000, cstr "WAIT_TERMINAL"), (0x00010000, cstr "TRACED"), (0x00020000, cstr "STOPPED"),
    (0x01000000, cstr "ZOMBIE"), (0x02000000, cstr "IDLE")]

/-- The loop of `format_state_tags`: `first` and the bytes before `pos` behind it. -/
def tagLoop (tags : UInt64) :
    List (UInt64 × CString) → Bool → List UInt8 → Except Fault (Bool × List UInt8)
  | [], first, buf => .ok (first, buf)
  | (bit, name) :: rest, first, buf =>
    if tags &&& bit ≠ 0 then
      if first = true then do
        let buf ← putUpTo 128 126 buf name
        tagLoop tags rest false buf
      else do
        let buf ← put 128 buf 44
        if buf.length ≥ 126 then .ok (first, buf)
        else
          let buf ← put 128 buf 32
          let buf ← putUpTo 128 126 buf name
          tagLoop tags rest false buf
    else tagLoop tags rest first buf

/-- `format_state_tags`. Its `buf[0] = '['` is written over by the first byte of the text. -/
def formatStateTags (tags : UInt64) : Except Fault CString := do
  let (first, buf) ← tagLoop tags stateTagNames true []
  let buf ← if first = true then putAll 128 buf (cstr "NONE") else .ok buf
  let buf ← put 128 buf 93
  let _ ← put 128 buf 0
  .ok buf

/-- `while (n > 0) { rev[ri++] = '0' + (n % 10); n /= 10; }` -/
def revLoop : Nat → Nat → List UInt8 → Except Fault (List UInt8)
  | 0, _, rev => .ok rev
  | rounds + 1, n, rev =>
    if n > 0 then do
      let rev ← put 16 rev (UInt8.ofNat (48 + n % 10))
      revLoop rounds (n / 10) rev
    else .ok rev

/-- The digits of a number in `nbuf`. -/
def digits (n : UInt32) : Except Fault (List UInt8) :=
  if n = 0 then put 16 [] 48
  else do
    let rev ← revLoop n.toNat n.toNat []
    putAll 16 [] rev.reverse

/-- `for (p = all_procs; p && n < max; p = p->next) pids[n++] = p->pid;` -/
def fillPids (pids : CArray UInt32 128) (n : Nat) :
    List Process → Except Fault (CArray UInt32 128 × Nat)
  | [] => .ok (pids, n)
  | p :: rest =>
    if n < 128 then do
      let pids ← pids.write n p.pid
      fillPids pids (n + 1) rest
    else .ok (pids, n)

/-- `mkrn_process_get_pids(pids, 128)`: the array and the number of its cells in use. -/
def getPids (procs : Processes) (pids : CArray UInt32 128) :
    Except Fault (CArray UInt32 128 × Nat) := do
  let (pids, n) ← fillPids pids 0 procs.all
  match procs.current with
  | none => .ok (pids, n)
  | some current =>
    if n < 128 ∧ (List.range n).all (fun i => pids.cell i ≠ current.pid) then do
      let pids ← pids.write n current.pid
      .ok (pids, n + 1)
    else .ok (pids, n)

/-- `while (j >= 0 && pids[j] > key) { pids[j + 1] = pids[j]; j--; } pids[j + 1] = key;` -/
def insertKey (key : UInt32) : Nat → CArray UInt32 128 → Except Fault (CArray UInt32 128)
  | 0, pids => pids.write 0 key
  | j + 1, pids => do
    let value ← pids.read j
    if value > key then do
      let pids ← pids.write (j + 1) value
      insertKey key j pids
    else pids.write (j + 1) key

/-- The insertion sort, `count` rounds of it from the cell `i` on. -/
def sortPids : Nat → Nat → CArray UInt32 128 → Except Fault (CArray UInt32 128)
  | 0, _, pids => .ok pids
  | count + 1, i, pids => do
    let key ← pids.read i
    let pids ← insertKey key i pids
    sortPids count (i + 1) pids

/-- The loop over the sorted numbers; `limit` is `(int)count - 12`. -/
def listLoop (limit : Int) (pids : CArray UInt32 128) :
    Nat → Nat → List UInt8 → Except Fault (List UInt8)
  | 0, _, tmp => .ok tmp
  | count + 1, i, tmp =>
    if tmp.length < 500 ∧ tmp.length < limit then do
      let n ← pids.read i
      let nbuf ← digits n
      let tmp ← putUpTo 512 511 tmp nbuf
      let tmp ← put 512 tmp 10
      listLoop limit pids count (i + 1) tmp
    else .ok tmp

/-- The listing of `/sys/proc`; `stack` is what `pids` holds before. -/
def listingText (procs : Processes) (stack : CArray UInt32 128) (count : UInt32) :
    Except Fault (List UInt8) := do
  let (pids, np) ← getPids procs stack
  let pids ← sortPids (np - 1) 1 pids
  let tmp ← listLoop (signed32 (signed32 count.toNat - 12)) pids np 0 []
  if tmp.length = 0 then put 512 tmp 10 else .ok tmp

/-- `FT_CWD` -/
def cwdText (proc : Process) : Except Fault (List UInt8) := do
  let tmp ← putUpTo 512 508 [] proc.cwd
  put 512 tmp 10

/-- `mnt_path -> target_path` on a line of its own, the first path cut at `limit`. -/
def addMount (limit : Nat) (e : NsEntry) (tmp : List UInt8) : Except Fault (List UInt8) := do
  let tmp ← putUpTo 512 limit tmp e.mntPath.text
  let tmp ← putAll 512 tmp (cstr " -> ")
  let tmp ← putUpTo 512 500 tmp e.targetPath.text
  put 512 tmp 10

/-- The loop over all entries. `limit` is `(int)count - 50`. -/
def nsLoop (limit : Int) : List NsEntry → List UInt8 → Except Fault (List UInt8)
  | [], tmp => .ok tmp
  | e :: entries, tmp =>
    if tmp.length < limit then do
      let tmp ← addMount 500 e tmp
      nsLoop limit entries tmp
    else .ok tmp

/-- `FT_NS` -/
def nsText (proc : Process) (nsIndex : Int) (count : UInt32) : Except Fault (List UInt8) :=
  if 0 ≤ nsIndex ∧ nsIndex < proc.ns.entries.length then
    match proc.ns.entries[nsIndex.toNat]? with
    | some e => addMount 100 e []
    | none => .error .outOfBounds
  else do
    let tmp ← nsLoop (signed32 (signed32 count.toNat - 50)) proc.ns.entries []
    if tmp.length = 0 then put 512 tmp 10 else .ok tmp

/-- The loop over `argv` or `envp`. -/
def wordLoop : List CString → List UInt8 → Except Fault (List UInt8)
  | [], tmp => .ok tmp
  | word :: words, tmp =>
    if tmp.length < 508 then do
      let tmp ← putUpTo 512 508 tmp word
      let tmp ← put 512 tmp 0
      wordLoop words tmp
    else .ok tmp

/-- `FT_CMDLINE` and `FT_ENVIRON`. -/
def wordsText (words : Option (List CString)) : Except Fault (List UInt8) :=
  wordLoop (words.getD []) []

/-- `ADD_LABEL(label); ADD_UINT(v); ADD_NL;` -/
def addNumber (label : CString) (v : UInt32) (tmp : List UInt8) : Except Fault (List UInt8) := do
  let tmp ← putAll 512 tmp label
  let nbuf ← digits v
  let tmp ← putAll 512 tmp nbuf
  put 512 tmp 10

/-- `ADD_LABEL(label); ADD_STR(s); ADD_NL;` -/
def addString (label s : CString) (tmp : List UInt8) : Except Fault (List UInt8) := do
  let tmp ← putAll 512 tmp label
  let tmp ← putAll 512 tmp (s.take 60)
  put 512 tmp 10

/-- `FT_STATUS` -/
def statusText (proc : Process) : Except Fault (List UInt8) := do
  let stateStr ← formatStateTags proc.stateTags
  let tmp ← addNumber (cstr "PID: ") proc.pid []
  let tmp ← addNumber (cstr "PPID: ") proc.ppid tmp
  let tmp ← addNumber (cstr "UID: ") proc.uid tmp
  let tmp ← addNumber (cstr "GID: ") proc.gid tmp
  let tmp ← addNumber (cstr "EUID: ") proc.euid tmp
  let tmp ← addNumber (cstr "EGID: ") proc.egid tmp
  let tmp ← addString (cstr "State: ") stateStr tmp
  addString (cstr "CMD: ") proc.name tmp

end M4KK1.Procfs

/-!
## The open files of procfs

`mkrn_procfs_open`, `mkrn_procfs_close` and `mkrn_procfs_read` of `fs/procfs/mkrn_procfs.c`
with their table of records. The copy of the path in a record is never read and is left out.
-/

namespace M4KK1.Procfs

open Lib Lib.CArray Yafs Kernel
open Vfs (skipSlashes startsWith parseIndex procfsGetpidFromPath SpecialTable procfsFd procfsBase
  procfsLimit)

/-- `file_type`, with `listing` for -1. -/
inductive FileType where
  | listing
  | status
  | cmdline
  | environ
  | cwd
  | ns
  | ctl
deriving DecidableEq, Repr

/-- `procfs_file_t` -/
structure ProcfsFile where
  fd : Nat
  pid : Nat
  inUse : Bool
  fileType : FileType
  nsIndex : Int
  readOffset : Int
deriving DecidableEq, Repr

/-- `procfs_files` and `procfs_next_fd`. -/
structure State where
  files : Fin 64 → ProcfsFile
  nextFd : Nat
  inRange : procfsBase ≤ nextFd ∧ nextFd < procfsLimit

def procfsInit : State := ⟨fun _ => ⟨0, 0, false, .status, 0, 0⟩, procfsBase, by decide⟩

variable (st : State) (k : Fin 64)

namespace State

def numbers : SpecialTable 64 :=
  ⟨fun k => ⟨(st.files k).fd, (st.files k).inUse⟩, st.nextFd⟩

def findByFd (fd : Nat) : Option (Fin 64) :=
  firstSlot st.files fun pf => pf.inUse = true ∧ pf.fd = fd

/-- A store to a record. -/
def setFile (pf : ProcfsFile) : State :=
  { st with files := Function.update st.files k pf }

@[simp] theorem setFile_self (pf : ProcfsFile) : (st.setFile k pf).files k = pf :=
  Function.update_self ..

/-- The other files stay. -/
theorem setFile_of_ne {k other : Fin 64} (pf : ProcfsFile) (apart : other ≠ k) :
    (st.setFile k pf).files other = st.files other := Function.update_of_ne apart ..

/-- `++procfs_next_fd` within its range. -/
def stepFd : State where
  files := st.files
  nextFd := if st.nextFd + 1 ≥ procfsLimit then procfsBase else st.nextFd + 1
  inRange := by
    have low := st.inRange.1
    have wide : procfsBase < procfsLimit := by decide
    split
    · exact ⟨le_rfl, wide⟩
    · exact ⟨by omega, by omega⟩

/-- `procfs_alloc_file`, and the fields that `mkrn_procfs_open` fills in. -/
def allocFile (fill : ProcfsFile → ProcfsFile) : State × Option Nat :=
  match firstSlot st.files fun pf => pf.inUse = false with
  | none => (st, none)
  | some k =>
    (st.stepFd.setFile k
      (fill { st.files k with fd := procfsFd st.numbers, inUse := true, readOffset := 0 }),
      some (procfsFd st.numbers))

end State

/-- The rest of a path from the last slash on, and from the one before it. -/
def slashLoop : CString → Option CString → Option CString → Option CString × Option CString
  | [], prev, secondLast => (prev, secondLast)
  | byte :: rest, prev, secondLast =>
    if byte = slash then slashLoop rest (some (byte :: rest)) prev
    else slashLoop rest prev secondLast

/-- `file_type` and `ns_index` for a path. -/
def typeOfPath (path : CString) : FileType × Int :=
  let (lastSlash, secondLast) := slashLoop path none none
  let name := (lastSlash.map (List.drop 1)).getD path
  let inNs := secondLast.any fun tail =>
    startsWith (tail.drop 1) (cstr "ns") && (charAt tail 3 = slash || charAt tail 3 = 0)
  if inNs = true then
    (.ns, if 0x30 ≤ charAt name 0 ∧ charAt name 0 ≤ 0x39 then parseIndex name else -1)
  else if name = cstr "ctl" then (.ctl, -1)
  else if name = cstr "cmdline" then (.cmdline, -1)
  else if name = cstr "environ" then (.environ, -1)
  else if name = cstr "cwd" then (.cwd, -1)
  else if name = cstr "status" then (.status, -1)
  else (.status, -1)

/-- `mkrn_procfs_open`: the descriptor, or `none` for -1. -/
def procfsOpen (procs : Processes) (path : CString) : State × Option Nat :=
  let p := skipSlashes path
  if p = cstr "sys/proc" ∨ p = cstr "sys/proc/" then
    st.allocFile fun pf => { pf with pid := 0, fileType := .listing }
  else
    let pid := procfsGetpidFromPath path
    if pid < 0 then (st, none)
    else
      match procs.find pid.toNat with
      | none => (st, none)
      | some _ =>
        st.allocFile fun pf =>
          { pf with
            pid := pid.toNat
            fileType := (typeOfPath path).1
            nsIndex := (typeOfPath path).2 }

def procfsClose (fd : Nat) : State × Int :=
  match st.findByFd fd with
  | none => (st, -1)
  | some k => (st.setFile k { st.files k with inUse := false }, 0)

def fileText (proc : Process) (fileType : FileType) (nsIndex : Int) (count : UInt32) :
    Except Fault (List UInt8) :=
  match fileType with
  | .cwd => cwdText proc
  | .ns => nsText proc nsIndex count
  | .cmdline => wordsText proc.argv
  | .environ => wordsText proc.envp
  | _ => statusText proc

/-- `if (len > (int)count) len = (int)count;`: the length, and the bytes `memcpy` hands to the
caller, `none` where `(uint32_t)len` of a negative length makes it run out of `tmp`. -/
def delivered (tmp : List UInt8) (count : UInt32) : Int × Option (List UInt8) :=
  let len := if tmp.length > signed32 count.toNat then signed32 count.toNat else tmp.length
  (len, if len < 0 then none else some (tmp.take len.toNat))

/-- The end of the branches of `mkrn_procfs_read`. -/
def deliver (tmp : List UInt8) (count : UInt32) :
    State × Int × Option (List UInt8) :=
  let (len, bytes) := delivered tmp count
  (st.setFile k { st.files k with readOffset := len }, len, bytes)

/-- `mkrn_procfs_read`: the number returned, and the bytes for the caller. The faults are those of
its local buffers. -/
def procfsRead (procs : Processes) (stack : CArray UInt32 128) (fd : Nat)
    (count : UInt32) : Except Fault (State × Int × Option (List UInt8)) :=
  match st.findByFd fd with
  | none => .ok (st, -1, some [])
  | some k =>
    if (st.files k).readOffset > 0 then .ok (st, 0, some [])
    else if (st.files k).fileType = .listing then do
      let tmp ← listingText procs stack count
      .ok (deliver st k tmp count)
    else
      match procs.find (st.files k).pid with
      | none => .ok (st, -1, some [])
      | some proc =>
        if (st.files k).fileType = .ctl then .ok (st, 0, some [])
        else do
          let tmp ← fileText proc (st.files k).fileType (st.files k).nsIndex count
          .ok (deliver st k tmp count)

end M4KK1.Procfs
