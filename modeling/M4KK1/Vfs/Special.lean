import M4KK1.Lib.SlotTable
import M4KK1.Kernel.Kstrtox

/-!
# The special filesystems

The open files and the counters for numbers, not what is read and written.
-/

namespace M4KK1.Vfs

open Lib Yafs

/-- An open file of a special filesystem: `fd` and `in_use` of its record. -/
structure SpecialFile where
  fd : Nat
  inUse : Bool
deriving DecidableEq, Repr

/-- The open files of a special filesystem and its `next_fd`. -/
structure SpecialTable (size : Nat) where
  files : Fin size → SpecialFile
  next : Nat

namespace SpecialTable

variable {size : Nat}

/-- The table its `init` function leaves. -/
def empty (base : Nat) : SpecialTable size := ⟨fun _ => ⟨0, false⟩, base⟩

/-- `find_by_fd`: the first open file with the number. -/
def findByFd (t : SpecialTable size) (fd : Nat) : Option (Fin size) :=
  firstSlot t.files fun file => file.inUse = true ∧ file.fd = fd

/-- `is_procfs_fd` and its siblings. -/
def IsFd (t : SpecialTable size) (fd : Nat) : Prop := t.findByFd fd ≠ none

instance (t : SpecialTable size) (fd : Nat) : Decidable (t.IsFd fd) :=
  inferInstanceAs (Decidable (_ ≠ _))

/-- A descriptor belongs to the filesystem if one of its open files has it. -/
theorem isFd_iff {t : SpecialTable size} {fd : Nat} :
    t.IsFd fd ↔ ∃ k, (t.files k).inUse = true ∧ (t.files k).fd = fd := by
  rw [IsFd, findByFd, ne_eq, firstSlot_eq_none]
  push Not
  rfl

theorem empty_isFd (base fd : Nat) : ¬ (empty base : SpecialTable size).IsFd fd := by
  rw [isFd_iff]
  rintro ⟨k, used, -⟩
  cases used

/-- The `close` of a special filesystem; `false` is -1. -/
def close (t : SpecialTable size) (fd : Nat) : SpecialTable size × Bool :=
  match t.findByFd fd with
  | none => (t, false)
  | some k =>
    ({ t with files := Function.update t.files k { t.files k with inUse := false } }, true)

/-- A free record under the number `fd`, and the counter moved on within its range. -/
def allocFile (t : SpecialTable size) (base limit fd : Nat) : Option (SpecialTable size) :=
  (firstSlot t.files fun file => file.inUse = false).map fun k =>
    { files := Function.update t.files k ⟨fd, true⟩
      next := if t.next + 1 ≥ limit then base else t.next + 1 }

end SpecialTable

/-- `PROCFS_FD_BASE` and `PROCFS_FD_LIMIT`. -/
def procfsBase : Nat := 1000

def procfsLimit : Nat := 2000

/-- The search of `procfs_alloc_file` for a number no open file of its own holds. -/
def procfsUntaken (t : SpecialTable 64) : Nat → Nat → Nat
  | 0, fd => fd
  | guard + 1, fd =>
    if t.IsFd fd then procfsUntaken t guard (if fd + 1 ≥ procfsLimit then procfsBase else fd + 1)
    else fd

variable (t : SpecialTable 64)

/-- The number `procfs_alloc_file` hands out. -/
def procfsFd : Nat := procfsUntaken t (procfsLimit - procfsBase) t.next

def procfsAllocFile : Option (SpecialTable 64) :=
  t.allocFile procfsBase procfsLimit (procfsFd t)

/-- The allocation in `mkrn_sessions_open`, from `SESSIONS_FD_BASE` to
`SESSIONS_FD_LIMIT`. -/
def sessionsAllocFile (t : SpecialTable 32) : Option (SpecialTable 32) :=
  t.allocFile 2000 3000 t.next

/-- `dt_alloc_file`, from `DT_FD_BASE` to `DT_FD_LIMIT`. -/
def dtAllocFile (t : SpecialTable 32) : Option (SpecialTable 32) := t.allocFile 3000 4000 t.next

/-- `devfs_alloc_file`, from `DEVFS_FD_BASE` to `DEVFS_FD_LIMIT`. -/
def devfsAllocFile : Option (SpecialTable 64) := t.allocFile 1000 1024 t.next

/-- What the special filesystems look at outside their tables. -/
structure Surroundings where
  euid : Option Nat
  processes : List Nat
  ttys : List CString
  sectors : Nat → Nat
  partition : Nat → Nat → Bool

variable (env : Surroundings)

def Surroundings.getEuid : Nat := env.euid.getD 0

/-- `while (*p == '/') p++;` -/
def skipSlashes : CString → CString
  | [] => []
  | byte :: rest => if byte = slash then skipSlashes rest else byte :: rest

/-- `strncmp` with the length of the second string. -/
def startsWith (path head : CString) : Bool := head.isPrefixOf path

/-- `mkrn_kstrtouint(s, 10, &value)` with 0 for a failure, as an `int`. -/
def parseIndex (s : CString) : Int :=
  let (rv, value) := Kernel.kstrtouint s 10 0 0
  signed32 (if rv < 0 then 0 else value)

variable (path : CString)

def procfsGetpidFromPath : Int :=
  let p := skipSlashes path
  if startsWith p (cstr "sys/proc/") = true then parseIndex (p.drop 9) else -1

/-- The paths `mkrn_procfs_open` opens, a free record given. -/
def procfsOpens : Bool :=
  let p := skipSlashes path
  if p = cstr "sys/proc" ∨ p = cstr "sys/proc/" then true
  else
    let pid := procfsGetpidFromPath path
    if pid < 0 then false else env.processes.contains pid.toNat

/-- The bytes of a terminal's name in a session path, at most 31 of them. -/
def ttyName (p : CString) : CString := (p.takeWhile (· ≠ slash)).take 31

/-- The paths `mkrn_sessions_open` opens: the listing, or a file of a session. -/
def sessionsOpens : Bool :=
  let p := skipSlashes path
  if startsWith p (cstr "sys/sessions/") then
    let p := p.drop 13
    if p = [] then true
    else
      let tty := ttyName p
      env.ttys.contains tty &&
        [cstr "/uid", cstr "/pid", cstr "/login_time",
          cstr "/username"].contains (p.drop tty.length)
  else false

/-- The names `mkrn_device_tree_init` enters. -/
def deviceNames : List CString :=
  [cstr "serial", cstr "rtc", cstr "timer", cstr "pic", cstr "keyboard"]

/-- The paths `mkrn_device_tree_open` opens. -/
def deviceTreeOpens : Bool :=
  let p := skipSlashes path
  if p = cstr "device" ∨ p = cstr "device/" then true
  else startsWith p (cstr "device/") && deviceNames.contains (p.drop 7)

/-- `devfs_parse_path`: the drive, and the partition if one is named. -/
def devfsParsePath : Option (Nat × Option Nat) :=
  let p := skipSlashes path
  if startsWith p (cstr "dev/hda") then
    match p.drop 7 with
    | [] => some (0, none)
    | digit :: _ =>
      if 49 ≤ digit.toNat ∧ digit.toNat ≤ 52 then some (0, some (digit.toNat - 49)) else none
  else if startsWith p (cstr "dev/hdb") then
    match p.drop 7 with
    | [] => some (1, none)
    | digit :: _ =>
      if 49 ≤ digit.toNat ∧ digit.toNat ≤ 52 then some (1, some (digit.toNat - 49)) else none
  else none

/-- `M4K_O_WRONLY | M4K_O_RDWR` -/
def writingFlags : Nat := 0x2 ||| 0x4

/-- The listing is opened to everyone, a drive or a partition for writing to root alone. -/
def devfsOpens (flags : Nat) : Bool :=
  let p := skipSlashes path
  if p = cstr "dev" ∨ p = cstr "dev/" then true
  else if flags &&& writingFlags ≠ 0 ∧ env.getEuid ≠ 0 then false
  else
    match devfsParsePath path with
    | none => false
    | some (drive, none) => env.sectors drive ≠ 0
    | some (drive, some part) => env.sectors drive ≠ 0 && env.partition drive part

end M4KK1.Vfs
