import M4KK1.Lib.StringBuffer
import M4KK1.Lib.Word32
import M4KK1.Yafs.Namespace

/-!
# The namespace of a process

`kernel/namespace.c`. What `mkrn_ns_resolve` has not written of `rest` was on the stack.
-/

namespace M4KK1.Kernel

open Lib Lib.CArray Yafs

/-- A `char[M4K_NS_PATH_MAX]` as `mkrn_ns_set` leaves it. -/
structure NsPath where
  text : CString
  noNul : 0 ∉ text
  fits : text.length < 256

/-- `m4k_ns_entry_t` -/
structure NsEntry where
  mntPath : NsPath
  targetPath : NsPath
  mntFlags : Nat

def nsEntries : Nat := 16

/-- `m4k_namespace_t`: its first `entry_count` entries. -/
structure NsTable where
  entries : List NsEntry
  bounded : entries.length ≤ nsEntries

def nsInit : NsTable := ⟨[], Nat.zero_le _⟩

/-- The bytes `mkrn_strncpy` puts into a path of an entry. -/
def NsPath.of (text : CString) (noNul : 0 ∉ text) : NsPath where
  text := text.take 255
  noNul := fun nul => noNul (List.mem_of_mem_take nul)
  fits := Nat.lt_of_le_of_lt (List.length_take_le _ _) (by decide)

variable (ns : NsTable)

/-- `mkrn_ns_set`; `none` is -1. -/
def nsSet (path target : CString) (pathNoNul : 0 ∉ path) (targetNoNul : 0 ∉ target)
    (flags : Nat) : Option NsTable :=
  if room : ns.entries.length ≥ nsEntries then none
  else some
    { entries := ns.entries ++ [⟨.of path pathNoNul, .of target targetNoNul, flags⟩]
      bounded := by
        rw [List.length_append, List.length_singleton]
        omega }

variable {outSz : Nat}

/-- `if (out[olen - 1] == '/') out[olen - 1] = '\0';` -/
def stripSlash (out : CArray UInt8 outSz) (olen : Nat) : Except Fault (CArray UInt8 outSz) := do
  let last ← out.read (sub32 olen 1)
  if last = slash then out.write (sub32 olen 1) 0 else .ok out

/-- `mkrn_ns_resolve` behind its choice of an entry. -/
def nsJoin (target : CString) (out : CArray UInt8 outSz) (rest : CArray UInt8 256) :
    Except Fault (CArray UInt8 outSz × Int) := do
  let out ← out.strncpy target (outSz - 1)
  let out ← out.write (outSz - 1) 0
  let first ← rest.read 0
  if first ≠ 0 then
    let olen ← out.strlen
    let rlen ← rest.strlen
    if olen + rlen + 1 < outSz then
      let out ← stripSlash out olen
      let out ← out.strcat rest
      .ok (out, 0)
    else .ok (out, 0)
  else .ok (out, 0)

/-- The loop of `mkrn_ns_resolve`; `stack` is what `rest` holds before its first write. -/
def nsResolveLoop (path : CString) (out : CArray UInt8 outSz) (stack : CArray UInt8 256) :
    List NsEntry → Except Fault (CArray UInt8 outSz × Int)
  | [] => .ok (out, -1)
  | e :: entries =>
    let mlen := e.mntPath.text.length
    if e.mntPath.text.isPrefixOf path then do
      let rest ← stack.write 0 0
      if path.getD mlen 0 = slash then do
        let rest ← rest.strncpy (path.drop mlen) 255
        nsJoin e.targetPath.text out rest
      else if path.getD mlen 0 = 0 then do
        let rest ← rest.write 0 0
        nsJoin e.targetPath.text out rest
      else nsResolveLoop path out stack entries
    else nsResolveLoop path out stack entries

variable (path : CString)

/-- `mkrn_ns_resolve`: the buffer after the call and the value returned. -/
def nsResolve (out : CArray UInt8 outSz) (stack : CArray UInt8 256) :
    Except Fault (CArray UInt8 outSz × Int) :=
  if outSz = 0 then .ok (out, -1) else nsResolveLoop path out stack ns.entries

def rootMount : CString := [slash]

/-- The remainder of a path behind a mount that names whole components of it. -/
def remainder (mnt path : CString) : Option CString :=
  if mnt.isPrefixOf path ∧
      (mnt = rootMount ∨ path.drop mnt.length = [] ∨ (path.drop mnt.length).head? = some slash)
  then some (path.drop mnt.length) else none

/-- A target and a remainder with one slash between them. -/
def underTarget (target rest : CString) : CString :=
  if rest = [] then target
  else
    (if target.getLast? = some slash then target.dropLast else target) ++
      (if rest.head? = some slash then rest else slash :: rest)

/-- The longest mount of a path, the first of those that are as long, and the remainder. -/
def longestMount (path : CString) : List NsEntry → Option (NsEntry × CString)
  | [] => none
  | e :: entries =>
    match remainder e.mntPath.text path, longestMount path entries with
    | none, found => found
    | some rest, none => some (e, rest)
    | some rest, some (other, otherRest) =>
      if e.mntPath.text.length < other.mntPath.text.length then some (other, otherRest)
      else some (e, rest)

def translation : Option CString :=
  (longestMount path ns.entries).map fun (e, rest) => underTarget e.targetPath.text rest

/-- The namespace has a mount at the root that an absolute path is behind. -/
def RootMounted : Prop :=
  path.head? = some slash ∧ ∃ e ∈ ns.entries, e.mntPath.text = rootMount

/-- No access leaves the buffers, success leaves the translation, what does not fit fails. -/
structure Translates (out : CArray UInt8 outSz)
    (stack : CArray UInt8 256) : Prop where
  inside : ∃ out' rc, nsResolve ns path out stack = .ok (out', rc)
  complete : ∀ out', nsResolve ns path out stack = .ok (out', 0) →
    ∃ text, translation ns path = some text ∧ out'.Holds text
  refused : ∀ text, translation ns path = some text → outSz ≤ text.length →
    ∀ out' rc, nsResolve ns path out stack = .ok (out', rc) → rc = -1
  root : RootMounted ns path → ∀ text, translation ns path = some text → text.length < outSz →
    ∃ out', nsResolve ns path out stack = .ok (out', 0)

end M4KK1.Kernel
