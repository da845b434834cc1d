import Mathlib.Algebra.Ring.Int.Defs
import Mathlib.Algebra.Ring.Nat
import M4KK1.Vfs.Descriptors

/-!
# Seeking

`mkrn_vfs_lseek`: nothing keeps an offset below the end of the file.
-/

namespace M4KK1.Vfs

open Lib Yafs

def seekSet : Int := 0

def seekCur : Int := 1

def seekEnd : Int := 2

/-- The value of an unsigned number as a signed one of `width` bits. -/
def signed (width : Nat) (value : Nat) : Int := (value : Int).bmod (2 ^ width)

/-- `base` in the YAFS branch. -/
def yafsBase (yafs : BtreeState) (d : FileDesc) (whence : Int) : Except Fault (Option Int) :=
  if whence = seekSet then return some 0
  else if whence = seekCur then return some d.offset
  else if whence = seekEnd then do
    match ← readInodeRaw yafs d.yafsInode with
    | none => return none
    | some (_, value) => return some (signed 64 value.size)
  else return none

/-- `new_offset` in the ramfs branch, before it is clamped. -/
def ramfsOffset (d : FileDesc) (file : FileEnt) (offset whence : Int) : Option Int :=
  if whence = seekSet then some offset
  else if whence = seekCur then some ((signed 32 d.offset + offset).bmod (2 ^ 32))
  else if whence = seekEnd then some ((signed 32 file.size + offset).bmod (2 ^ 32))
  else none

theorem FdState.inTable (s : FdState) {fd : Nat} (inside : fd < maxFds ∧ s.vfs.initialized = true) :
    fd < maxFds :=
  inside.1

def vfsLseek (s : FdState) (fd : Nat) (offset whence : Int) : Except Fault (FdState × Reply Int) :=
  if inside : fd < maxFds ∧ s.vfs.initialized = true then
    if s.devfs.IsFd fd then return (s, .special .devfs)
    else
      let fd : Fin maxFds := ⟨fd, s.inTable inside⟩
      let d := s.fdTable fd
      match d.inUse, d.file with
      | true, some file =>
        if d.IsPipe then return (s, .refused)
        else if d.yafsInode ≠ 0 ∧ s.vfs.yafs.rootLba ≠ 0 then do
          match ← yafsBase s.vfs.yafs d whence with
          | none => return (s, .refused)
          | some base =>
            let newOff := (max (base + offset) 0).toNat % 2 ^ 32
            return (s.setFd fd { d with offset := newOff }, .done (signed 32 newOff))
        else
          match ramfsOffset d (s.fileTable file) offset whence with
          | none => return (s, .refused)
          | some newOffset =>
            let newOffset := min (max newOffset 0).toNat (s.fileTable file).size
            return (s.setFd fd { d with offset := newOffset }, .done (signed 32 newOffset))
      | _, _ => return (s, .refused)
  else return (s, .refused)

/-- A seek sets one offset or does nothing. -/
theorem vfsLseek_cases {s s' : FdState} {fd : Nat} {offset whence : Int} {reply : Reply Int}
    (ran : vfsLseek s fd offset whence = .ok (s', reply)) :
    s' = s ∨ ∃ (slot : Fin maxFds) (newOffset : Nat), slot.val = fd ∧
      s' = s.setFd slot { s.fdTable slot with offset := newOffset } := by
  unfold vfsLseek at ran
  split at ran
  next inside =>
    split at ran
    next => cases ran; exact .inl rfl
    next =>
      dsimp only at ran
      split at ran
      next =>
        split at ran
        next => cases ran; exact .inl rfl
        next =>
          split at ran
          next =>
            obtain ⟨base, -, ran⟩ := bind_ok ran
            cases base with
            | none => cases ran; exact .inl rfl
            | some base => cases ran; exact .inr ⟨⟨fd, inside.1⟩, _, rfl, rfl⟩
          next =>
            split at ran
            next => cases ran; exact .inl rfl
            next => cases ran; exact .inr ⟨⟨fd, inside.1⟩, _, rfl, rfl⟩
      next => cases ran; exact .inl rfl
  next => cases ran; exact .inl rfl

theorem vfsLseek_vfs {s s' : FdState} {fd : Nat} {offset whence : Int} {reply : Reply Int}
    (ran : vfsLseek s fd offset whence = .ok (s', reply)) : s'.vfs = s.vfs := by
  obtain rfl | ⟨slot, newOffset, _, rfl⟩ := vfsLseek_cases ran
  · rfl
  · rw [FdState.setFd_vfs]

end M4KK1.Vfs
