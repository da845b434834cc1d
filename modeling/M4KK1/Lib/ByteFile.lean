import Mathlib.Data.List.Basic

/-!
# Files as arrays of bytes

A write behind the end leaves a gap that reads as zeros, as do the bytes from the size on.
-/

namespace M4KK1.Lib

/-- A size and the bytes below it, with zeros from there on. -/
structure ByteFile where
  size : Nat
  byte : Nat → UInt8
  beyond : ∀ i, size ≤ i → byte i = 0

namespace ByteFile

/-- Nothing has been written. -/
def empty : ByteFile := ⟨0, fun _ => 0, fun _ _ => rfl⟩

/-- `bytes` written at `offset`. -/
def write (file : ByteFile) (offset : Nat) (bytes : List UInt8) : ByteFile where
  size := max file.size (offset + bytes.length)
  byte i :=
    if offset ≤ i ∧ i < offset + bytes.length then bytes.getD (i - offset) 0 else file.byte i
  beyond := by
    intro i above
    have notWritten : ¬ (offset ≤ i ∧ i < offset + bytes.length) := by omega
    rw [if_neg notWritten]
    exact file.beyond i (by omega)

/-- Up to `count` bytes from `offset` on. -/
def read (file : ByteFile) (offset count : Nat) : List UInt8 :=
  (List.range (min count (file.size - offset))).map fun i => file.byte (offset + i)

variable {file : ByteFile} {offset count : Nat}

theorem read_beyond (above : file.size ≤ offset) : file.read offset count = [] := by
  have none : file.size - offset = 0 := by omega
  rw [read, none, Nat.min_zero]
  rfl

/-- A read is as long as it was asked for, up to the end of the file. -/
theorem read_length : (file.read offset count).length = min count (file.size - offset) := by
  rw [read, List.length_map, List.length_range]

end ByteFile

end M4KK1.Lib
