import M4KK1.Lib.CheckedArray
import Mathlib.Data.List.Basic

/-!
# Text appended to a buffer of fixed size

`put` stores at the position and moves it, and fails outside the array.
-/

namespace M4KK1.Lib

open List

/-- `buf[pos++] = byte` -/
def put (size : Nat) (buf : List UInt8) (byte : UInt8) : Except Fault (List UInt8) :=
  if buf.length < size then .ok (buf ++ [byte]) else .error .outOfBounds

/-- `while (*s) buf[pos++] = *s++;` -/
def putAll (size : Nat) (buf : List UInt8) : List UInt8 → Except Fault (List UInt8)
  | [] => .ok buf
  | byte :: text => do
    let buf ← put size buf byte
    putAll size buf text

/-- `while (*s && pos < limit) buf[pos++] = *s++;` -/
def putUpTo (size limit : Nat) (buf : List UInt8) : List UInt8 → Except Fault (List UInt8)
  | [] => .ok buf
  | byte :: text =>
    if buf.length < limit then do
      let buf ← put size buf byte
      putUpTo size limit buf text
    else .ok buf

variable {size limit : Nat} {buf text : List UInt8} {byte : UInt8}

theorem put_eq (room : buf.length < size) : put size buf byte = .ok (buf ++ [byte]) := if_pos room

theorem put_full (full : size ≤ buf.length) : put size buf byte = .error .outOfBounds :=
  if_neg (Nat.not_lt.mpr full)

/-- A text with room is appended whole. -/
theorem putAll_eq (text : List UInt8) : ∀ {buf : List UInt8}, buf.length + text.length ≤ size →
    putAll size buf text = .ok (buf ++ text) := by
  induction text with
  | nil =>
    intro buf _
    rw [putAll, append_nil]
  | cons byte text ih =>
    intro buf fits
    rw [length_cons] at fits
    have rest : (buf ++ [byte]).length + text.length ≤ size := by
      rw [length_append, length_singleton]
      omega
    rw [putAll, put_eq (by omega), ok_bind, ih rest, append_assoc, singleton_append]

theorem putAll_full (text : List UInt8) : ∀ {buf : List UInt8}, buf.length ≤ size →
    size < buf.length + text.length → putAll size buf text = .error .outOfBounds := by
  induction text with
  | nil =>
    intro buf inside past
    rw [length_nil] at past
    omega
  | cons byte text ih =>
    intro buf inside past
    rw [length_cons] at past
    rw [putAll]
    by_cases room : buf.length < size
    · rw [put_eq room, ok_bind]
      apply ih
      · rw [length_append, length_singleton]
        omega
      · rw [length_append, length_singleton]
        omega
    · rw [put_full (by omega), error_bind]

theorem putUpTo_eq (inside : limit ≤ size) (text : List UInt8) : ∀ {buf : List UInt8},
    putUpTo size limit buf text = .ok (buf ++ text.take (limit - buf.length)) := by
  induction text with
  | nil =>
    intro buf
    rw [putUpTo, take_nil, append_nil]
  | cons byte text ih =>
    intro buf
    rw [putUpTo]
    split
    · next below =>
      have more : limit - buf.length = limit - (buf ++ [byte]).length + 1 := by
        rw [length_append, length_singleton]
        omega
      rw [put_eq (by omega), ok_bind, ih, more, take_succ_cons, append_assoc, singleton_append]
    · next past =>
      have none_ : limit - buf.length = 0 := by omega
      rw [none_, take_zero, append_nil]

theorem length_upTo (limit : Nat) (buf text : List UInt8) :
    (buf ++ text.take (limit - buf.length)).length =
      buf.length + min text.length (limit - buf.length) := by
  rw [length_append, List.length_take, Nat.min_comm]

end M4KK1.Lib
