import Mathlib.Tactic.Common

/-!
# Arithmetic of machine words

`add32` and `sub32` wrap; `signed32` and `signed64` are the casts to signed types.
-/

namespace M4KK1.Lib

/-- `a + b` in `uint32_t`. -/
def add32 (left right : Nat) : Nat := (left + right) % 4294967296

/-- `a - b` in `uint32_t`. -/
def sub32 (left right : Nat) : Nat := (left + (4294967296 - right % 4294967296)) % 4294967296

/-- The cast to `int32_t`, and the wrapping arithmetic of that type. -/
def signed32 (value : Int) : Int := value.bmod 4294967296

/-- The cast to `int64_t`, and the wrapping arithmetic of that type. -/
def signed64 (value : Int) : Int := value.bmod 18446744073709551616

/-- The result of an operation in `uint64_t`. -/
def wrap64 (value : Nat) : Nat := value % 18446744073709551616

theorem signed32_eq {value : Int} (low : -2147483648 ≤ value) (high : value < 2147483648) :
    signed32 value = value := by
  rw [signed32, Int.bmod_def]
  omega

theorem signed64_eq {value : Int} (low : -9223372036854775808 ≤ value)
    (high : value < 9223372036854775808) : signed64 value = value := by
  rw [signed64, Int.bmod_def]
  omega

theorem wrap64_eq {value : Nat} (fits : value < 18446744073709551616) : wrap64 value = value :=
  Nat.mod_eq_of_lt fits

theorem add32_lt (left right : Nat) : add32 left right < 4294967296 :=
  Nat.mod_lt _ (by decide)

variable {left right : Nat}

theorem add32_eq (fits : left + right < 4294967296) :
    add32 left right = left + right := Nat.mod_eq_of_lt fits

/-- A difference that does not go below 0 is that of the numbers. -/
theorem sub32_eq (ordered : right ≤ left) (small : left < 4294967296) :
    sub32 left right = left - right := by
  unfold sub32
  omega

theorem sub32_add32_left {count : Nat} (fits : sub32 left right + count < 4294967296) :
    sub32 (add32 left count) right = sub32 left right + count := by
  unfold sub32 add32 at *
  omega

theorem sub32_add32_right {count : Nat} (covered : count ≤ sub32 left right) :
    sub32 left (add32 right count) = sub32 left right - count := by
  unfold sub32 add32 at *
  omega

theorem add32_sub32 (small : left < 4294967296) : add32 right (sub32 left right) = left := by
  unfold sub32 add32
  omega

end M4KK1.Lib
