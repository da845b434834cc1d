import Mathlib.Data.List.Basic
import Mathlib.Data.List.TakeWhile
import Mathlib.Data.Nat.Digits.Defs

/-!
# Numerals in text

A reader with a bounded word watches for the first digit behind a value at its limit.
-/

namespace M4KK1.Lib

def digitValue (c : UInt8) : Option Nat :=
  if 0x30 ≤ c ∧ c ≤ 0x39 then some (c.toNat - 0x30)
  else if 0x61 ≤ c ∧ c ≤ 0x66 then some (c.toNat - 0x61 + 10)
  else if 0x41 ≤ c ∧ c ≤ 0x46 then some (c.toNat - 0x41 + 10)
  else none

/-- A number in base 10. -/
def decimalText (n : Nat) : List UInt8 :=
  if n = 0 then [0x30] else (Nat.digits 10 n).reverse.map fun digit => UInt8.ofNat (0x30 + digit)

def isDigitIn (base : Nat) (c : UInt8) : Bool := (digitValue c).any (· < base)

variable (base start : Nat)

/-- The value of a run of digits behind digits of value `start`. -/
def valueFrom (run : List UInt8) : Nat :=
  run.foldl (fun value c => value * base + (digitValue c).getD 0) start

def numeralValue (base : Nat) (run : List UInt8) : Nat := valueFrom base 0 run

/-- Some digit of the run follows digits whose value has reached the limit. -/
def PassesFrom (base limit start : Nat) (run : List UInt8) : Prop :=
  ∃ front c behind, run = front ++ c :: behind ∧ limit ≤ valueFrom base start front

@[simp] theorem valueFrom_nil : valueFrom base start [] = start := rfl

@[simp] theorem valueFrom_cons (c : UInt8) (run : List UInt8) : valueFrom base start (c :: run) =
      valueFrom base (start * base + (digitValue c).getD 0) run := rfl

theorem valueFrom_append (front behind : List UInt8) :
    valueFrom base start (front ++ behind) = valueFrom base (valueFrom base start front) behind :=
  List.foldl_append

theorem passesFrom_nil (base limit start : Nat) : ¬ PassesFrom base limit start [] := by
  rintro ⟨front, c, behind, empty, -⟩
  simp at empty

theorem passesFrom_cons {base limit start : Nat} {c : UInt8} {run : List UInt8} :
    PassesFrom base limit start (c :: run) ↔
      limit ≤ start ∨ PassesFrom base limit (start * base + (digitValue c).getD 0) run := by
  constructor
  · rintro ⟨front, d, behind, whole, reached⟩
    cases front with
    | nil => exact .inl reached
    | cons e front =>
      obtain ⟨rfl, rfl⟩ := List.cons.inj whole
      exact .inr ⟨front, d, behind, rfl, reached⟩
  · rintro (reached | ⟨front, d, behind, rfl, reached⟩)
    · exact ⟨[], c, run, rfl, reached⟩
    · exact ⟨c :: front, d, behind, rfl, reached⟩

/-- A value that has passed the limit stays behind it. -/
theorem PassesFrom.append {base limit start : Nat} {run : List UInt8}
    (passes : PassesFrom base limit start run) (more : List UInt8) :
    PassesFrom base limit start (run ++ more) := by
  obtain ⟨front, c, behind, rfl, reached⟩ := passes
  exact ⟨front, c, behind ++ more, by simp, reached⟩

end M4KK1.Lib
