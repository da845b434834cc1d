import Mathlib.Tactic.Common
import Mathlib.Tactic.Ring

/-!
# 64-bit division in `calc`

The division helpers of `calc.c`, and the test for an overflow that divides with them.
-/

namespace M4KK1.Calc

open BitVec

/-- The rest of the loop from bit `i - 1` on, with the quotient and the remainder so far. -/
def divLoop (a b : BitVec 64) : Nat → BitVec 64 → BitVec 64 → BitVec 64 × BitVec 64
  | 0, q, r => (q, r)
  | i + 1, q, r =>
    let r := (r <<< 1) ||| ((a >>> i) &&& 1)
    if b ≤ r then divLoop a b i (q ||| (1#64 <<< i)) (r - b) else divLoop a b i q r

/-- The same loop without the quotient. -/
def modLoop (a b : BitVec 64) : Nat → BitVec 64 → BitVec 64
  | 0, r => r
  | i + 1, r =>
    let r := (r <<< 1) ||| ((a >>> i) &&& 1)
    if b ≤ r then modLoop a b i (r - b) else modLoop a b i r

def udivdi3 (a b : BitVec 64) : BitVec 64 := if b = 0 then 0 else (divLoop a b 64 0 0).1

def umoddi3 (a b : BitVec 64) : BitVec 64 := if b = 0 then 0 else modLoop a b 64 0

/-- `ua` and `ub` of the signed helpers. -/
def magnitude (a : BitVec 64) : BitVec 64 := if a.toInt < 0 then -(a + 1) + 1 else a

def divdi3 (a b : BitVec 64) : BitVec 64 :=
  if b = 0 then 0
  else
    let q := (divLoop (magnitude a) (magnitude b) 64 0 0).1
    if decide (a.toInt < 0) ^^ decide (b.toInt < 0) then -q else q

def moddi3 (a b : BitVec 64) : BitVec 64 :=
  if b = 0 then 0
  else
    let r := modLoop (magnitude a) (magnitude b) 64 0
    if a.toInt < 0 then -r else r

/-- `INT64_MAX` and `-INT64_MAX - 1` -/
def int64Max : BitVec 64 := 0x7FFFFFFFFFFFFFFF

def int64Min : BitVec 64 := -int64Max - 1

def safeMulOverflow (a b : BitVec 64) : Bool :=
  if a = 0 ∨ b = 0 then false
  else if 0 < a.toInt then
    if 0 < b.toInt then decide ((divdi3 int64Max b).toInt < a.toInt)
    else decide (b.toInt < (divdi3 int64Min a).toInt)
  else if 0 < b.toInt then decide (a.toInt < (divdi3 int64Min b).toInt)
  else decide (a.toInt < (divdi3 int64Max b).toInt)

variable {a b q r : BitVec 64} {i : Nat}

theorem toNat_shiftIn (small : r.toNat ≤ a.toNat / 2 ^ (i + 1)) :
    ((r <<< 1) ||| ((a >>> i) &&& 1)).toNat = 2 * r.toNat + a.toNat / 2 ^ i % 2 := by
  have half : a.toNat / 2 ^ (i + 1) < 2 ^ 63 := by
    have top := a.isLt
    have least : 2 ≤ 2 ^ (i + 1) := Nat.le_self_pow (Nat.succ_ne_zero i) 2
    exact Nat.div_lt_of_lt_mul (by omega)
  have bit : a.toNat / 2 ^ i % 2 < 2 ^ 1 := Nat.mod_lt _ (by decide)
  have joined := Nat.two_pow_add_eq_or_of_lt bit r.toNat
  have one : (1 : BitVec 64).toNat = 1 := rfl
  rw [toNat_or, toNat_and, toNat_shiftLeft, toNat_ushiftRight, one,
    Nat.and_one_is_mod, Nat.shiftRight_eq_div_pow, Nat.shiftLeft_eq, Nat.mod_eq_of_lt (by omega),
    Nat.mul_comm, ← joined]

theorem divide_bit {A B : Nat} (positive : 0 < B) :
    let rest := 2 * (A / 2 ^ (i + 1) % B) + A / 2 ^ i % 2
    A / 2 ^ i / B = 2 * (A / 2 ^ (i + 1) / B) + (if B ≤ rest then 1 else 0) ∧
      A / 2 ^ i % B = if B ≤ rest then rest - B else rest := by
  have whole : A / 2 ^ i = 2 * (A / 2 ^ (i + 1)) + A / 2 ^ i % 2 := by
    rw [Nat.pow_succ, ← Nat.div_div_eq_div_mul]
    omega
  have bit : A / 2 ^ i % 2 < 2 := Nat.mod_lt _ (by decide)
  have parts := Nat.div_add_mod (A / 2 ^ (i + 1)) B
  have below := Nat.mod_lt (A / 2 ^ (i + 1)) positive
  have double : B * (2 * (A / 2 ^ (i + 1) / B)) = 2 * (B * (A / 2 ^ (i + 1) / B)) := by ring
  refine (Nat.div_mod_unique positive).mpr ?_
  rw [Nat.mul_add, double]
  split <;> omega

theorem divLoop_eq (positive : 0 < b.toNat) (room : i ≤ 64)
    (rest : r.toNat = a.toNat / 2 ^ i % b.toNat)
    (quotient : q.toNat = a.toNat / 2 ^ i / b.toNat * 2 ^ i) :
    (divLoop a b i q r).1.toNat = a.toNat / b.toNat ∧
    (divLoop a b i q r).2.toNat = a.toNat % b.toNat := by
  induction i generalizing q r with
  | zero =>
    rw [Nat.pow_zero, Nat.div_one] at rest quotient
    exact ⟨by rw [divLoop, quotient, Nat.mul_one], rest⟩
  | succ i ih =>
    have shifted : ((r <<< 1) ||| ((a >>> i) &&& 1)).toNat = 2 * r.toNat + a.toNat / 2 ^ i % 2 :=
      toNat_shiftIn (by rw [rest]; exact Nat.mod_le _ _)
    obtain ⟨quotient', rest'⟩ := @divide_bit i a.toNat b.toNat positive
    rw [← rest, ← shifted] at quotient' rest'
    rw [divLoop]
    by_cases fits : b ≤ (r <<< 1) ||| ((a >>> i) &&& 1)
    · rw [if_pos (le_def.mp fits)] at quotient' rest'
      rw [if_pos fits]
      refine ih (by omega) ((toNat_sub_of_le fits).trans rest'.symm) ?_
      have low : 2 ^ i < 2 ^ (i + 1) := Nat.pow_lt_pow_right (by decide) (Nat.lt_succ_self i)
      have joined := Nat.two_pow_add_eq_or_of_lt low (a.toNat / 2 ^ (i + 1) / b.toNat)
      have bit : (1#64 <<< i).toNat = 2 ^ i := by
        rw [toNat_shiftLeft, Nat.shiftLeft_eq]
        refine (congrArg (· % 2 ^ 64) (Nat.one_mul _)).trans (Nat.mod_eq_of_lt ?_)
        exact Nat.pow_lt_pow_right (by decide) room
      rw [toNat_or, bit, quotient, Nat.mul_comm, ← joined, quotient', Nat.pow_succ]
      ring
    · rw [if_neg fun below => fits (le_def.mpr below)] at quotient' rest'
      rw [if_neg fits]
      refine ih (by omega) rest'.symm ?_
      rw [quotient, quotient', Nat.pow_succ]
      ring

theorem modLoop_eq : modLoop a b i r = (divLoop a b i q r).2 := by
  induction i generalizing q r with
  | zero => rfl
  | succ i ih =>
    rw [modLoop, divLoop]
    split
    · exact ih
    · exact ih

theorem divLoop_spec (positive : 0 < b.toNat) :
    (divLoop a b 64 0 0).1.toNat = a.toNat / b.toNat ∧
    (modLoop a b 64 0).toNat = a.toNat % b.toNat := by
  have none : a.toNat / 2 ^ 64 = 0 := Nat.div_eq_of_lt a.isLt
  rw [@modLoop_eq a b 0]
  exact divLoop_eq positive (Nat.le_refl _) (by rw [none, Nat.zero_mod]; rfl)
    (by rw [none, Nat.zero_div, Nat.zero_mul]; rfl)

theorem toNat_magnitude (a : BitVec 64) : (magnitude a).toNat = a.toInt.natAbs := by
  have bound := a.isLt
  have sign := a.toInt_eq_toNat_cond
  rw [magnitude]
  split
  · have opposite : -(a + 1) + 1 = -a := by rw [neg_add, sub_add_cancel]
    rw [opposite, toNat_neg]
    split at sign <;> omega
  · split at sign <;> omega

theorem toInt_of_toNat {n : Nat} (isNat : q.toNat = n) :
    (n < 9223372036854775808 → q.toInt = n) ∧ (n ≤ 9223372036854775808 → (-q).toInt = -n) := by
  have sign := q.toInt_eq_toNat_cond
  have opposite := (-q).toInt_eq_toNat_cond
  rw [toNat_neg] at opposite
  constructor
  · intro small
    rw [sign, if_pos (by omega), isNat]
  · intro small
    split at opposite <;> omega

theorem positive_of_ne_zero (nonzero : b ≠ 0) : 0 < b.toNat ∧ 0 < b.toInt.natAbs := by
  have isNat : b.toNat ≠ 0 := fun zero => nonzero (eq_of_toNat_eq zero)
  have isInt : b.toInt ≠ 0 := fun zero => nonzero (eq_of_toInt_eq zero)
  omega

theorem toInt_divdi3 (nonzero : b ≠ 0) (fits : ¬(a = int64Min ∧ b = -1)) :
    (divdi3 a b).toInt = a.toInt.tdiv b.toInt := by
  have quotient := (@divLoop_spec (magnitude a) (magnitude b) (by
    rw [toNat_magnitude]
    exact (positive_of_ne_zero nonzero).2)).1
  rw [toNat_magnitude, toNat_magnitude] at quotient
  have small : a.toInt.natAbs / b.toInt.natAbs ≤ a.toInt.natAbs := Nat.div_le_self _ _
  have bound : a.toInt.natAbs ≤ 9223372036854775808 := by
    have := a.toInt_lt
    have := a.le_toInt
    omega
  obtain ⟨same, opposite⟩ := toInt_of_toNat quotient
  have read : ∀ x : Int, (x < 0 → x = -x.natAbs) ∧ (¬x < 0 → x = x.natAbs) :=
    fun x => ⟨by omega, by omega⟩
  rw [divdi3, if_neg nonzero]
  by_cases aNeg : a.toInt < 0
  · by_cases bNeg : b.toInt < 0
    · have strict : a.toInt.natAbs / b.toInt.natAbs < 9223372036854775808 := by
        by_contra large
        have isMin : a.toInt.natAbs = 9223372036854775808 := by omega
        have isOne : b.toInt.natAbs = 1 := by
          have positive := (positive_of_ne_zero nonzero).2
          by_contra notOne
          have less :=
            Nat.div_lt_self (show 0 < a.toInt.natAbs by omega) (show 1 < b.toInt.natAbs by omega)
          omega
        have isMin' : a.toInt = int64Min.toInt := by
          rw [show int64Min.toInt = -9223372036854775808 by decide]
          omega
        have isOne' : b.toInt = (-1 : BitVec 64).toInt := by
          rw [show (-1 : BitVec 64).toInt = -1 by decide]
          omega
        exact fits ⟨eq_of_toInt_eq isMin', eq_of_toInt_eq isOne'⟩
      rw [decide_eq_true aNeg, decide_eq_true bNeg, if_neg (by decide), same strict,
        (read _).1 aNeg,
        (read b.toInt).1 bNeg, Int.neg_tdiv_neg]
      simp only [Int.natAbs_neg, Int.natAbs_natCast, Int.natCast_ediv, Int.natCast_tdiv_eq_ediv]
    · rw [decide_eq_true aNeg, decide_eq_false bNeg, if_pos (by decide), opposite (by omega),
        (read _).1 aNeg, (read b.toInt).2 bNeg, Int.neg_tdiv]
      simp only [Int.natAbs_neg, Int.natAbs_natCast, Int.natCast_ediv, Int.natCast_tdiv_eq_ediv]
  · have strict : a.toInt.natAbs < 9223372036854775808 := by
      have := a.toInt_lt
      omega
    by_cases bNeg : b.toInt < 0
    · rw [decide_eq_false aNeg, decide_eq_true bNeg, if_pos (by decide), opposite (by omega),
        (read _).2 aNeg, (read b.toInt).1 bNeg, Int.tdiv_neg]
      simp only [Int.natAbs_neg, Int.natAbs_natCast, Int.natCast_ediv, Int.natCast_tdiv_eq_ediv]
    · rw [decide_eq_false aNeg, decide_eq_false bNeg, if_neg (by decide), same (by omega),
        (read _).2 aNeg, (read b.toInt).2 bNeg]
      simp only [Int.natAbs_natCast, Int.natCast_ediv, Int.natCast_tdiv_eq_ediv]

theorem toInt_moddi3 (nonzero : b ≠ 0) : (moddi3 a b).toInt = a.toInt.tmod b.toInt := by
  have positive := (positive_of_ne_zero nonzero).2
  have rest := (@divLoop_spec (magnitude a) (magnitude b) (by rwa [toNat_magnitude])).2
  rw [toNat_magnitude, toNat_magnitude] at rest
  have below := Nat.mod_lt a.toInt.natAbs positive
  have bound : b.toInt.natAbs ≤ 9223372036854775808 := by
    have := b.toInt_lt
    have := b.le_toInt
    omega
  obtain ⟨same, opposite⟩ := toInt_of_toNat rest
  have sign : b.toInt = b.toInt.natAbs ∨ b.toInt = -b.toInt.natAbs := by omega
  have divisor : ∀ x : Int, x.tmod b.toInt = x.tmod b.toInt.natAbs := by
    intro x
    rcases sign with isNat | isNeg
    · rw [← isNat]
    · rw [isNeg, Int.tmod_neg, Int.natAbs_neg, Int.natAbs_natCast]
  rw [moddi3, if_neg nonzero, divisor]
  by_cases aNeg : a.toInt < 0
  · have negated : a.toInt = -a.toInt.natAbs := by omega
    rw [if_pos aNeg, opposite (by omega), negated, Int.neg_tmod, ← Int.ofNat_tmod, Int.natAbs_neg,
      Int.natAbs_natCast]
  · have kept : a.toInt = a.toInt.natAbs := by omega
    rw [if_neg aNeg, same (by omega), kept, ← Int.ofNat_tmod, Int.natAbs_natCast]

theorem div_lt_iff {limit x y : Int} (large : 0 ≤ limit) (positive : 0 < y) :
    limit.tdiv y < x ↔ limit < x * y := by
  rw [Int.tdiv_eq_ediv_of_nonneg large]
  exact Int.ediv_lt_iff_lt_mul positive

theorem safeMulOverflow_iff (a b : BitVec 64) : safeMulOverflow a b = true ↔
      ¬(-9223372036854775808 ≤ a.toInt * b.toInt ∧ a.toInt * b.toInt ≤ 9223372036854775807) := by
  have isMax : int64Max.toInt = 9223372036854775807 := by decide
  have isMin : int64Min.toInt = -9223372036854775808 := by decide
  rw [safeMulOverflow]
  by_cases aZero : a = 0
  · rw [if_pos (.inl aZero), aZero]
    simp
  by_cases bZero : b = 0
  · rw [if_pos (.inr bZero), bZero]
    simp
  have nonzero : ∀ {c : BitVec 64}, c ≠ 0 → ¬0 < c.toInt → 0 < -c.toInt := by
    intro c other notPositive
    have := positive_of_ne_zero other
    omega
  have notOne : ∀ {c : BitVec 64}, 0 < c.toInt → c ≠ -1 := by
    rintro c positive rfl
    exact absurd positive (by decide)
  rw [if_neg (not_or.mpr ⟨aZero, bZero⟩)]
  by_cases aPos : 0 < a.toInt
  · rw [if_pos aPos]
    by_cases bPos : 0 < b.toInt
    · have exceeds :=
        div_lt_iff (x := a.toInt) (show (0 : Int) ≤ 9223372036854775807 by decide) bPos
      have product : 0 < a.toInt * b.toInt := Int.mul_pos aPos bPos
      rw [if_pos bPos, decide_eq_true_iff, toInt_divdi3 bZero fun h => notOne bPos h.2, isMax,
        exceeds]
      omega
    · have exceeds :=
        div_lt_iff (x := -b.toInt) (show (0 : Int) ≤ 9223372036854775808 by decide) aPos
      have product : 0 < -b.toInt * a.toInt := Int.mul_pos (nonzero bZero bPos) aPos
      rw [Int.neg_mul, Int.mul_comm b.toInt] at exceeds product
      rw [if_neg bPos, decide_eq_true_iff, toInt_divdi3 aZero fun h => notOne aPos h.2, isMin,
        Int.neg_tdiv]
      omega
  · rw [if_neg aPos]
    have aNeg := nonzero aZero aPos
    by_cases bPos : 0 < b.toInt
    · have exceeds :=
        div_lt_iff (x := -a.toInt) (show (0 : Int) ≤ 9223372036854775808 by decide) bPos
      have product : 0 < -a.toInt * b.toInt := Int.mul_pos aNeg bPos
      rw [Int.neg_mul] at exceeds product
      rw [if_pos bPos, decide_eq_true_iff, toInt_divdi3 bZero fun h => notOne bPos h.2, isMin,
        Int.neg_tdiv]
      omega
    · have bNeg := nonzero bZero bPos
      have exceeds :=
        div_lt_iff (x := -a.toInt) (show (0 : Int) ≤ 9223372036854775807 by decide) bNeg
      have product : 0 < -a.toInt * -b.toInt := Int.mul_pos aNeg bNeg
      rw [Int.neg_mul_neg, Int.tdiv_neg] at exceeds
      rw [Int.neg_mul_neg] at product
      have notMin : ¬(int64Max = int64Min ∧ b = -1) := fun h => absurd h.1 (by decide)
      rw [if_neg bPos, decide_eq_true_iff, toInt_divdi3 bZero notMin, isMax]
      omega

/-- The helpers divide whenever the quotient fits, and the test for an overflow is exact. -/
theorem division_helpers (a b : BitVec 64) :
    (b ≠ 0 → (udivdi3 a b).toNat = a.toNat / b.toNat ∧ (umoddi3 a b).toNat = a.toNat % b.toNat) ∧
      (b ≠ 0 → ¬(a = int64Min ∧ b = -1) →
        (divdi3 a b).toInt = a.toInt.tdiv b.toInt ∧ (moddi3 a b).toInt = a.toInt.tmod b.toInt) ∧
      (safeMulOverflow a b = true ↔
        ¬(-9223372036854775808 ≤ a.toInt * b.toInt ∧ a.toInt * b.toInt ≤ 9223372036854775807)) := by
  refine ⟨fun nonzero => ?_, fun nonzero fits => ⟨toInt_divdi3 nonzero fits, toInt_moddi3 nonzero⟩,
    safeMulOverflow_iff a b⟩
  rw [udivdi3, umoddi3, if_neg nonzero, if_neg nonzero]
  exact divLoop_spec (positive_of_ne_zero nonzero).1

end M4KK1.Calc
