import Mathlib.Data.Nat.ModEq

/-!
# Ones'-complement sums

A sum has one value for each remainder but 0 and `full`; swapping bytes multiplies by 256.
-/

namespace M4KK1.Lib

/-- Addition with end-around carry. -/
def onesAdd (full left right : Nat) : Nat :=
  if left + right ≤ full then left + right else left + right - full

def onesSum (full : Nat) (words : List Nat) : Nat := words.foldl (onesAdd full) 0

/-- The value that a number has as a ones'-complement sum. -/
def onesValue (full n : Nat) : Nat := if n = 0 then 0 else (n - 1) % full + 1

variable {full left right n value : Nat} {words : List Nat}

theorem onesValue_of_le (small : n ≤ full) : onesValue full n = n := by
  rw [onesValue]
  split
  · omega
  · rw [Nat.mod_eq_of_lt (by omega)]
    omega

theorem onesValue_le (positive : 0 < full) : onesValue full n ≤ full := by
  rw [onesValue]
  split
  · omega
  · have := Nat.mod_lt (n - 1) positive
    omega

theorem onesValue_modEq (full n : Nat) : onesValue full n ≡ n [MOD full] := by
  rw [onesValue]
  split
  · rename_i isZero
    rw [isZero]
  · have predecessor : (n - 1) % full ≡ n - 1 [MOD full] := Nat.mod_modEq _ _
    calc (n - 1) % full + 1
      _ ≡ n - 1 + 1 [MOD full] := predecessor.add_right 1
      _ = n := by omega

theorem onesValue_eq_full_iff (positive : 0 < full) :
    onesValue full n = full ↔ 0 < n ∧ full ∣ n := by
  have same := onesValue_modEq full n
  constructor
  · intro isFull
    refine ⟨Nat.pos_of_ne_zero fun isZero => ?_, ?_⟩
    · rw [onesValue, if_pos isZero] at isFull
      omega
    · rw [isFull] at same
      exact (Nat.modEq_zero_iff_dvd.mp (same.symm.trans (Nat.modEq_zero_iff_dvd.mpr dvd_rfl)))
  · rintro ⟨isPositive, divides⟩
    have multiple : full ∣ onesValue full n :=
      Nat.modEq_zero_iff_dvd.mp (same.trans (Nat.modEq_zero_iff_dvd.mpr divides))
    have notZero : 0 < onesValue full n := by
      rw [onesValue, if_neg isPositive.ne']
      omega
    exact Nat.le_antisymm (onesValue_le positive) (Nat.le_of_dvd notZero multiple)

theorem onesValue_add_mul (positive : 0 < n) (times : Nat) :
    onesValue full (n + full * times) = onesValue full n := by
  rw [onesValue, onesValue, if_neg (by omega), if_neg positive.ne',
    show n + full * times - 1 = n - 1 + full * times by omega, Nat.add_mul_mod_self_left]

theorem onesAdd_onesValue (positive : 0 < full) (small : right ≤ full) :
    onesAdd full (onesValue full n) right = onesValue full (n + right) := by
  have low := onesValue_le (n := n) positive
  by_cases isZero : n = 0
  · subst isZero
    rw [onesValue, if_pos rfl, onesAdd, Nat.zero_add, if_pos small, onesValue_of_le small]
  obtain ⟨times, split⟩ : ∃ times, n = onesValue full n + full * times := by
    refine ⟨(n - 1) / full, ?_⟩
    rw [onesValue, if_neg isZero]
    have division := Nat.mod_add_div (n - 1) full
    omega
  have isPositive : 0 < onesValue full n := by
    rw [onesValue, if_neg isZero]
    omega
  generalize onesValue full n = reduced at *
  rw [split, Nat.add_right_comm, onesValue_add_mul (by omega), onesAdd]
  split
  · rename_i fits
    exact (onesValue_of_le fits).symm
  · rename_i carries
    have carried : onesValue full (reduced + right - full + full * 1) =
        onesValue full (reduced + right - full) :=
      onesValue_add_mul (by omega) 1
    rw [Nat.mul_one, Nat.sub_add_cancel (by omega)] at carried
    rw [carried, onesValue_of_le (by omega)]

theorem onesSum_eq (positive : 0 < full) (small : ∀ word ∈ words, word ≤ full) :
    onesSum full words = onesValue full words.sum := by
  have folded : ∀ n, words.foldl (onesAdd full) (onesValue full n) =
      onesValue full (n + words.sum) := by
    induction words with
    | nil => exact fun n => rfl
    | cons word words ih =>
      intro n
      rw [List.foldl_cons, onesAdd_onesValue positive (small word List.mem_cons_self),
        ih (fun other member => small other (List.mem_cons_of_mem _ member)), List.sum_cons,
        Nat.add_assoc]
  have whole := folded 0
  rwa [Nat.zero_add, onesValue_of_le (Nat.zero_le _)] at whole

/-- A sum is `full` exactly for words that are not all 0 and add up to a multiple of it. -/
theorem onesSum_eq_full_iff (positive : 0 < full) (small : ∀ word ∈ words, word ≤ full) :
    onesSum full words = full ↔ 0 < words.sum ∧ full ∣ words.sum := by
  rw [onesSum_eq positive small, onesValue_eq_full_iff positive]

theorem dvd_add_complement (positive : 0 < full) : full ∣ n + (full - onesValue full n) := by
  have low := onesValue_le (n := n) positive
  have same : n + (full - onesValue full n) ≡ onesValue full n +
      (full - onesValue full n) [MOD full] :=
    (onesValue_modEq full n).symm.add_right _
  rw [Nat.add_sub_cancel' low] at same
  exact Nat.modEq_zero_iff_dvd.mp (same.trans (Nat.modEq_zero_iff_dvd.mpr dvd_rfl))

theorem swapped_modEq (low high : Nat) :
    low * 256 + high ≡ 256 * (low + high * 256) [MOD 65535] := by
  rw [show 256 * (low + high * 256) = low * 256 + high + 65535 * high by omega]
  exact (Nat.ModEq.refl _).trans (Nat.modEq_iff_dvd' (by omega) |>.mpr ⟨high, by omega⟩)

end M4KK1.Lib
