import Mathlib.Algebra.BigOperators.Intervals
import Mathlib.Algebra.Order.BigOperators.Group.Finset
import Mathlib.Data.List.Lex

/-!
# Proleptic Gregorian dates and times

Years and months are consecutive blocks of days.
-/

namespace M4KK1.Lib

open Finset

variable (length : ℕ → ℕ)

/-- The length of the first `count` blocks together. -/
def blocksBefore (count : ℕ) : ℕ := ∑ block ∈ range count, length block

@[simp] theorem blocksBefore_zero : blocksBefore length 0 = 0 := rfl

theorem blocksBefore_succ (count : ℕ) :
    blocksBefore length (count + 1) = blocksBefore length count + length count :=
  sum_range_succ _ _

theorem blocksBefore_succ' (count : ℕ) : blocksBefore length (count + 1) =
      length 0 + blocksBefore (fun block => length (block + 1)) count := by
  rw [blocksBefore, sum_range_succ', Nat.add_comm]
  rfl

theorem blocksBefore_mono : Monotone (blocksBefore length) :=
  monotone_nat_of_le_succ fun count => by
    rw [blocksBefore_succ]
    exact Nat.le_add_right _ _

theorem le_blocksBefore {length : ℕ → ℕ} (filled : ∀ block, 0 < length block) (count : ℕ) :
    count ≤ blocksBefore length count := by
  induction count with
  | zero => exact Nat.zero_le _
  | succ count ih =>
    rw [blocksBefore_succ]
    have := filled count
    omega

theorem blocksBefore_lt {length : ℕ → ℕ} {first second place other : ℕ} (earlier : first < second)
    (inside : place < length first) :
    blocksBefore length first + place < blocksBefore length second + other :=
  calc blocksBefore length first + place
      < blocksBefore length first + length first := Nat.add_lt_add_left inside _
    _ = blocksBefore length (first + 1) := (blocksBefore_succ _ _).symm
    _ ≤ blocksBefore length second := blocksBefore_mono length earlier
    _ ≤ blocksBefore length second + other := Nat.le_add_right _ _

theorem block_unique {length : ℕ → ℕ} {first second place other : ℕ}
    (inside : place < length first) (insideToo : other < length second)
    (same : blocksBefore length first + place = blocksBefore length second + other) :
    first = second ∧ place = other := by
  rcases Nat.lt_trichotomy first second with earlier | rfl | later
  · exact absurd same (blocksBefore_lt earlier inside).ne
  · exact ⟨rfl, Nat.add_left_cancel same⟩
  · exact absurd same.symm (blocksBefore_lt later insideToo).ne

variable (year : ℕ) (base : ℕ) (m : Moment)

namespace Gregorian

def IsLeap : Prop := 4 ∣ year ∧ ¬ 100 ∣ year ∨ 400 ∣ year

instance (year : ℕ) : Decidable (IsLeap year) := inferInstanceAs (Decidable (_ ∨ _))

/-- The days of a month, counted from zero. -/
def monthLength (year month : ℕ) : ℕ :=
  match month with
  | 0 | 2 | 4 | 6 | 7 | 9 | 11 => 31
  | 3 | 5 | 8 | 10 => 30
  | 1 => if IsLeap year then 29 else 28
  | _ => 0

theorem monthLength_le (year month : ℕ) : monthLength year month ≤ 31 := by
  unfold monthLength
  repeat' split
  all_goals omega

theorem monthLength_mono {year other : ℕ} (leap : IsLeap year → IsLeap other) (month : ℕ) :
    monthLength year month ≤ monthLength other month := by
  by_cases february : month = 1
  · subst february
    change (if IsLeap year then 29 else 28) ≤ if IsLeap other then 29 else 28
    by_cases inLeap : IsLeap year
    · rw [if_pos inLeap, if_pos (leap inLeap)]
    · rw [if_neg inLeap]
      split <;> omega
  · unfold monthLength
    split <;> first | rfl | exact absurd rfl february

def yearLength : ℕ := blocksBefore (monthLength year) 12

theorem yearLength_eq : yearLength year = if IsLeap year then 366 else 365 := by
  unfold yearLength
  simp only [blocksBefore_succ, blocksBefore_zero, monthLength]
  split <;> rfl

theorem yearLength_pos : 0 < yearLength year := by
  rw [yearLength_eq]
  split <;> decide

/-- A date and a time of day. -/
structure Moment where
  year : ℕ
  month : ℕ
  day : ℕ
  hour : ℕ
  minute : ℕ
  second : ℕ
deriving DecidableEq, Repr

namespace Moment

/-- The moment exists, in the year `base` or later. -/
structure Valid : Prop where
  year : base ≤ m.year
  month : 1 ≤ m.month ∧ m.month ≤ 12
  day : 1 ≤ m.day ∧ m.day ≤ monthLength m.year (m.month - 1)
  hour : m.hour < 24
  minute : m.minute < 60
  second : m.second < 60

instance (base : ℕ) (m : Moment) : Decidable (m.Valid base) :=
  decidable_of_iff (base ≤ m.year ∧ (1 ≤ m.month ∧ m.month ≤ 12) ∧
      (1 ≤ m.day ∧ m.day ≤ monthLength m.year (m.month - 1)) ∧ m.hour < 24 ∧ m.minute < 60 ∧
      m.second < 60)
    ⟨fun ⟨year, month, day, hour, minute, second⟩ => ⟨year, month, day, hour, minute, second⟩,
      fun valid => ⟨valid.year, valid.month, valid.day, valid.hour, valid.minute, valid.second⟩⟩

def dayOfYear : ℕ := blocksBefore (monthLength m.year) (m.month - 1) + (m.day - 1)

/-- The days from the first of January of the year `base`. -/
def days : ℕ :=
  blocksBefore (fun ago => yearLength (base + ago)) (m.year - base) + m.dayOfYear

/-- The seconds from the first of January of the year `base`. -/
def seconds : ℕ :=
  m.days base * 86400 + m.hour * 3600 + m.minute * 60 + m.second

theorem Valid.dayOfYear_lt {base : ℕ} {m : Moment} (valid : m.Valid base) :
    m.dayOfYear < yearLength m.year := by
  obtain ⟨firstMonth, lastMonth⟩ := valid.month
  obtain ⟨firstDay, lastDay⟩ := valid.day
  have earlier : m.month - 1 < 12 := by omega
  have inside : m.day - 1 < monthLength m.year (m.month - 1) := by omega
  rw [dayOfYear, yearLength, ← Nat.add_zero (blocksBefore (monthLength m.year) 12)]
  exact blocksBefore_lt earlier inside

/-- Valid moments with the same number of seconds are equal. -/
theorem seconds_injective {base : ℕ} {m n : Moment} (valid : m.Valid base) (validToo : n.Valid base)
    (same : m.seconds base = n.seconds base) : m = n := by
  obtain ⟨mHour, mMinute, mSecond⟩ := And.intro valid.hour (And.intro valid.minute valid.second)
  obtain ⟨nHour, nMinute, nSecond⟩ :=
    And.intro validToo.hour (And.intro validToo.minute validToo.second)
  unfold seconds at same
  have sameDays : m.days base = n.days base := by omega
  have sameYear : m.year = n.year := by
    have inside : m.dayOfYear < yearLength (base + (m.year - base)) := by
      rw [Nat.add_sub_cancel' valid.year]
      exact valid.dayOfYear_lt
    have insideToo : n.dayOfYear < yearLength (base + (n.year - base)) := by
      rw [Nat.add_sub_cancel' validToo.year]
      exact validToo.dayOfYear_lt
    have blocks : m.year - base = n.year - base :=
      (@block_unique (fun ago => yearLength (base + ago)) _ _ _ _ inside insideToo sameDays).1
    have := valid.year
    have := validToo.year
    omega
  have sameDay : m.month - 1 = n.month - 1 ∧ m.day - 1 = n.day - 1 := by
    have sameOfYear : m.dayOfYear = n.dayOfYear := by
      unfold days at sameDays
      rw [sameYear] at sameDays
      exact Nat.add_left_cancel sameDays
    unfold dayOfYear at sameOfYear
    rw [sameYear] at sameOfYear
    refine block_unique ?_ ?_ sameOfYear
    · have := valid.day
      rw [sameYear] at this
      omega
    · have := validToo.day
      omega
  obtain ⟨sameMonth, sameDay⟩ := sameDay
  have := valid.month
  have := validToo.month
  have := valid.day
  have := validToo.day
  rcases m with ⟨mYear, mMonth, mDay, mHours, mMinutes, mSeconds⟩
  rcases n with ⟨nYear, nMonth, nDay, nHours, nMinutes, nSeconds⟩
  simp only at *
  congr 1 <;> omega

/-- The fields from the year down to the second; lists of them are ordered like dates. -/
def fields : List ℕ := [m.year, m.month, m.day, m.hour, m.minute, m.second]

variable {base m} {n : Moment}

theorem seconds_lt (valid : m.Valid base) (validToo : n.Valid base)
    (earlier : m.fields < n.fields) :
    m.seconds base < n.seconds base := by
  obtain ⟨mHour, mMinute, mSecond⟩ := And.intro valid.hour (And.intro valid.minute valid.second)
  have days_lt : m.days base < n.days base → m.seconds base < n.seconds base := by
    unfold seconds
    omega
  have mDay := valid.day
  have nDay := validToo.day
  have mMonth := valid.month
  simp only [fields, List.cons_lt_cons_iff, lt_self_iff_false, and_false, or_false] at earlier
  rcases earlier with year | ⟨sameYear, month | ⟨sameMonth, day | ⟨sameDay, time⟩⟩⟩
  · have inside : m.dayOfYear < yearLength (base + (m.year - base)) := by
      rw [Nat.add_sub_cancel' valid.year]
      exact valid.dayOfYear_lt
    have from_base := valid.year
    exact days_lt (@blocksBefore_lt (fun ago => yearLength (base + ago)) _ _ _ _ (by omega) inside)
  · refine days_lt ?_
    rw [days, days, sameYear, dayOfYear, dayOfYear, sameYear]
    refine Nat.add_lt_add_left (blocksBefore_lt (by omega) ?_) _
    rw [← sameYear]
    omega
  · refine days_lt ?_
    rw [days, days, sameYear, dayOfYear, dayOfYear, sameYear, sameMonth]
    omega
  · have same : m.days base = n.days base := by
      rw [days, days, sameYear, dayOfYear, dayOfYear, sameYear, sameMonth, sameDay]
    rw [seconds, seconds, same]
    omega

/-- Seconds order moments as their fields do. -/
theorem seconds_lt_iff (valid : m.Valid base) (validToo : n.Valid base) :
    m.seconds base < n.seconds base ↔ m.fields < n.fields := by
  refine ⟨fun earlier => ?_, seconds_lt valid validToo⟩
  rcases lt_trichotomy m.fields n.fields with less | same | greater
  · exact less
  · have isSame : m = n := by
      cases m
      cases n
      simpa [fields] using same
    exact absurd earlier (isSame ▸ lt_irrefl _)
  · exact absurd earlier (seconds_lt validToo valid greater).asymm

end Moment
end Gregorian
end M4KK1.Lib
