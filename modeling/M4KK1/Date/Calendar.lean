import M4KK1.Kernel.Calendar

/-!
# The calendar of `date`

`date.c` has loops of its own for the kernel's calendar, and a formula for the day of the week.
-/

namespace M4KK1.Date

open Lib Lib.Gregorian Kernel

/-- What `epoch_to_ymd` stores. -/
structure Ymd where
  y : Int
  m : Int
  d : Int
  h : Int
  mi : Int
  s : Int
deriving DecidableEq, Repr

def isLeap (y : Int) : Bool := (y.tmod 4 = 0 ∧ y.tmod 100 ≠ 0) ∨ y.tmod 400 = 0

def monthDays (y m : Int) : Int :=
  if m < 1 ∨ m > 12 then 0
  else
    let d := [31, 28, 31, 30, 31, 30, 31, 31, 30, 31, 30, 31].getD (m - 1).toNat 0
    if m = 2 ∧ isLeap y then d + 1 else d

/-- The loop of `epoch_to_ymd` over the years. -/
def years (days yr : Int) : Int × Int :=
  let ld := if isLeap yr then 366 else 365
  if days < ld then (yr, days) else years (days - ld) (yr + 1)
termination_by days.toNat
decreasing_by
  have positive : 0 < ld := by
    unfold ld
    split <;> decide
  omega

/-- The loop of `epoch_to_ymd` over the months. -/
def months (days yr mo : Int) : Int × Int :=
  if mo ≤ 12 then
    let dim := monthDays yr mo
    if days < dim then (mo, days) else months (days - dim) yr (mo + 1)
  else (mo, days)
termination_by (13 - mo).toNat

def epochToYmd (t : Nat) : Ymd :=
  let (yr, days) := years (t / 86400 : Nat) 1970
  let (mo, days) := months days yr 1
  { y := yr
    m := mo
    d := days + 1
    h := (t / 3600 % 24 : Nat)
    mi := (t / 60 % 60 : Nat)
    s := (t % 60 : Nat) }

def dayOfWeek (y m d : Int) : Int :=
  let t : List Nat := [0, 3, 2, 5, 0, 3, 5, 1, 4, 6, 2, 4]
  let y := if m < 3 then y - 1 else y
  (y + y.tdiv 4 - y.tdiv 100 + y.tdiv 400 + t.getD (m - 1).toNat 0 + d).tmod 7

/-- An `int` as a `uint32_t`. -/
def unsigned32 (value : Int) : Nat := (value % 4294967296).toNat

/-- The loop of `ymd_to_epoch` over the years. -/
def yearDays (y yr : Int) (days : Nat) : Nat :=
  if yr < y then yearDays y (yr + 1) (add32 days (if isLeap yr then 366 else 365)) else days
termination_by (y - yr).toNat

/-- The loop of `ymd_to_epoch` over the months. -/
def monthsDays (y m mo : Int) (days : Nat) : Nat :=
  if mo < m then monthsDays y m (mo + 1) (add32 days (unsigned32 (monthDays y mo))) else days
termination_by (m - mo).toNat

def ymdToEpoch (date : Ymd) : Nat :=
  let days := yearDays date.y 1970 0
  let days := monthsDays date.y date.m 1 days
  let days := add32 days (unsigned32 (date.d - 1))
  (days * 86400 + unsigned32 (date.h * 3600) + unsigned32 (date.mi * 60) + unsigned32 date.s) %
    4294967296

theorem isLeap_eq (y : Int) : isLeap y = scIsLeap y := by
  have same (n : Int) : y.tmod n = 0 ↔ y % n = 0 :=
    Int.dvd_iff_tmod_eq_zero.symm.trans Int.dvd_iff_emod_eq_zero
  simp only [isLeap, scIsLeap, ne_eq, same]

theorem monthDays_eq (y : Int) (m : Nat) : monthDays y m = scMonthDays y m := by
  by_cases inside : 1 ≤ m ∧ m ≤ 12
  · obtain ⟨first, last⟩ := inside
    simp only [monthDays, scMonthDays, dim, isLeap_eq]
    interval_cases m <;> cases scIsLeap y <;> decide
  · rw [monthDays, scMonthDays, if_pos (by omega), if_pos (by omega)]
    rfl

theorem years_eq (yr : Int) (days : Nat) :
    years days yr = ((yearLoop yr days).1, ((yearLoop yr days).2 : Int)) := by
  have length (yr : Int) : (if isLeap yr then 366 else 365 : Int) =
      (if scIsLeap yr then 366 else 365 : Nat) := by
    rw [isLeap_eq]
    split <;> rfl
  fun_induction yearLoop yr days with
  | case1 yr days ld inside =>
    rw [years, length]
    exact if_pos (Int.ofNat_lt.mpr inside)
  | case2 yr days ld behind ih =>
    rw [← ih, Int.ofNat_sub (Nat.le_of_not_lt behind), years, length]
    exact if_neg (mt Int.ofNat_lt.mp behind)

theorem months_eq (yr : Int) (mo days : Nat) :
    months days yr mo = (((monthLoop yr mo days).1 : Int), ((monthLoop yr mo days).2 : Int)) := by
  fun_induction monthLoop yr mo days with
  | case1 mo days inYear inside =>
    rw [months, if_pos (by omega), monthDays_eq, if_pos (by omega)]
  | case2 mo days inYear behind ih =>
    rw [months, if_pos (by omega), monthDays_eq, if_neg (by omega), ← ih]
    congr 1
    omega
  | case3 mo days behind => rw [months, if_neg (by omega)]

theorem yearDays_eq (yr : Int) (days count : Nat) :
    yearDays (yr + count) yr days = addYears yr days count := by
  induction count generalizing yr days with
  | zero => rw [yearDays, if_neg (by omega), addYears]
  | succ count ih =>
    rw [yearDays, if_pos (by omega), addYears, ← ih, isLeap_eq]
    congr 1
    omega

theorem monthsDays_eq (y : Int) (mo days count : Nat) :
    monthsDays y (mo + count : Nat) mo days = addMonths y mo days count := by
  induction count generalizing mo days with
  | zero => rw [monthsDays, if_neg (by omega), addMonths]
  | succ count ih =>
    have word : unsigned32 (scMonthDays y mo) % 4294967296 = scMonthDays y mo % 4294967296 := by
      unfold unsigned32
      omega
    rw [monthsDays, if_pos (by omega), addMonths, ← ih, monthDays_eq]
    have same : add32 days (unsigned32 (scMonthDays y mo)) = add32 days (scMonthDays y mo) := by
      unfold add32
      omega
    rw [same]
    congr 1
    omega

theorem unsigned32_eq {value : Nat} (small : value < 4294967296) : unsigned32 value = value := by
  unfold unsigned32
  omega

theorem ymdToEpoch_eq {t : MkrnTime} (valid : t.moment.Valid 1970) (year : t.year < 2147483648) :
    ymdToEpoch ⟨t.year, t.month, t.day, t.hour, t.minute, t.second⟩ = rtcToEpoch t := by
  obtain ⟨later, isYear⟩ : ∃ later, t.year = 1970 + later := Nat.exists_eq_add_of_le valid.year
  obtain ⟨ago, isMonth⟩ : ∃ ago, t.month = 1 + ago := Nat.exists_eq_add_of_le valid.month.1
  have hour : t.hour < 24 := valid.hour
  have minute : t.minute < 60 := valid.minute
  have second : t.second < 60 := valid.second
  have firstDay : 1 ≤ t.day := valid.day.1
  have lastDay : t.day ≤ 31 := Nat.le_trans valid.day.2 (monthLength_le _ _)
  have signedYear : signed32 t.year = t.year := signed32_eq (by omega) (by omega)
  have counted : yearDays t.year 1970 0 = addYears 1970 0 (t.year - 1970 : Int).toNat := by
    have turns : ((t.year : Int) - 1970).toNat = later := by omega
    rw [turns, ← yearDays_eq, isYear, Nat.cast_add, Nat.cast_ofNat]
  have counted' (days : Nat) : monthsDays t.year t.month 1 days =
      addMonths t.year 1 days (t.month - 1) := by
    rw [isMonth, Nat.add_sub_cancel_left]
    exact monthsDays_eq t.year 1 days ago
  have day : unsigned32 (t.day - 1) = sub32 t.day 1 := by
    unfold unsigned32 sub32
    omega
  have hours : unsigned32 (t.hour * 3600) = t.hour * 3600 := by
    exact_mod_cast unsigned32_eq (show t.hour * 3600 < 4294967296 by omega)
  have minutes : unsigned32 (t.minute * 60) = t.minute * 60 := by
    exact_mod_cast unsigned32_eq (show t.minute * 60 < 4294967296 by omega)
  have seconds : unsigned32 t.second = t.second := unsigned32_eq (by omega)
  simp only [ymdToEpoch, rtcToEpoch, signedYear, counted, counted', day, hours, minutes, seconds]

/-- The leap days of the years up to `y`. -/
def leapDays (y : Nat) : Nat := y / 4 - y / 100 + y / 400

theorem leapDays_succ (y : Nat) : leapDays (y + 1) = leapDays y + if IsLeap (y + 1) then 1
    else 0 := by
  by_cases leap : IsLeap (y + 1)
  · rw [if_pos leap]
    unfold leapDays IsLeap at *
    omega
  · rw [if_neg leap]
    unfold leapDays IsLeap at *
    omega

theorem yearsBefore_leapDays (count : Nat) :
    blocksBefore (fun ago => yearLength (1970 + ago)) count + leapDays 1969 =
      365 * count + leapDays (1969 + count) := by
  induction count with
  | zero => rfl
  | succ count ih =>
    have next := leapDays_succ (1969 + count)
    rw [show 1969 + count + 1 = 1970 + count by omega] at next
    rw [blocksBefore_succ, yearLength_eq, show 1969 + (count + 1) = 1970 + count by omega, next]
    split <;> omega

theorem dayOfWeek_eq {y m d : Nat} (after : 0 < y) :
    dayOfWeek y m d = (((if m < 3 then y - 1 + leapDays (y - 1) else y + leapDays y) +
      [0, 3, 2, 5, 0, 3, 5, 1, 4, 6, 2, 4].getD (m - 1) 0 + d) % 7 : Nat) := by
  have place : ((m : Int) - 1).toNat = m - 1 := by omega
  have year : (if (m : Int) < 3 then (y : Int) - 1 else y) =
      (if m < 3 then y - 1 else y : Nat) := by
    split <;> split <;> omega
  have sum (y : Nat) : (y + (y : Int).tdiv 4 - (y : Int).tdiv 100 + (y : Int).tdiv 400) =
      (y + leapDays y : Nat) := by
    have quotient (n : Nat) : (y : Int).tdiv n = (y / n : Nat) := (Int.ofNat_tdiv y n).symm
    rw [show (4 : Int) = (4 : Nat) from rfl, show (100 : Int) = (100 : Nat) from rfl,
      show (400 : Int) = (400 : Nat) from rfl, quotient, quotient, quotient]
    unfold leapDays
    omega
  simp only [dayOfWeek, year, place, sum]
  split <;> rfl

theorem dayOfWeek_days {m : Moment} (valid : m.Valid 1970) :
    dayOfWeek m.year m.month m.day = (m.days 1970 + 4) % 7 := by
  obtain ⟨year, month, day, hour, minute, second⟩ := m
  obtain ⟨count, rfl⟩ : ∃ count, year = 1970 + count := Nat.exists_eq_add_of_le valid.year
  obtain ⟨firstMonth, lastMonth⟩ : 1 ≤ month ∧ month ≤ 12 := valid.month
  have firstDay : 1 ≤ day := valid.day.1
  have years := yearsBefore_leapDays count
  have thisYear := leapDays_succ (1969 + count)
  have before : leapDays 1969 = 477 := rfl
  have next : 1969 + count + 1 = 1970 + count := by omega
  have last : 1970 + count - 1 = 1969 + count := by omega
  rw [next] at thisYear
  simp only [dayOfWeek_eq (show 0 < 1970 + count by omega), Moment.days, Moment.dayOfYear,
    Nat.add_sub_cancel_left, last]
  by_cases leap : IsLeap (1970 + count)
  · rw [if_pos leap] at thisYear
    interval_cases month <;> simp [blocksBefore_succ, monthLength, leap] <;> omega
  · rw [if_neg leap] at thisYear
    interval_cases month <;> simp [blocksBefore_succ, monthLength, leap] <;> omega

/-- `date` and the kernel agree on every second that a `uint32_t` counts, and on its day
of the week. -/
theorem date_agrees_with_kernel (e : UInt32) :
    epochToYmd e.toNat = ⟨(epochToRtc e.toNat).year, (epochToRtc e.toNat).month,
      (epochToRtc e.toNat).day,
        (epochToRtc e.toNat).hour, (epochToRtc e.toNat).minute, (epochToRtc e.toNat).second⟩ ∧
      ymdToEpoch (epochToYmd e.toNat) = e.toNat ∧
      dayOfWeek (epochToYmd e.toNat).y (epochToYmd e.toNat).m (epochToYmd e.toNat).d =
        (e.toNat / 86400 + 4) % 7 := by
  obtain ⟨later, place, ago, dayPlace, isYear, isMonth, stored, valid, seconds, year⟩ :=
    epochToRtc_loops e.toNat_lt
  have same : epochToYmd e.toNat = ⟨(epochToRtc e.toNat).year, (epochToRtc e.toNat).month,
    (epochToRtc e.toNat).day,
      (epochToRtc e.toNat).hour, (epochToRtc e.toNat).minute, (epochToRtc e.toNat).second⟩ := by
    have quotients : e.toNat / 86400 = e.toNat / 60 / 60 / 24 ∧
        e.toNat / 3600 = e.toNat / 60 / 60 := by omega
    have months := months_eq (1970 + later : Nat) 1 place
    rw [isMonth, Nat.cast_one] at months
    rw [epochToYmd, quotients.1, quotients.2, years_eq, isYear]
    dsimp only
    rw [months, stored]
    rfl
  refine ⟨same, ?_, ?_⟩
  · rw [same, ymdToEpoch_eq valid year, rtcToEpoch_eq valid year, seconds,
      Nat.mod_eq_of_lt e.toNat_lt]
  · have days : (epochToRtc e.toNat).moment.days 1970 = e.toNat / 86400 := by
      have := valid.hour
      have := valid.minute
      have := valid.second
      unfold Moment.seconds at seconds
      omega
    have weekday := dayOfWeek_days valid
    rw [days] at weekday
    rw [same]
    exact weekday

end M4KK1.Date
