import Mathlib.Tactic.IntervalCases
import M4KK1.Lib.Gregorian
import M4KK1.Lib.Word32

/-!
# The calendar of the system calls

`kernel/syscall.c` turns seconds since 1970 into fields and back, year by year and month by month.
-/

namespace M4KK1.Kernel

open Lib Lib.Gregorian

/-- `mkrn_time_t`; the year is a `u32`, the other fields are `u8`. -/
structure MkrnTime where
  second : Nat
  minute : Nat
  hour : Nat
  day : Nat
  month : Nat
  year : Nat
deriving DecidableEq, Repr

/-- The date and time the fields stand for. -/
def MkrnTime.moment (t : MkrnTime) : Moment := ⟨t.year, t.month, t.day, t.hour, t.minute, t.second⟩

theorem MkrnTime.moment_injective : Function.Injective MkrnTime.moment := by
  rintro ⟨second, minute, hour, day, month, year⟩ ⟨_, _, _, _, _, _⟩ same
  cases same
  rfl

def scIsLeap (y : Int) : Bool := (y % 4 = 0 ∧ y % 100 ≠ 0) ∨ y % 400 = 0

/-- `dim` of `sc_month_days`. -/
def dim : List Nat := [31, 28, 31, 30, 31, 30, 31, 31, 30, 31, 30, 31]

def scMonthDays (y : Int) (m : Nat) : Nat :=
  if m < 1 ∨ m > 12 then 0
  else if m = 2 ∧ scIsLeap y then dim.getD (m - 1) 0 + 1
  else dim.getD (m - 1) 0

/-- `days += sc_is_leap(yr) ? 366 : 365;` for a number of years from `yr` on. -/
def addYears (yr : Int) (days : Nat) : Nat → Nat
  | 0 => days
  | count + 1 => addYears (yr + 1) (add32 days (if scIsLeap yr then 366 else 365)) count

/-- `days += sc_month_days(year, mo);` for a number of months from `mo` on. -/
def addMonths (year : Int) (mo days : Nat) : Nat → Nat
  | 0 => days
  | count + 1 => addMonths year (mo + 1) (add32 days (scMonthDays year mo)) count

def rtcToEpoch (t : MkrnTime) : Nat :=
  let year := signed32 t.year
  let days := addYears 1970 0 (year - 1970).toNat
  let days := addMonths year 1 days (t.month - 1)
  let days := add32 days (sub32 t.day 1)
  (days * 86400 + t.hour * 3600 + t.minute * 60 + t.second) % 4294967296

/-- The loop of `epoch_to_rtc` that takes whole years off. -/
def yearLoop (yr : Int) (days : Nat) : Int × Nat :=
  let ld := if scIsLeap yr then 366 else 365
  if days < ld then (yr, days) else yearLoop (yr + 1) (days - ld)
termination_by days
decreasing_by
  have positive : 0 < ld := by
    unfold ld
    split <;> decide
  omega

/-- The loop of `epoch_to_rtc` that takes whole months off. -/
def monthLoop (yr : Int) (mo days : Nat) : Nat × Nat :=
  if mo ≤ 12 then
    if days < scMonthDays yr mo then (mo, days)
    else monthLoop yr (mo + 1) (days - scMonthDays yr mo)
  else (mo, days)
termination_by 13 - mo

def epochToRtc (epoch : Nat) : MkrnTime :=
  let (yr, days) := yearLoop 1970 (epoch / 60 / 60 / 24)
  let (mo, days) := monthLoop yr 1 days
  { second := epoch % 60
    minute := epoch / 60 % 60
    hour := epoch / 60 / 60 % 24
    day := (days + 1) % 256
    month := mo % 256
    year := (yr % 4294967296).toNat }

theorem scIsLeap_iff (year : Nat) : scIsLeap year = true ↔ IsLeap year := by
  unfold scIsLeap IsLeap
  rw [decide_eq_true_iff]
  omega

theorem yearDays_eq (year : Nat) :
    (if scIsLeap year then 366 else 365) = yearLength year := by
  rw [yearLength_eq]
  exact if_congr (scIsLeap_iff year) rfl rfl

theorem scMonthDays_eq (year : Nat) {m : Nat} (first : 1 ≤ m) (last : m ≤ 12) :
    scMonthDays year m = monthLength year (m - 1) := by
  unfold scMonthDays
  rw [if_neg (by omega)]
  simp only [scIsLeap_iff]
  by_cases leap : IsLeap year
  · interval_cases m <;> simp [dim, monthLength, leap]
  · interval_cases m <;> simp [dim, monthLength, leap]

theorem yearsBehind (yr count : Nat) :
    blocksBefore (fun later => yearLength (yr + later)) (count + 1) =
      yearLength yr + blocksBefore (fun later => yearLength (yr + 1 + later)) count := by
  rw [blocksBefore_succ']
  simp only [Nat.add_zero, Nat.add_assoc, Nat.add_comm 1]

theorem monthsBehind (yr : Nat) {mo : Nat} (first : 1 ≤ mo) (count : Nat) :
    blocksBefore (fun later => monthLength yr (mo - 1 + later)) (count + 1) =
      monthLength yr (mo - 1) +
        blocksBefore (fun later => monthLength yr (mo + 1 - 1 + later)) count := by
  have next : mo + 1 - 1 = mo - 1 + 1 := by omega
  rw [blocksBefore_succ', next]
  simp only [Nat.add_zero, Nat.add_assoc, Nat.add_comm 1]

theorem fromFirstMonth (yr : Nat) :
    (fun later => monthLength yr (1 - 1 + later)) = monthLength yr := by
  funext later
  rw [Nat.sub_self, Nat.zero_add]

theorem addYears_mod (yr days count : Nat) : addYears yr days count % 4294967296 =
      (days + blocksBefore (fun later => yearLength (yr + later)) count) % 4294967296 := by
  induction count generalizing yr days with
  | zero => rfl
  | succ count ih =>
    have next := ih (yr + 1) (add32 days (yearLength yr))
    rw [Nat.cast_succ] at next
    rw [addYears, yearDays_eq, next, yearsBehind]
    unfold add32
    omega

theorem addMonths_mod (year : Nat) {mo count : Nat} (days : Nat) (first : 1 ≤ mo)
    (last : mo + count ≤ 13) :
    addMonths year mo days count % 4294967296 =
      (days + blocksBefore (fun later => monthLength year (mo - 1 + later)) count) %
        4294967296 := by
  induction count generalizing mo days with
  | zero => rfl
  | succ count ih =>
    rw [addMonths, ih _ (by omega) (by omega), scMonthDays_eq year first (by omega),
      monthsBehind year first]
    unfold add32
    omega

theorem yearLoop_eq (yr days : Nat) :
    ∃ later place, yearLoop yr days = (((yr + later : Nat) : Int), place) ∧
      place < yearLength (yr + later) ∧
      days = blocksBefore (fun ago => yearLength (yr + ago)) later + place := by
  induction days using Nat.strong_induction_on generalizing yr with
  | _ days ih =>
    rw [yearLoop, yearDays_eq]
    by_cases inside : days < yearLength yr
    · exact ⟨0, days, if_pos inside, inside, (Nat.zero_add days).symm⟩
    · have positive := yearLength_pos yr
      obtain ⟨later, place, found, within, whole⟩ := ih (days - yearLength yr) (by omega) (yr + 1)
      have behind : yr + 1 + later = yr + (later + 1) := by omega
      refine ⟨later + 1, place, ?_, ?_, ?_⟩
      · rw [Nat.cast_succ, behind] at found
        rw [if_neg inside, found]
      · rwa [← behind]
      · rw [yearsBehind]
        omega

theorem monthLoop_eq (yr : Nat) {mo days : Nat} (first : 1 ≤ mo)
    (inYear : days < blocksBefore (fun later => monthLength yr (mo - 1 + later)) (13 - mo)) :
    ∃ later place, monthLoop yr mo days = (mo + later, place) ∧ mo + later ≤ 12 ∧
      place < monthLength yr (mo + later - 1) ∧
      days = blocksBefore (fun ago => monthLength yr (mo - 1 + ago)) later + place := by
  induction rounds : 13 - mo generalizing mo days with
  | zero =>
    rw [rounds] at inYear
    exact absurd inYear (Nat.not_lt_zero _)
  | succ remaining ih =>
    rw [monthLoop, if_pos (by omega), scMonthDays_eq yr first (by omega)]
    by_cases inside : days < monthLength yr (mo - 1)
    · exact ⟨0, days, if_pos inside, by omega, inside, (Nat.zero_add days).symm⟩
    · rw [rounds, monthsBehind yr first, ← show 13 - (mo + 1) = remaining by omega] at inYear
      obtain ⟨later, place, found, within, short, whole⟩ :=
        @ih (mo + 1) (days - monthLength yr (mo - 1)) (by omega) (by omega) (by omega)
      have behind : mo + 1 + later = mo + (later + 1) := by omega
      rw [behind] at found within short
      refine ⟨later + 1, place, ?_, within, short, ?_⟩
      · rw [if_neg inside, found]
      · rw [monthsBehind yr first]
        omega

theorem rtcToEpoch_eq {t : MkrnTime} (valid : t.moment.Valid 1970) (year : t.year < 2147483648) :
    rtcToEpoch t = t.moment.seconds 1970 % 4294967296 := by
  have lastMonth : t.month ≤ 12 := valid.month.2
  have firstDay : 1 ≤ t.day := valid.day.1
  have lastDay : t.day ≤ 31 := Nat.le_trans valid.day.2 (monthLength_le _ _)
  have from1970 : 1970 ≤ t.year := valid.year
  have signedYear : signed32 t.year = t.year := signed32_eq (by omega) (by omega)
  have years : ((t.year : Int) - 1970).toNat = t.year - 1970 := by omega
  have day : sub32 t.day 1 = t.day - 1 := sub32_eq firstDay (by omega)
  have yearDays := addYears_mod 1970 0 (t.year - 1970)
  have monthDays := addMonths_mod t.year (addYears 1970 0 (t.year - 1970)) (Nat.le_refl 1)
    (show 1 + (t.month - 1) ≤ 13 by omega)
  rw [fromFirstMonth] at monthDays
  rw [Nat.zero_add, Nat.cast_ofNat] at yearDays
  simp only [rtcToEpoch, signedYear, years, day, add32, Moment.seconds, Moment.days,
    Moment.dayOfYear, MkrnTime.moment]
  omega

theorem epochToRtc_loops {epoch : Nat} (typed : epoch < 4294967296) : ∃ later place ago dayPlace,
      yearLoop 1970 (epoch / 60 / 60 / 24) = (((1970 + later : Nat) : Int), place) ∧
      monthLoop (1970 + later : Nat) 1 place = (1 + ago, dayPlace) ∧
      epochToRtc epoch = ⟨epoch % 60, epoch / 60 % 60, epoch / 60 / 60 % 24, dayPlace + 1, 1 + ago,
        1970 + later⟩ ∧
      (epochToRtc epoch).moment.Valid 1970 ∧ (epochToRtc epoch).moment.seconds 1970 = epoch ∧
      (epochToRtc epoch).year < 2147483648 := by
  obtain ⟨later, place, year, inYear, days⟩ := yearLoop_eq 1970 (epoch / 60 / 60 / 24)
  have wholeYear := inYear
  rw [yearLength, ← fromFirstMonth] at wholeYear
  obtain ⟨ago, dayPlace, month, lastMonth, inMonth, places⟩ :=
    monthLoop_eq (1970 + later) (Nat.le_refl 1) wholeYear
  rw [fromFirstMonth] at places
  have lastDay := monthLength_le (1970 + later) (1 + ago - 1)
  have few : later ≤ epoch / 60 / 60 / 24 := by
    rw [days]
    exact Nat.le_trans (le_blocksBefore (fun ago => yearLength_pos (1970 + ago)) later)
      (Nat.le_add_right _ _)
  rw [Nat.cast_ofNat] at year
  have stored : epochToRtc epoch = ⟨epoch % 60, epoch / 60 % 60, epoch / 60 / 60 % 24,
      dayPlace + 1, 1 + ago, 1970 + later⟩ := by
    rw [epochToRtc, year]
    simp only [month]
    congr 1 <;> omega
  refine ⟨later, place, ago, dayPlace, year, month, stored, ?_⟩
  rw [stored]
  refine ⟨⟨?_, ?_, ?_, ?_, ?_, ?_⟩, ?_, ?_⟩
  all_goals simp only [MkrnTime.moment, Moment.seconds, Moment.days, Moment.dayOfYear,
    Nat.add_sub_cancel, Nat.add_sub_cancel_left] at *
  all_goals omega

theorem epochToRtc_spec {epoch : Nat} (typed : epoch < 4294967296) :
    (epochToRtc epoch).moment.Valid 1970 ∧ (epochToRtc epoch).moment.seconds 1970 = epoch ∧
      (epochToRtc epoch).year < 2147483648 := by
  obtain ⟨_, _, _, _, _, _, _, spec⟩ := epochToRtc_loops typed
  exact spec

/-- Seconds become a date and back without loss, and so do dates in the range of a `u32`. -/
theorem calendar_round_trip :
    (∀ e, e < 4294967296 →
      (epochToRtc e).moment.Valid 1970 ∧ rtcToEpoch (epochToRtc e) = e) ∧
    ∀ t : MkrnTime, t.moment.Valid 1970 → t.moment.seconds 1970 < 4294967296 →
      epochToRtc (rtcToEpoch t) = t := by
  constructor
  · intro e typed
    obtain ⟨valid, seconds, year⟩ := epochToRtc_spec typed
    refine ⟨valid, ?_⟩
    rw [rtcToEpoch_eq valid year, seconds, Nat.mod_eq_of_lt typed]
  · intro t valid typed
    have year : t.year < 2147483648 := by
      have := le_blocksBefore (fun ago => yearLength_pos (1970 + ago)) (t.year - 1970)
      simp only [Moment.seconds, Moment.days, MkrnTime.moment] at typed
      omega
    rw [rtcToEpoch_eq valid year, Nat.mod_eq_of_lt typed]
    obtain ⟨validToo, seconds, -⟩ := epochToRtc_spec typed
    exact MkrnTime.moment_injective (Moment.seconds_injective validToo valid seconds)

/-- The last second that 32 bits count is in 2106. -/
theorem calendar_round_trip_last :
    (⟨15, 28, 6, 7, 2, 2106⟩ : MkrnTime).moment.seconds 1970 = 4294967295 ∧
      epochToRtc (rtcToEpoch ⟨15, 28, 6, 7, 2, 2106⟩) = ⟨15, 28, 6, 7, 2, 2106⟩ ∧
      rtcToEpoch (epochToRtc 4294967295) = 4294967295 := by
  have seconds : (⟨15, 28, 6, 7, 2, 2106⟩ : MkrnTime).moment.seconds 1970 = 4294967295 := by
    decide +kernel
  exact ⟨seconds, calendar_round_trip.2 _ (by decide) (by rw [seconds]; decide),
    (calendar_round_trip.1 _ (by decide)).2⟩

/-- Both conversions keep the order of time, the fields being compared from the year down. -/
theorem calendar_chronological :
    (∀ e e', e < 4294967296 → e' < 4294967296 →
      (e < e' ↔ (epochToRtc e).moment.fields < (epochToRtc e').moment.fields)) ∧
    ∀ t t' : MkrnTime, t.moment.Valid 1970 → t'.moment.Valid 1970 →
      t.moment.seconds 1970 < 4294967296 → t'.moment.seconds 1970 < 4294967296 →
      (rtcToEpoch t < rtcToEpoch t' ↔ t.moment.fields < t'.moment.fields) := by
  constructor
  · intro e e' typed typed'
    obtain ⟨valid, seconds, -⟩ := epochToRtc_spec typed
    obtain ⟨valid', seconds', -⟩ := epochToRtc_spec typed'
    rw [← Moment.seconds_lt_iff valid valid', seconds, seconds']
  · have epoch (t : MkrnTime) (valid : t.moment.Valid 1970)
      (typed : t.moment.seconds 1970 < 4294967296) :
        rtcToEpoch t = t.moment.seconds 1970 := by
      have year := le_blocksBefore (fun ago => yearLength_pos (1970 + ago)) (t.year - 1970)
      rw [rtcToEpoch_eq valid, Nat.mod_eq_of_lt typed]
      simp only [Moment.seconds, Moment.days, MkrnTime.moment] at typed
      omega
    intro t t' valid valid' typed typed'
    rw [epoch t valid typed, epoch t' valid' typed', Moment.seconds_lt_iff valid valid']

/-- The last second of 1999 and the first of 2000. -/
theorem calendar_chronological_2000 :
    (epochToRtc 946684799).moment.fields < (epochToRtc 946684800).moment.fields :=
  (calendar_chronological.1 _ _ (by decide) (by decide)).mp (by decide)

end M4KK1.Kernel
