import M4KK1.Kernel.Calendar

/-!
# Setting and reading the clock

The CMOS clock has two digits for the year. No tick comes between `settimeofday` and `time`.
-/

namespace M4KK1.Kernel

open Lib Lib.Gregorian

abbrev Cmos := Nat → UInt8

def rtcSeconds : Nat := 0x00
def rtcMinutes : Nat := 0x02
def rtcHours : Nat := 0x04
def rtcDay : Nat := 0x07
def rtcMonth : Nat := 0x08
def rtcYear : Nat := 0x09
def rtcStatusA : Nat := 0x0A
def rtcStatusB : Nat := 0x0B

def rtcBinaryMode : UInt8 := 0x04

variable (cmos : Cmos)

def cmosWrite (reg value : Nat) : Cmos :=
  Function.update cmos reg (UInt8.ofNat value)

/-- The update flag both functions wait for, which plain registers keep. -/
def Updating : Prop := cmos rtcStatusA &&& 0x80 ≠ 0

instance (cmos : Cmos) : Decidable (Updating cmos) := inferInstanceAs (Decidable (_ ≠ _))

/-- A field that was read as two decimal digits. -/
def fromBcd (value : Nat) : Nat := (value >>> 4) * 10 + (value &&& 0x0F)

/-- A field as two decimal digits. -/
def toBcd (value : Nat) : Nat := ((value / 10) <<< 4) ||| (value % 10)

/-- `mkrn_timer_read_rtc`; `none` is a wait without end. -/
def timerReadRtc : Option MkrnTime :=
  let statusB := cmos rtcStatusB
  if Updating cmos then none
  else
    let t : MkrnTime :=
      { second := (cmos rtcSeconds).toNat
        minute := (cmos rtcMinutes).toNat
        hour := (cmos rtcHours).toNat
        day := (cmos rtcDay).toNat
        month := (cmos rtcMonth).toNat
        year := (cmos rtcYear).toNat }
    let t : MkrnTime :=
      if statusB &&& rtcBinaryMode = 0 then
        { second := fromBcd t.second % 256
          minute := fromBcd t.minute % 256
          hour := fromBcd t.hour % 256
          day := fromBcd t.day % 256
          month := fromBcd t.month % 256
          year := fromBcd t.year }
      else t
    some { t with year := t.year + 2000 }

/-- `mkrn_timer_set_rtc`; `none` is a wait without end. -/
def timerSetRtc (t : MkrnTime) : Option Cmos :=
  let statusB := cmos rtcStatusB
  if Updating cmos then none
  else
    let t : MkrnTime :=
      if statusB &&& rtcBinaryMode = 0 then
        { second := toBcd t.second % 256
          minute := toBcd t.minute % 256
          hour := toBcd t.hour % 256
          day := toBcd t.day % 256
          month := toBcd t.month % 256
          year := ((t.year % 100 / 10) <<< 4) ||| (t.year % 10) }
      else { t with year := t.year % 100 }
    let cmos := cmosWrite cmos rtcSeconds t.second
    let cmos := cmosWrite cmos rtcMinutes t.minute
    let cmos := cmosWrite cmos rtcHours t.hour
    let cmos := cmosWrite cmos rtcDay t.day
    let cmos := cmosWrite cmos rtcMonth t.month
    some (cmosWrite cmos rtcYear t.year)

/-- `mkrn_syscall_time_impl`, the value it returns. -/
def syscallTime : Option Nat := (timerReadRtc cmos).map rtcToEpoch

/-- `M4K_SC_ERROR` as the `u32` it is returned as. -/
def scError : Nat := 4294967295

/-- `mkrn_syscall_settimeofday_impl`: the value returned and the registers left. -/
def syscallSettimeofday (euid : Option Nat) (tv : Option Nat) :
    Option (Nat × Cmos) :=
  match tv with
  | none => some (scError, cmos)
  | some epoch =>
    if euid.any (· ≠ 0) then some (scError, cmos)
    else (timerSetRtc cmos (epochToRtc epoch)).map fun cmos => (0, cmos)

/-- `settimeofday` takes the value. -/
def AcceptsTime (euid : Option Nat) (e : Nat) (cmos' : Cmos) : Prop :=
  syscallSettimeofday cmos euid (some e) = some (0, cmos')

theorem digits_kept : ∀ value < 100, fromBcd (UInt8.ofNat (toBcd value % 256)).toNat = value ∧
    (UInt8.ofNat value).toNat = value ∧ value % 256 = value := by
  decide

theorem yearDigits (year : Nat) :
    ((year % 100 / 10) <<< 4) ||| (year % 10) = toBcd (year % 100) % 256 := by
  have tens : year % 10 = year % 100 % 10 := by omega
  have small : ∀ value < 100, toBcd value < 256 := by decide
  rw [tens, Nat.mod_eq_of_lt (small _ (Nat.mod_lt _ (by decide)))]
  rfl

theorem cmosWrites (second minute hour day month year : Nat) :
    ∃ cmos', cmosWrite (cmosWrite (cmosWrite (cmosWrite (cmosWrite (cmosWrite cmos
        rtcSeconds second) rtcMinutes minute) rtcHours hour) rtcDay day) rtcMonth month)
        rtcYear year = cmos' ∧
      cmos' rtcSeconds = UInt8.ofNat second ∧ cmos' rtcMinutes = UInt8.ofNat minute ∧
      cmos' rtcHours = UInt8.ofNat hour ∧ cmos' rtcDay = UInt8.ofNat day ∧
      cmos' rtcMonth = UInt8.ofNat month ∧ cmos' rtcYear = UInt8.ofNat year ∧
      cmos' rtcStatusA = cmos rtcStatusA ∧ cmos' rtcStatusB = cmos rtcStatusB :=
  ⟨_, rfl, rfl, rfl, rfl, rfl, rfl, rfl, rfl, rfl⟩

theorem read_set {cmos cmos' : Cmos} {t : MkrnTime} (valid : t.moment.Valid 1970)
    (set : timerSetRtc cmos t = some cmos') :
    timerReadRtc cmos' = some { t with year := t.year % 100 + 2000 } := by
  obtain ⟨second, secondByte, secondSmall⟩ :=
    digits_kept t.second (Nat.lt_trans valid.second (by decide))
  obtain ⟨minute, minuteByte, minuteSmall⟩ :=
    digits_kept t.minute (Nat.lt_trans valid.minute (by decide))
  obtain ⟨hour, hourByte, hourSmall⟩ := digits_kept t.hour (Nat.lt_trans valid.hour (by decide))
  obtain ⟨day, dayByte, daySmall⟩ := digits_kept t.day
    (Nat.lt_of_le_of_lt (Nat.le_trans valid.day.2 (monthLength_le _ _)) (by decide))
  obtain ⟨month, monthByte, monthSmall⟩ :=
    digits_kept t.month (Nat.lt_of_le_of_lt valid.month.2 (by decide))
  obtain ⟨year, yearByte, -⟩ := digits_kept (t.year % 100) (Nat.mod_lt _ (by decide))
  rw [timerSetRtc] at set
  by_cases updating : Updating cmos
  · simp [updating] at set
  rw [if_neg updating] at set
  have still : ∀ {later : Cmos}, later rtcStatusA = cmos rtcStatusA → ¬ Updating later := by
    intro later same
    rwa [Updating, same]
  by_cases decimal : cmos rtcStatusB &&& rtcBinaryMode = 0
  · simp only [if_pos decimal] at set
    obtain ⟨left, writes, inSeconds, inMinutes, inHours, inDay, inMonth, inYear, statusA,
        statusB⟩ :=
      cmosWrites cmos (toBcd t.second % 256) (toBcd t.minute % 256) (toBcd t.hour % 256)
        (toBcd t.day % 256) (toBcd t.month % 256) (((t.year % 100 / 10) <<< 4) ||| (t.year % 10))
    obtain rfl := Option.some.inj (writes ▸ set)
    simp only [timerReadRtc, if_neg (still statusA), statusB, if_pos decimal, inSeconds, inMinutes,
      inHours, inDay, inMonth, inYear, yearDigits, second, minute, hour, day, month, year,
      secondSmall, minuteSmall, hourSmall, daySmall, monthSmall]
  · simp only [if_neg decimal] at set
    obtain ⟨left, writes, inSeconds, inMinutes, inHours, inDay, inMonth, inYear, statusA,
        statusB⟩ :=
      cmosWrites cmos t.second t.minute t.hour t.day t.month (t.year % 100)
    obtain rfl := Option.some.inj (writes ▸ set)
    simp only [timerReadRtc, if_neg (still statusA), statusB, if_neg decimal, inSeconds, inMinutes,
      inHours, inDay, inMonth, inYear, secondByte, minuteByte, hourByte, dayByte, monthByte,
      yearByte]

theorem year_le_iff {m : Moment} (valid : m.Valid 1970) {year : Nat} (from1970 : 1970 ≤ year) :
    year ≤ m.year ↔
      blocksBefore (fun ago => yearLength (1970 + ago)) (year - 1970) * 86400 ≤ m.seconds 1970 := by
  have whole : 1970 + (m.year - 1970) = m.year := Nat.add_sub_cancel' valid.year
  have hour := valid.hour
  have minute := valid.minute
  have second := valid.second
  unfold Moment.seconds Moment.days
  constructor
  · intro later
    have := blocksBefore_mono (fun ago => yearLength (1970 + ago)) (Nat.sub_le_sub_right later 1970)
    omega
  · contrapose!
    intro earlier
    have := @blocksBefore_lt (fun ago => yearLength (1970 + ago)) (m.year - 1970) (year - 1970)
      m.dayOfYear 0 (by omega) (by simp only [whole]; exact valid.dayOfYear_lt)
    omega

theorem days_to_2000 : blocksBefore (fun ago => yearLength (1970 + ago)) (2000 - 1970) = 10957 := by
  decide +kernel

theorem days_to_2100 : blocksBefore (fun ago => yearLength (1970 + ago)) (2100 - 1970) = 47482 := by
  decide +kernel

theorem days_to_2107 : blocksBefore (fun ago => yearLength (1970 + ago)) (2107 - 1970) = 50038 := by
  decide +kernel

theorem twoDigit_leap : ∀ later < 137, IsLeap (1970 + later) →
    IsLeap ((1970 + later) % 100 + 2000) := by
  decide

theorem twoDigit_valid {m : Moment} (valid : m.Valid 1970) (last : m.year < 2107) :
    ({ m with year := m.year % 100 + 2000 } : Moment).Valid 1970 := by
  have leap := twoDigit_leap (m.year - 1970) (by omega)
  rw [Nat.add_sub_cancel' valid.year] at leap
  exact { valid with year := Nat.le_trans (by decide) (Nat.le_add_left 2000 _), day := ⟨valid.day.1,
    Nat.le_trans valid.day.2 (monthLength_mono leap _)⟩ }

theorem time_after_set {e : Nat} (typed : e < 4294967296) {cmos cmos' : Cmos} {euid : Option Nat}
    (accepted : AcceptsTime cmos euid e cmos') :
    syscallTime cmos' = some
      (rtcToEpoch { epochToRtc e with year := (epochToRtc e).year % 100 + 2000 }) := by
  unfold AcceptsTime syscallSettimeofday at accepted
  simp only at accepted
  by_cases refused : euid.any (· ≠ 0) = true
  · rw [if_pos refused] at accepted
    simp [scError] at accepted
  · rw [if_neg refused] at accepted
    cases set : timerSetRtc cmos (epochToRtc e) with
    | none => simp [set] at accepted
    | some left =>
      obtain rfl : left = cmos' := by simpa [set] using accepted
      rw [syscallTime, read_set (epochToRtc_spec typed).1 set, Option.map_some]

theorem twoDigit_iff {e : Nat} (typed : e < 4294967296) :
    rtcToEpoch { epochToRtc e with year := (epochToRtc e).year % 100 + 2000 } = e ↔
      946684800 ≤ e ∧ e < 4102444800 := by
  obtain ⟨valid, seconds, -⟩ := epochToRtc_spec typed
  have from2000 := year_le_iff valid (show 1970 ≤ 2000 by decide)
  have from2100 := year_le_iff valid (show 1970 ≤ 2100 by decide)
  have from2107 := year_le_iff valid (show 1970 ≤ 2107 by decide)
  rw [seconds, days_to_2000] at from2000
  rw [seconds, days_to_2100] at from2100
  rw [seconds, days_to_2107] at from2107
  have last : (epochToRtc e).moment.year < 2107 := by omega
  generalize epochToRtc e = t at *
  have validToo : ({ t with year := t.year % 100 + 2000 } : MkrnTime).moment.Valid 1970 :=
    twoDigit_valid valid last
  have below2100 := year_le_iff validToo (show 1970 ≤ 2100 by decide)
  rw [days_to_2100] at below2100
  have year : t.moment.year = t.year := rfl
  have yearToo : ({ t with year := t.year % 100 + 2000 } : MkrnTime).moment.year =
    t.year % 100 + 2000 := rfl
  have small : ({ t with year := t.year % 100 + 2000 } : MkrnTime).moment.seconds 1970 <
      4294967296 := by omega
  rw [rtcToEpoch_eq validToo (by simp only; omega), Nat.mod_eq_of_lt small]
  constructor
  · intro same
    have moments := Moment.seconds_injective validToo valid (same.trans seconds.symm)
    have years := congrArg Moment.year moments
    omega
  · intro range
    have kept : t.year % 100 + 2000 = t.year := by omega
    rw [kept]
    exact seconds

/-- A value is read back exactly when it lies in one of the years 2000 to 2099. -/
theorem clock_iff {e : Nat} (typed : e < 4294967296) {cmos cmos' : Cmos} {euid : Option Nat}
    (accepted : AcceptsTime cmos euid e cmos') :
    syscallTime cmos' = some e ↔ 946684800 ≤ e ∧ e < 4102444800 := by
  rw [time_after_set typed accepted, Option.some_inj, twoDigit_iff typed]

/-- The registers of a clock that counts in decimal digits. -/
def decimalClock : Cmos := fun _ => 0

/-- The first second of 2026, on a clock in decimal mode. -/
theorem clock_iff_2026 : ∃ cmos', AcceptsTime decimalClock (some 0) 1767225600 cmos' ∧
    syscallTime cmos' = some 1767225600 := by
  have set : ∃ cmos', AcceptsTime decimalClock (some 0) 1767225600 cmos' := ⟨_, rfl⟩
  obtain ⟨cmos', accepted⟩ := set
  exact ⟨cmos', accepted, (clock_iff (by decide) accepted).mpr (by decide)⟩

/-- The first second of 1970 is taken, and 2070 is read. -/
theorem not_clock : ¬ ∀ e < 4294967296, ∀ cmos euid cmos', AcceptsTime cmos euid e cmos' →
    syscallTime cmos' = some e := by
  intro always
  have accepted : ∃ cmos', AcceptsTime decimalClock (some 0) 0 cmos' := ⟨_, rfl⟩
  obtain ⟨cmos', accepted⟩ := accepted
  have read := always 0 (by decide) _ _ _ accepted
  rw [time_after_set (by decide) accepted, Option.some_inj, twoDigit_iff (by decide)] at read
  exact absurd read (by decide)

end M4KK1.Kernel
