import Mathlib.Tactic.IntervalCases

/-!
# Calendar arithmetic

Days are counted in three places: `days_from_civil` (`kernel/time.c`) for the clock, `unix_to_civil`
(`shell/builtins.c`) for `stat` and `ls`, and the loops of `fat_datetime_to_unix` (`fs/fat16.c`). Numbers are integers, and
`u32` and `i32` are the conversions of C. Every day is the `doy`-th of a year that begins in March (`Day`); on
such days the two algorithms are inverse because each undoes `Day.number`.
-/
namespace PureUnix.Kernel.Calendar

def u32 (z : Int) : Int := z % 4294967296
def i32 (z : Int) : Int := (z + 2147483648) % 4294967296 - 2147483648

def daysFromCivil (y m d : Int) : Int :=
  let y := i32 (y - if m ≤ 2 then 1 else 0)
  let era := Int.tdiv (if 0 ≤ y then y else i32 (y - 399)) 400
  let yoe := u32 (y - era * 400)
  let doy := u32 (u32 (153 * (m + if 2 < m then -3 else 9) + 2) / 5 + d - 1)
  let doe := u32 (yoe * 365 + yoe / 4 - yoe / 100 + doy)
  i32 (era * 146097 + doe - 719468)

structure Civil where
  year : Int
  mon : Int
  day : Int
  hour : Int
  min : Int
  sec : Int
deriving DecidableEq

def bcdToBin (v : Int) : Int := v / 16 * 10 + v % 16

/-- The value `time_now` computes from its six fields. -/
def Civil.epoch (c : Civil) : Int :=
  u32 (u32 (daysFromCivil c.year c.mon c.day) * 86400 + c.hour * 3600 + c.min * 60 + c.sec)

/-- `time_now`, from the registers of the clock. -/
def timeNow (cmosRead : Nat → UInt8) : Int :=
  let read (reg : Nat) : Int :=
    if (cmosRead 0x0B).toNat / 4 % 2 = 1 then (cmosRead reg).toNat else bcdToBin (cmosRead reg).toNat
  Civil.epoch ⟨2000 + read 9, read 8, read 7, read 4, read 2, read 0⟩

def unixToCivil (epoch : Int) : Civil :=
  let days := epoch / 86400
  let rem := epoch % 86400
  let z := u32 (days + 719468)
  let era := z / 146097
  let doe := u32 (z - era * 146097)
  let yoe := u32 (doe - doe / 1460 + doe / 36524 - doe / 146096) / 365
  let doy := u32 (doe - (365 * yoe + yoe / 4 - yoe / 100))
  let mp := u32 (5 * doy + 2) / 153
  let mon := u32 (mp + if mp < 10 then 3 else 4294967287)
  { year := u32 (era * 400 + yoe + if mon ≤ 2 then 1 else 0)
    mon
    day := u32 (doy - u32 (153 * mp + 2) / 5 + 1)
    hour := rem / 3600
    min := rem % 3600 / 60
    sec := rem % 3600 % 60 }

def isLeapYear (year : Int) : Bool := (year % 4 = 0 && year % 100 ≠ 0) || year % 400 = 0

/-- `days_in_month`; nothing where the table is read outside its 12 entries. -/
def daysInMonth (year month : Int) : Option Int :=
  if month = 2 ∧ isLeapYear year then some 29
  else [31, 28, 31, 30, 31, 30, 31, 31, 30, 31, 30, 31][(month - 1).toNat]?

/-- A date of the Gregorian calendar and a time of day. -/
structure Civil.Valid (c : Civil) : Prop where
  mon : 1 ≤ c.mon ∧ c.mon ≤ 12
  day : 1 ≤ c.day ∧ ∃ n ∈ daysInMonth c.year c.mon, c.day ≤ n
  hour : 0 ≤ c.hour ∧ c.hour < 24
  min : 0 ≤ c.min ∧ c.min < 60
  sec : 0 ≤ c.sec ∧ c.sec < 60

/-! ### Years that begin in March -/

/-- Day `doy` of the year `y` that begins in March, counted from the first day of year 0. -/
def marchDay (y doy : Int) : Int := 365 * y + y / 4 - y / 100 + y / 400 + doy

/-- The year ends with February. -/
structure InYear (y doy : Int) : Prop where
  year : 0 ≤ y
  day : 0 ≤ doy ∧ doy ≤ 365
  leap : doy = 365 → isLeapYear (y + 1) = true

variable {y doy z : Int}

theorem isLeapYear_iff : isLeapYear y = true ↔ (y % 4 = 0 ∧ y % 100 ≠ 0) ∨ y % 400 = 0 := by
  simp [isLeapYear]

theorem marchDay_succ (y : Int) : marchDay (y + 1) 0 = marchDay y 365 + if isLeapYear (y + 1) then 1 else 0 := by
  have h4 : (y + 1) / 4 = y / 4 + if (y + 1) % 4 = 0 then 1 else 0 := by split <;> omega
  have h100 : (y + 1) / 100 = y / 100 + if (y + 1) % 100 = 0 then 1 else 0 := by split <;> omega
  have h400 : (y + 1) / 400 = y / 400 + if (y + 1) % 400 = 0 then 1 else 0 := by split <;> omega
  simp only [marchDay, h4, h100, h400, isLeapYear_iff]
  split_ifs <;> omega

theorem exists_inYear (n : Nat) : ∃ y doy, InYear y doy ∧ marchDay y doy = n := by
  induction n with
  | zero => exact ⟨0, 0, ⟨by omega, by omega, by omega⟩, rfl⟩
  | succ n ih =>
    obtain ⟨y, doy, ⟨hy, hd, hl⟩, hn⟩ := ih
    have hs := marchDay_succ y
    by_cases hlast : doy < 364 ∨ (doy = 364 ∧ isLeapYear (y + 1) = true)
    · refine ⟨y, doy + 1, ⟨hy, by omega, fun h => ?_⟩, by simp only [marchDay] at hn ⊢; omega⟩
      exact (hlast.resolve_left (by omega)).2
    refine ⟨y + 1, 0, ⟨by omega, by omega, by omega⟩, ?_⟩
    rw [hs]
    simp only [marchDay] at hn ⊢
    cases h : isLeapYear (y + 1) <;> simp [h] at hlast hl ⊢ <;> omega

/-- The year of the era, from the day of the era. -/
theorem yoe_eq {yoe doe : Int} (h1 : yoe < 400) (h : InYear yoe doy)
    (hd : doe = 365 * yoe + yoe / 4 - yoe / 100 + doy) :
    (doe - doe / 1460 + doe / 36524 - doe / 146096) / 365 = yoe := by
  obtain ⟨h0, hdoy, hl⟩ := h
  rw [isLeapYear_iff] at hl
  obtain ⟨c, q, t, hy⟩ : ∃ c q t, yoe = 100 * c + 4 * q + t ∧ (0 ≤ c ∧ c < 4) ∧ (0 ≤ q ∧ q < 25) ∧ 0 ≤ t ∧ t < 4 :=
    ⟨yoe / 100, yoe % 100 / 4, yoe % 4, by omega⟩
  replace hd : doe = 36524 * c + 1461 * q + 365 * t + doy := by omega
  have hc : doe / 36524 - doe / 146096 = c := by
    by_cases he : doe = 146096
    · omega
    · have : doe < 36524 * c + 36524 := by omega
      omega
  have hq : doe / 1460 = 25 * c + q + if 1460 ≤ 24 * c + q + 365 * t + doy then 1 else 0 := by split <;> omega
  split at hq <;> omega

/-! ### Dates -/

theorem u32_of (h0 : 0 ≤ z) (h1 : z < 4294967296) : u32 z = z := Int.emod_eq_of_lt h0 h1

theorem i32_of (h0 : -2147483648 ≤ z) (h1 : z < 2147483648) : i32 z = z := by
  unfold i32
  omega

theorem marchDay_era (y doy : Int) : marchDay y doy = y / 400 * 146097 + (y % 400 * 365 + y % 400 / 4 - y % 400 / 100 + doy) := by
  have h4 : y / 4 = y / 400 * 100 + y % 400 / 4 := by omega
  have h100 : y / 100 = y / 400 * 4 + y % 400 / 100 := by omega
  rw [marchDay]
  omega

/-- The date of a day, as `unix_to_civil` computes it. -/
def dateOf (y doy : Int) : Int × Int × Int :=
  let mp := (5 * doy + 2) / 153
  (y + if mp < 10 then 0 else 1, mp + if mp < 10 then 3 else -9, doy - (153 * mp + 2) / 5 + 1)

theorem daysFromCivil_dateOf (h : InYear y doy) (hy : y < 5000000) :
    daysFromCivil (dateOf y doy).1 (dateOf y doy).2.1 (dateOf y doy).2.2 = marchDay y doy - 719468 := by
  obtain ⟨h0, hd, -⟩ := h
  obtain ⟨mp, hmp⟩ : ∃ mp, mp = (5 * doy + 2) / 153 := ⟨_, rfl⟩
  have e1 : i32 (y + (if mp < 10 then 0 else 1) - if mp + (if mp < 10 then 3 else -9) ≤ 2 then 1 else 0) = y := by
    split <;> split <;> rw [i32_of] <;> omega
  have e2 : mp + (if mp < 10 then 3 else -9) + (if 2 < mp + (if mp < 10 then 3 else -9) then -3 else 9) = mp := by
    split <;> split <;> omega
  have e3 : (153 * mp + 2) / 5 + (doy - (153 * mp + 2) / 5 + 1) - 1 = doy := by omega
  have e4 : y - y / 400 * 400 = y % 400 := by omega
  simp only [dateOf, daysFromCivil, ← hmp, e1, e2, if_pos h0, Int.tdiv_eq_ediv_of_nonneg h0, e4]
  rw [u32_of (z := 153 * mp + 2) (by omega) (by omega), e3, u32_of (z := doy) (by omega) (by omega),
    u32_of (z := y % 400) (by omega) (by omega), u32_of (by omega) (by omega), i32_of (by omega) (by omega), marchDay_era]

theorem dateOf_valid (h : InYear y doy) : (1 ≤ (dateOf y doy).2.1 ∧ (dateOf y doy).2.1 ≤ 12) ∧ 1 ≤ (dateOf y doy).2.2 ∧
    ∃ n ∈ daysInMonth (dateOf y doy).1 (dateOf y doy).2.1, (dateOf y doy).2.2 ≤ n := by
  obtain ⟨h0, hd, hl⟩ := h
  obtain ⟨mp, hmp⟩ : ∃ mp, mp = (5 * doy + 2) / 153 := ⟨_, rfl⟩
  have m0 : 0 ≤ mp := by omega
  have m1 : mp < 12 := by omega
  simp only [dateOf, ← hmp]
  cases hleap : isLeapYear (y + 1) <;> interval_cases mp <;> simp [daysInMonth, hleap] at hl ⊢ <;> omega

/-- The year of a date if it began in March, and the day in it. -/
def Civil.marchYear (c : Civil) : Int := c.year - if c.mon ≤ 2 then 1 else 0
def Civil.marchDoy (c : Civil) : Int := (153 * (c.mon + if c.mon ≤ 2 then 9 else -3) + 2) / 5 + c.day - 1

theorem Civil.Valid.dateOf_eq {c : Civil} (h : c.Valid) (h0 : 1 ≤ c.year) :
    InYear c.marchYear c.marchDoy ∧ dateOf c.marchYear c.marchDoy = (c.year, c.mon, c.day) := by
  obtain ⟨year, mon, day, _, _, _⟩ := c
  obtain ⟨⟨m0, m1⟩, ⟨hd, n, hn, hle⟩, -⟩ := h
  obtain ⟨mp, hmp⟩ : ∃ mp, mp = mon + if mon ≤ 2 then 9 else -3 := ⟨_, rfl⟩
  dsimp only at *
  have hlen : (mp < 11 → day ≤ (153 * mp + 155) / 5 - (153 * mp + 2) / 5) ∧
      (mp = 11 → day ≤ 29 ∧ (day = 29 → isLeapYear year = true)) := by
    cases hleap : isLeapYear year <;> interval_cases mon <;> simp [daysInMonth, hleap] at hn hmp <;> subst hn hmp <;> simp <;> omega
  have hdoy : (5 * ((153 * mp + 2) / 5 + day - 1) + 2) / 153 = mp := by split at hmp <;> omega
  simp only [Civil.marchYear, Civil.marchDoy, ← hmp, dateOf, hdoy, Prod.mk.injEq]
  by_cases hm : mon ≤ 2
  · rw [if_pos hm] at hmp ⊢
    refine ⟨⟨by omega, by omega, fun h => ?_⟩, by split <;> omega⟩
    rw [Int.sub_add_cancel]
    exact (hlen.2 (by omega)).2 (by omega)
  · exact ⟨⟨by omega, by omega, by omega⟩, by split <;> omega⟩

/-- What `unix_to_civil` finds on a day. -/
theorem unixToCivil_eq {e : Int} (h0 : 0 ≤ e) (h1 : e < 4294967296) (h : InYear y doy) (hz : e / 86400 + 719468 = marchDay y doy) :
    unixToCivil e = ⟨(dateOf y doy).1, (dateOf y doy).2.1, (dateOf y doy).2.2,
      e % 86400 / 3600, e % 86400 % 3600 / 60, e % 86400 % 3600 % 60⟩ := by
  have hera := marchDay_era y doy
  obtain ⟨hy, hd, hl⟩ := h
  have hin : InYear (y % 400) doy := by
    refine ⟨by omega, hd, fun h => ?_⟩
    have := hl h
    rw [isLeapYear_iff] at this ⊢
    omega
  have hyoe := yoe_eq (by omega) hin rfl
  obtain ⟨doe, hdoe⟩ : ∃ doe, doe = 365 * (y % 400) + y % 400 / 4 - y % 400 / 100 + doy := ⟨_, rfl⟩
  rw [← hdoe] at hyoe
  have e0 : u32 (e / 86400 + 719468) = y / 400 * 146097 + doe := by rw [u32_of] <;> omega
  have e1 : (y / 400 * 146097 + doe) / 146097 = y / 400 := by omega
  have e2 : u32 (y / 400 * 146097 + doe - y / 400 * 146097) = doe := by rw [u32_of] <;> omega
  have e3 : u32 (doe - doe / 1460 + doe / 36524 - doe / 146096) = doe - doe / 1460 + doe / 36524 - doe / 146096 := by
    rw [u32_of] <;> omega
  have e4 : u32 (doe - (365 * (y % 400) + y % 400 / 4 - y % 400 / 100)) = doy := by rw [u32_of] <;> omega
  have e5 : u32 (5 * doy + 2) = 5 * doy + 2 := by rw [u32_of] <;> omega
  obtain ⟨mp, hmp⟩ : ∃ mp, mp = (5 * doy + 2) / 153 := ⟨_, rfl⟩
  have e6 : u32 (mp + if mp < 10 then 3 else 4294967287) = mp + if mp < 10 then 3 else -9 := by
    unfold u32
    split <;> omega
  have e7 : u32 (y / 400 * 400 + y % 400 + if mp + (if mp < 10 then 3 else -9) ≤ 2 then 1 else 0) = y + if mp < 10 then 0 else 1 := by
    split <;> split <;> rw [u32_of] <;> omega
  have e8 : u32 (doy - u32 (153 * mp + 2) / 5 + 1) = doy - (153 * mp + 2) / 5 + 1 := by
    rw [u32_of (z := 153 * mp + 2), u32_of] <;> omega
  simp only [unixToCivil, dateOf, e0, e1, e2, e3, hyoe, e4, e5, ← hmp, e6, e7, e8]

/-- Seconds since 1970. -/
def Civil.seconds (c : Civil) : Int :=
  (marchDay c.marchYear c.marchDoy - 719468) * 86400 + c.hour * 3600 + c.min * 60 + c.sec

/-- **The conversions are inverse.** -/
theorem calendar_inverse : (∀ e, 0 ≤ e → e < 4294967296 → (unixToCivil e).Valid ∧
      daysFromCivil (unixToCivil e).year (unixToCivil e).mon (unixToCivil e).day * 86400 + (unixToCivil e).hour * 3600 +
        (unixToCivil e).min * 60 + (unixToCivil e).sec = e) ∧
    ∀ c : Civil, c.Valid → 1970 ≤ c.year → c.seconds < 4294967296 → unixToCivil c.epoch = c := by
  refine ⟨fun e h0 h1 => ?_, fun c hc hy hs => ?_⟩
  · obtain ⟨y, doy, h, hz⟩ := exists_inYear (e / 86400 + 719468).toNat
    have hz : e / 86400 + 719468 = marchDay y doy := by omega
    have hlt : y < 5000000 := by
      rw [marchDay] at hz
      have := h.day
      omega
    have hv := dateOf_valid h
    rw [unixToCivil_eq h0 h1 h hz]
    refine ⟨⟨hv.1, hv.2, ?_, ?_, ?_⟩, ?_⟩
    · dsimp only; omega
    · dsimp only; omega
    · dsimp only; omega
    · dsimp only
      rw [daysFromCivil_dateOf h hlt]
      omega
  · obtain ⟨h, hd⟩ := hc.dateOf_eq (by omega)
    have hdays : 719468 ≤ marchDay c.marchYear c.marchDoy := by
      have := hc.mon
      have := hc.day.1
      unfold marchDay Civil.marchYear Civil.marchDoy
      split <;> omega
    have hlt : c.marchYear < 5000000 := by
      have := h.day
      have := h.year
      have := hc.hour
      have := hc.min
      have := hc.sec
      unfold Civil.seconds marchDay at hs
      omega
    obtain ⟨-, -, h24, h60, h60'⟩ := hc
    have he : c.epoch = c.seconds := by
      have hn := daysFromCivil_dateOf h hlt
      rw [hd] at hn
      unfold Civil.seconds at hs ⊢
      rw [Civil.epoch, hn, u32_of (z := marchDay _ _ - _) (by omega) (by omega), u32_of (by omega) (by omega)]
    unfold Civil.seconds at he hs
    rw [he, unixToCivil_eq (by omega) hs h (by omega), hd]
    obtain ⟨year, mon, day, hour, min, sec⟩ := c
    dsimp only at *
    simp only [Civil.mk.injEq, true_and]
    omega

/-- 29 February 2024, 12:34:56. -/
theorem calendar_inverse_leap : unixToCivil (Civil.epoch ⟨2024, 2, 29, 12, 34, 56⟩) = ⟨2024, 2, 29, 12, 34, 56⟩ :=
  calendar_inverse.2 _ ⟨by decide, ⟨by decide, 29, rfl, by decide⟩, by decide, by decide, by decide⟩ (by decide) (by decide)

/-! ### FAT timestamps -/

/-- The days of the months before `month`, as far as the table goes. -/
def daysBefore (year : Int) : Nat → Option Int
  | 0 => some 0
  | m + 1 => do
    let days ← daysBefore year m
    let n ← daysInMonth year (m + 1)
    pure (days + n)

/-- The days of the years before `1970 + n`. -/
def yearDays : Nat → Int
  | 0 => 0
  | n + 1 => yearDays n + if isLeapYear (1970 + n) then 366 else 365

/-- The fields of a date and a time word. -/
def fatFields (date time : UInt16) : Civil :=
  let d := date.toNat
  let t := time.toNat
  ⟨1980 + d / 512, d / 32 % 16, d % 32, t / 2048 % 32, t / 32 % 64, t % 32 * 2⟩

/-- `fat_datetime_to_unix`; nothing where the table of months is read outside its 12 entries. -/
def fatDatetimeToUnix (date time : UInt16) : Option Int :=
  if date = 0 then some 0
  else do
    let c := fatFields date time
    let before ← daysBefore c.year (max c.mon 1 - 1).toNat
    let days := yearDays (c.year - 1970).toNat + before + (max c.day 1 - 1)
    pure (u32 (u32 days * 86400 + c.hour * 3600 + c.min * 60 + c.sec))

theorem marchDay_add (y doy : Int) : marchDay y doy = marchDay y 0 + doy := by simp [marchDay]

theorem yearDays_eq (n : Nat) : yearDays n = marchDay (1969 + n) 306 - 719468 := by
  induction n with
  | zero => rfl
  | succ n ih =>
    have hs := marchDay_succ (1969 + n)
    rw [show (1969 : Int) + n + 1 = 1970 + n by omega, marchDay_add _ 365] at hs
    rw [yearDays, ih, show ((1969 : Int) + (n + 1 : Nat)) = 1970 + n by omega, marchDay_add, marchDay_add (1970 + n), hs]
    split <;> omega

theorem daysBefore_isSome (year : Int) {m : Nat} (hm : m ≤ 14) : (daysBefore year m).isSome ↔ m ≤ 12 := by
  cases hleap : isLeapYear year <;> interval_cases m <;> simp [daysBefore, daysInMonth, hleap]

theorem daysBefore_eq {c : Civil} (h : 1 ≤ c.mon ∧ c.mon ≤ 12) : daysBefore c.year (c.mon - 1).toNat =
    some (marchDay c.marchYear c.marchDoy - marchDay (c.year - 1) 306 - (c.day - 1)) := by
  have hs := marchDay_succ (c.year - 1)
  obtain ⟨year, mon, day, _, _, _⟩ := c
  rw [marchDay_add _ 365] at hs
  obtain ⟨m0, m1⟩ := h
  rw [marchDay_add, marchDay_add _ 306]
  cases hleap : isLeapYear year <;> interval_cases mon <;>
    simp [daysBefore, daysInMonth, hleap, Civil.marchYear, Civil.marchDoy] at hs ⊢ <;> omega

/-- **FAT timestamps.** The table of months is read inside its entries up to month 13; what the words of a valid date and time give
is what the clock's algorithm gives. -/
theorem fat_datetime_iff (date time : UInt16) : ((fatDatetimeToUnix date time).isSome ∧ ((fatFields date time).Valid →
      fatDatetimeToUnix date time = some ((fatFields date time).epoch))) ↔ date = 0 ∨ date.toNat / 32 % 16 ≤ 13 := by
  obtain ⟨c, hc⟩ : ∃ c, fatFields date time = c := ⟨_, rfl⟩
  have hmon : c.mon = date.toNat / 32 % 16 := hc ▸ rfl
  rw [hc]
  by_cases h0 : date = 0
  · subst h0
    exact iff_of_true ⟨rfl, fun h => absurd h.mon.1 (by rw [hmon]; decide)⟩ (.inl rfl)
  have hsome := daysBefore_isSome c.year (m := (max c.mon 1 - 1).toNat) (by omega)
  have hfat : (fatDatetimeToUnix date time).isSome = (daysBefore c.year (max c.mon 1 - 1).toNat).isSome := by
    simp only [fatDatetimeToUnix, if_neg h0, hc]
    cases daysBefore c.year (max c.mon 1 - 1).toNat <;> rfl
  rw [hfat, hsome, or_iff_right h0]
  refine ⟨fun h => by omega, fun h => ⟨by omega, fun hv => ?_⟩⟩
  have hyear : 1980 ≤ c.year ∧ c.year < 2108 := by
    have := date.toNat_lt
    simp only [← hc, fatFields]
    omega
  obtain ⟨hin, hd⟩ := hv.dateOf_eq (by omega)
  have hn := daysFromCivil_dateOf hin (by unfold Civil.marchYear; split <;> omega)
  have hm := hv.mon
  rw [hd] at hn
  rw [fatDatetimeToUnix, if_neg h0, Civil.epoch, hn]
  simp only [hc, max_eq_left hm.1, max_eq_left hv.day.1, daysBefore_eq hm, yearDays_eq]
  rw [show (1969) + (c.year - 1970).toNat = c.year - 1 by omega]
  refine congrArg (fun n => some (u32 (u32 n * 86400 + _ + _ + _))) ?_
  omega

/-- Month 14 of 1980: the thirteenth entry of the table is asked for. -/
theorem fat_datetime_overrun : fatDatetimeToUnix 449 0 = none := by decide

end PureUnix.Kernel.Calendar
