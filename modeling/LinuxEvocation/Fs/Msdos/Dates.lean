import Mathlib.Tactic

/-!
# Dates

MS-DOS has a date and a time of 16 bits each, from 1980 on and with two seconds as the unit; Unix
counts seconds from 1970 on.  `date_dos2unix` and `date_unix2dos` convert from one to the other, with
the first days of the months in a table, and the leap days counted by a division by 4.

* `dateDos2unix`, `dateUnix2dos` — the functions.
* `yearLength`, `monthLength`, `dayNumber`, `localTime` — the calendar.
* `Valid` — dates and times that there are.
* `dates_convert` — they go back and forth.
-/

namespace LinuxEvocation.Msdos.Dates

/-! ## The functions -/

/-- A value of type `int`. -/
def int32 (x : Int) : Int := x.bmod (2 ^ 32)

/-- `day_n`. -/
def dayN (month : Nat) : Nat :=
  [0, 31, 59, 90, 120, 151, 181, 212, 243, 273, 304, 334, 0, 0, 0, 0].getD month 0

/-- `date_dos2unix`, west of Greenwich by `tz` minutes. -/
def dateDos2unix (tz : Int) (time date : BitVec 16) : Int :=
  let time := time.toNat
  let date := date.toNat
  let month := ((date >>> 5) &&& 15) - 1
  let year := date >>> 9
  let secs : Int := ((time &&& 31 : Nat) : Int) * 2 + 60 * (((time >>> 5) &&& 63 : Nat) : Int) +
    ((time >>> 11 : Nat) : Int) * 3600 +
    86400 * (((date &&& 31 : Nat) : Int) - 1 + (dayN month : Int) + ((year / 4 : Nat) : Int) +
      (year : Int) * 365 - (if year &&& 3 = 0 ∧ month < 2 then 1 else 0) + 3653)
  int32 (secs + tz * 60)

/-- The loop over the months. -/
def firstMonth (nlDay : Int) : Nat :=
  ((List.range 12).find? fun month => (dayN month : Int) > nlDay).getD 12

/-- The month, counted from 1, and the day of a year without leap day that has the table entries of
the given day. -/
def monthOf (year day : Int) : Nat × Int :=
  if day = 59 ∧ year % 4 = 0 then (2, day)
  else
    let nlDay := if year % 4 ≠ 0 ∨ day ≤ 59 then day else day - 1
    (firstMonth nlDay, nlDay)

/-- `date_unix2dos`: the time, and the date. -/
def dateUnix2dos (tz unixDate : Int) : BitVec 16 × BitVec 16 :=
  let unixDate := int32 (unixDate - tz * 60)
  let time := (unixDate.tmod 60).tdiv 2 + ((unixDate.tdiv 60).tmod 60) * 2 ^ 5 +
    ((unixDate.tdiv 3600).tmod 24) * 2 ^ 11
  let day := unixDate.tdiv 86400 - 3652
  let year := day.tdiv 365
  let year := if (year + 3).tdiv 4 + 365 * year > day then year - 1 else year
  let day := day - ((year + 3).tdiv 4 + 365 * year)
  let (month, nlDay) := monthOf year day
  (BitVec.ofInt 16 time,
    BitVec.ofInt 16 (nlDay - dayN (month - 1) + 1 + month * 2 ^ 5 + year * 2 ^ 9))

/-! ## The calendar -/

def IsLeap (year : Nat) : Prop := year % 4 = 0 ∧ (year % 100 ≠ 0 ∨ year % 400 = 0)

instance (year : Nat) : Decidable (IsLeap year) := inferInstanceAs (Decidable (_ ∧ _))

def yearLength (year : Nat) : Nat := if IsLeap year then 366 else 365

/-- The length of a month, the first of which is 1. -/
def monthLength (year month : Nat) : Nat :=
  if month = 2 then if IsLeap year then 29 else 28
  else if month = 4 ∨ month = 6 ∨ month = 9 ∨ month = 11 then 30
  else 31

/-- The number of days from 1970-01-01 to a date. -/
def dayNumber (year month day : Nat) : Nat :=
  ∑ i ∈ Finset.range (year - 1970), yearLength (1970 + i) +
    ∑ i ∈ Finset.range (month - 1), monthLength year (i + 1) + (day - 1)

/-! The fields of a date and a time. -/

def dosYear (date : BitVec 16) : Nat := 1980 + date.toNat / 512
def dosMonth (date : BitVec 16) : Nat := date.toNat / 32 % 16
def dosDay (date : BitVec 16) : Nat := date.toNat % 32
def dosHour (time : BitVec 16) : Nat := time.toNat / 2048
def dosMinute (time : BitVec 16) : Nat := time.toNat / 32 % 64
def dosSecond (time : BitVec 16) : Nat := time.toNat % 32 * 2

/-- A date of the calendar, and a time of the day. -/
structure Valid (time date : BitVec 16) : Prop where
  month_pos : 1 ≤ dosMonth date
  month_le : dosMonth date ≤ 12
  day_pos : 1 ≤ dosDay date
  day_le : dosDay date ≤ monthLength (dosYear date) (dosMonth date)
  hour_lt : dosHour time < 24
  minute_lt : dosMinute time < 60
  second_lt : dosSecond time < 60

/-- The seconds from the beginning of 1970 to a date and time. -/
def localTime (time date : BitVec 16) : Nat :=
  86400 * dayNumber (dosYear date) (dosMonth date) (dosDay date) + 3600 * dosHour time +
    60 * dosMinute time + dosSecond time

section Proofs

variable {y m d r s : Nat} {time date : BitVec 16}

/-! ## Years and months -/

/-- Up to 2099, every fourth year is a leap year. -/
theorem isLeap_iff (h : y < 120) : IsLeap (1980 + y) ↔ y % 4 = 0 := by
  unfold IsLeap
  omega

theorem sum_years (h : y ≤ 120) :
    ∑ i ∈ Finset.range (1980 + y - 1970), yearLength (1970 + i) = 3652 + 365 * y + (y + 3) / 4 := by
  induction y with
  | zero => decide
  | succ y ih =>
    have hleap := isLeap_iff (y := y) (by omega)
    rw [show 1980 + (y + 1) - 1970 = 1980 + y - 1970 + 1 by omega, Finset.sum_range_succ,
      ih (by omega), show 1970 + (1980 + y - 1970) = 1980 + y by omega, yearLength]
    by_cases hy : y % 4 = 0
    · rw [if_pos (hleap.mpr hy)]
      omega
    · rw [if_neg (mt hleap.mp hy)]
      omega

/-- The days of the months before one, from the table. -/
theorem sum_months (year : Nat) (hpos : 1 ≤ m) (hle : m ≤ 12) :
    ∑ i ∈ Finset.range (m - 1), monthLength year (i + 1) =
      dayN (m - 1) + if IsLeap year ∧ 2 < m then 1 else 0 := by
  have hmonth (i : Nat) : monthLength year (i + 1) =
      monthLength 1981 (i + 1) + if IsLeap year ∧ i = 1 then 1 else 0 := by
    have h1981 : ¬ IsLeap 1981 := by decide
    unfold monthLength
    by_cases hi : i = 1
    · subst hi
      by_cases hleap : IsLeap year <;> simp [hleap, h1981]
    · simp [hi]
  have htable : ∀ k < 12, ∑ i ∈ Finset.range k, monthLength 1981 (i + 1) = dayN k := by decide
  simp only [hmonth]
  rw [Finset.sum_add_distrib, htable (m - 1) (by omega)]
  congr 1
  by_cases hleap : IsLeap year
  · simp only [hleap, true_and]
    rw [Finset.sum_ite_eq']
    simp only [Finset.mem_range]
    split_ifs <;> omega
  · simp [hleap]

/-- The month of a day of a year without leap day. -/
theorem firstMonth_spec (h : r < 365) :
    1 ≤ firstMonth r ∧ firstMonth r ≤ 12 ∧ dayN (firstMonth r - 1) ≤ r ∧
      r < dayN (firstMonth r - 1) + monthLength 1981 (firstMonth r) ∧
      (r < 59 ↔ firstMonth r ≤ 2) := by
  have htable : ∀ r : Nat, r < 365 → 1 ≤ firstMonth r ∧ firstMonth r ≤ 12 ∧
      dayN (firstMonth r - 1) ≤ r ∧
      r < dayN (firstMonth r - 1) + monthLength 1981 (firstMonth r) ∧
      (r < 59 ↔ firstMonth r ≤ 2) := by decide +kernel
  exact htable r h

/-- It is the month that the day was taken from. -/
theorem firstMonth_dayN (hpos : 1 ≤ m) (hle : m ≤ 12) (hd : d < monthLength 1981 m) :
    firstMonth ((dayN (m - 1) + d : Nat) : Int) = m := by
  have htable : ∀ m ≤ 12, 1 ≤ m → ∀ d < monthLength 1981 m,
      firstMonth ((dayN (m - 1) + d : Nat) : Int) = m := by decide +kernel
  exact htable m hle hpos d hd

/-- A day of the table, for the days of a year with a leap day. -/
def leapDays (y m : Nat) : Nat := if y % 4 = 0 ∧ 2 < m then 1 else 0

theorem monthLength_eq (h : y < 120) :
    monthLength (1980 + y) m = monthLength 1981 m + if y % 4 = 0 ∧ m = 2 then 1 else 0 := by
  have hleap := isLeap_iff h
  have h1981 : ¬ IsLeap 1981 := by decide
  unfold monthLength
  by_cases hm : m = 2
  · by_cases hy : y % 4 = 0
    · simp [hm, hy, hleap.mpr hy, h1981]
    · simp [hm, hy, mt hleap.mp hy, h1981]
  · simp [hm]

theorem dayNumber_eq (hy : y < 120) (hpos : 1 ≤ m) (hle : m ≤ 12) :
    dayNumber (1980 + y) m d =
      3652 + 365 * y + (y + 3) / 4 + (dayN (m - 1) + leapDays y m + (d - 1)) := by
  have hleap := isLeap_iff hy
  rw [dayNumber, sum_years (by omega), sum_months _ hpos hle, leapDays]
  simp only [hleap]
  omega

/-! ## The conversion to Unix -/

/-- The seconds that `date_dos2unix` computes are those of the calendar. -/
theorem dos2unix_spec (tz : Int) (hyear : dosYear date < 2100) (hpos : 1 ≤ dosMonth date)
    (hle : dosMonth date ≤ 12) (hday : 1 ≤ dosDay date) :
    dateDos2unix tz time date = int32 (localTime time date + tz * 60) := by
  have hsecond (x : Nat) : x &&& 31 = x % 32 := Nat.and_two_pow_sub_one_eq_mod x 5
  have hminute (x : Nat) : x &&& 63 = x % 64 := Nat.and_two_pow_sub_one_eq_mod x 6
  have hmonth (x : Nat) : x &&& 15 = x % 16 := Nat.and_two_pow_sub_one_eq_mod x 4
  have hfour (x : Nat) : x &&& 3 = x % 4 := Nat.and_two_pow_sub_one_eq_mod x 2
  have hyear' : date.toNat / 512 < 120 := by
    rw [dosYear] at hyear
    omega
  have hnumber : dayNumber (dosYear date) (dosMonth date) (dosDay date) =
      3652 + 365 * (date.toNat / 512) + (date.toNat / 512 + 3) / 4 +
        (dayN (dosMonth date - 1) + leapDays (date.toNat / 512) (dosMonth date) +
          (dosDay date - 1)) := dayNumber_eq hyear' hpos hle
  rw [localTime, hnumber, dateDos2unix]
  simp only [Nat.shiftRight_eq_div_pow, hsecond, hminute, hmonth, hfour]
  unfold dosHour dosMinute dosSecond leapDays
  unfold dosMonth at hpos hle ⊢
  unfold dosDay at hday ⊢
  congr 1
  generalize dayN (date.toNat / 32 % 16 - 1) = n
  norm_num only at *
  push_cast
  split_ifs <;> omega

/-! ## The conversion from Unix -/

/-- The year that `date_unix2dos` computes is the one the day is in. -/
theorem split_year {day : Nat} (hlow : 365 * y + (y + 3) / 4 ≤ day)
    (hhigh : day < 365 * (y + 1) + (y + 4) / 4) (hy : y < 120) :
    (if ((((day : Nat) : Int).tdiv 365) + 3).tdiv 4 + 365 * ((day : Nat) : Int).tdiv 365 > day then
      ((day : Nat) : Int).tdiv 365 - 1 else ((day : Nat) : Int).tdiv 365) = y := by
  have hdiv : ((day : Nat) : Int).tdiv 365 = ((day / 365 : Nat) : Int) := rfl
  rw [hdiv, Int.tdiv_eq_ediv_of_nonneg (by omega)]
  split_ifs <;> omega

theorem exists_year {day : Nat} (h : day ≤ 21203) :
    ∃ y < 120, 365 * y + (y + 3) / 4 ≤ day ∧ day < 365 * (y + 1) + (y + 4) / 4 := by
  by_cases hleap : 365 * (day / 365) + (day / 365 + 3) / 4 ≤ day
  · exact ⟨day / 365, by omega, hleap, by omega⟩
  · exact ⟨day / 365 - 1, by omega, by omega, by omega⟩

/-- The month and the day that it computes are those of the day of the year. -/
theorem monthOf_eq (hy : y < 120) (hpos : 1 ≤ m) (hle : m ≤ 12) (hd : 1 ≤ d)
    (hlen : d ≤ monthLength (1980 + y) m) :
    ∃ nl : Int, monthOf y ((dayN (m - 1) + leapDays y m + (d - 1) : Nat) : Int) = (m, nl) ∧
      nl - dayN (m - 1) + 1 = d := by
  rw [monthLength_eq hy] at hlen
  by_cases hleapDay : y % 4 = 0 ∧ m = 2 ∧ d = 29
  · obtain ⟨hleap, rfl, rfl⟩ := hleapDay
    have hzero : leapDays y 2 = 0 := if_neg fun h => absurd h.2 (lt_irrefl 2)
    refine ⟨59, ?_, by decide⟩
    rw [hzero, monthOf, if_pos]
    · rfl
    · exact ⟨rfl, by omega⟩
  · have hlt : d - 1 < monthLength 1981 m := by
      have h28 : m = 2 → monthLength 1981 m = 28 := by
        rintro rfl
        decide
      split at hlen
      next h =>
        have := h28 h.2
        omega
      next => omega
    have hall : ∀ m ≤ 12, 1 ≤ m → dayN (m - 1) + monthLength 1981 m ≤ 365 := by decide
    have hfirst := firstMonth_dayN hpos hle hlt
    have htable := firstMonth_spec (r := dayN (m - 1) + (d - 1)) (by
      have := hall m hle hpos
      omega)
    rw [hfirst] at htable
    have hmonths := htable.2.2.2.2
    refine ⟨((dayN (m - 1) + (d - 1) : Nat) : Int), ?_, by omega⟩
    by_cases hmoved : y % 4 = 0 ∧ 2 < m
    · -- the days of March and later are moved by the leap day
      have hone : leapDays y m = 1 := if_pos hmoved
      rw [hone, monthOf, if_neg (by omega), if_neg (by omega),
        show ((dayN (m - 1) + 1 + (d - 1) : Nat) : Int) - 1 = ((dayN (m - 1) + (d - 1) : Nat) : Int) by
          omega]
      simp only [hfirst]
    · have hzero : leapDays y m = 0 := if_neg hmoved
      rw [hzero, Nat.add_zero, monthOf, if_neg (by omega), if_pos (by omega)]
      simp only [hfirst]

theorem exists_month (hy : y < 120) (hr : 365 * y + (y + 3) / 4 + r < 365 * (y + 1) + (y + 4) / 4) :
    ∃ m d, 1 ≤ m ∧ m ≤ 12 ∧ 1 ≤ d ∧ d ≤ monthLength (1980 + y) m ∧
      r = dayN (m - 1) + leapDays y m + (d - 1) := by
  by_cases hleapDay : y % 4 = 0 ∧ r = 59
  · refine ⟨2, 29, by decide, by decide, by decide, ?_, ?_⟩
    · rw [monthLength_eq hy, if_pos ⟨hleapDay.1, rfl⟩]
      decide
    · rw [leapDays, if_neg fun h => absurd h.2 (lt_irrefl 2), hleapDay.2]
      decide
  · -- the day of a year without leap day that has its place in the table
    obtain ⟨k, hk, hr'⟩ : ∃ k < 365, r = k + if y % 4 = 0 ∧ 59 ≤ k then 1 else 0 := by
      by_cases hafter : y % 4 = 0 ∧ 59 < r
      · refine ⟨r - 1, by omega, ?_⟩
        rw [if_pos (by omega)]
        omega
      · refine ⟨r, by omega, ?_⟩
        rw [if_neg (by omega)]
        rfl
    obtain ⟨hpos, hle, hlow, hhigh, hmonths⟩ := firstMonth_spec hk
    refine ⟨firstMonth k, k - dayN (firstMonth k - 1) + 1, hpos, hle, by omega, ?_, ?_⟩
    · rw [monthLength_eq hy]
      omega
    · have hdays : leapDays y (firstMonth k) = if y % 4 = 0 ∧ 59 ≤ k then 1 else 0 := by
        rw [leapDays]
        congr 1
        rw [← not_lt, hmonths, not_le]
      rw [hdays, hr']
      omega

/-- What `date_unix2dos` makes of the seconds of a date and a time. -/
theorem dateUnix2dos_eq {tz t : Int} {hour minute two b : Nat} (hy : y < 120) (hpos : 1 ≤ m)
    (hle : m ≤ 12) (hd : 1 ≤ d) (hlen : d ≤ monthLength (1980 + y) m) (hhour : hour < 24)
    (hminute : minute < 60) (htwo : two < 30) (hb : b < 2)
    (hlocal : int32 (t - tz * 60) = ((86400 * dayNumber (1980 + y) m d + 3600 * hour + 60 * minute +
      2 * two + b : Nat) : Int)) :
    dateUnix2dos tz t =
      (BitVec.ofNat 16 (two + 32 * minute + 2048 * hour), BitVec.ofNat 16 (d + 32 * m + 512 * y)) := by
  have hnumber : dayNumber (1980 + y) m d = _ := dayNumber_eq hy hpos hle
  obtain ⟨nl, hmonth, hnl⟩ := monthOf_eq hy hpos hle hd hlen
  have hyear := monthLength_eq (m := m) hy
  have hr : dayN (m - 1) + leapDays y m + (d - 1) < 365 + if y % 4 = 0 then 1 else 0 := by
    have hall : ∀ m ≤ 12, 1 ≤ m → dayN (m - 1) + monthLength 1981 m ≤ 365 ∧
        (m ≤ 2 → dayN (m - 1) + monthLength 1981 m ≤ 59) := by decide
    have hend := hall m hle hpos
    rw [leapDays]
    split_ifs at hyear ⊢ <;> omega
  generalize dayN (m - 1) + leapDays y m + (d - 1) = r at hnumber hmonth hr
  have hhigh : 365 * y + (y + 3) / 4 + r < 365 * (y + 1) + (y + 4) / 4 := by
    split at hr <;> omega
  have hsplit := split_year (by omega) hhigh hy
  rw [dateUnix2dos, hlocal]
  generalize hL : 86400 * dayNumber (1980 + y) m d + 3600 * hour + 60 * minute + 2 * two + b = l
  have hday : ((l : Nat) : Int).tdiv 86400 - 3652 = ((365 * y + (y + 3) / 4 + r : Nat) : Int) := by
    rw [Int.tdiv_eq_ediv_of_nonneg (by omega)]
    omega
  have hrest : ((365 * y + (y + 3) / 4 + r : Nat) : Int) -
      (((y : Int) + 3).tdiv 4 + 365 * (y : Int)) = (r : Int) := by
    rw [Int.tdiv_eq_ediv_of_nonneg (by omega)]
    omega
  have htime : (((l : Nat) : Int).tmod 60).tdiv 2 + ((((l : Nat) : Int).tdiv 60).tmod 60) * 2 ^ 5 +
      ((((l : Nat) : Int).tdiv 3600).tmod 24) * 2 ^ 11 =
        ((two + 32 * minute + 2048 * hour : Nat) : Int) := by
    change ((l % 60 / 2 : Nat) : Int) + ((l / 60 % 60 : Nat) : Int) * 32 +
      ((l / 3600 % 24 : Nat) : Int) * 2048 = _
    omega
  simp only [hday, hsplit, hrest, hmonth, htime]
  rw [hnl, show (d : Int) + (m : Int) * 2 ^ 5 + (y : Int) * 2 ^ 9 =
    ((d + 32 * m + 512 * y : Nat) : Int) by omega, BitVec.ofInt_natCast, BitVec.ofInt_natCast]

/-! ## Both ways -/

theorem int32_eq {x : Int} (hlow : -2 ^ 31 ≤ x) (hhigh : x < 2 ^ 31) : int32 x = x := by
  rw [int32, Int.bmod_def]
  split <;> omega

theorem fields_eq {hour minute two : Nat} (hy : y < 120) (hm : m < 16) (hd : d < 32)
    (hhour : hour < 24) (hminute : minute < 60) (htwo : two < 30)
    (htime : time = BitVec.ofNat 16 (two + 32 * minute + 2048 * hour))
    (hdate : date = BitVec.ofNat 16 (d + 32 * m + 512 * y)) :
    dosYear date = 1980 + y ∧ dosMonth date = m ∧ dosDay date = d ∧ dosHour time = hour ∧
      dosMinute time = minute ∧ dosSecond time = 2 * two := by
  have htime' : time.toNat = two + 32 * minute + 2048 * hour := by
    rw [htime, BitVec.toNat_ofNat]
    omega
  have hdate' : date.toNat = d + 32 * m + 512 * y := by
    rw [hdate, BitVec.toNat_ofNat]
    omega
  unfold dosYear dosMonth dosDay dosHour dosMinute dosSecond
  omega

/-- **A Unix time becomes the date and time of the calendar**, and comes back even. -/
theorem unix2dos_spec {tz t : Int} (hlow : -2 ^ 31 ≤ t) (hhigh : t < 2 ^ 31)
    (hfirst : 86400 * dayNumber 1980 1 1 ≤ t - tz * 60) (hlast : t - tz * 60 < 2 ^ 31)
    (h : dateUnix2dos tz t = (time, date)) :
    Valid time date ∧ localTime time date = t - tz * 60 - (t - tz * 60) % 2 ∧
      dateDos2unix tz time date = t - (t - tz * 60) % 2 := by
  have hstart : dayNumber 1980 1 1 = 3652 := by decide
  rw [hstart] at hfirst
  obtain ⟨l, hl⟩ := Int.eq_ofNat_of_zero_le (show 0 ≤ t - tz * 60 by omega)
  rw [hl] at hfirst hlast
  obtain ⟨y, hy, hylow, hyhigh⟩ := @exists_year (l / 86400 - 3652) (by omega)
  obtain ⟨r, hr⟩ := Nat.exists_eq_add_of_le hylow
  obtain ⟨m, d, hpos, hle, hd, hlen, hdays⟩ := exists_month (r := r) hy (by omega)
  have hnumber : dayNumber (1980 + y) m d = _ := dayNumber_eq hy hpos hle
  rw [← hdays] at hnumber
  have hd32 : d < 32 := by
    have hall : ∀ m, monthLength (1980 + y) m < 32 := by
      intro m
      unfold monthLength
      split_ifs <;> omega
    have := hall m
    omega
  have hsum : l = 86400 * dayNumber (1980 + y) m d + 3600 * (l % 86400 / 3600) +
      60 * (l / 60 % 60) + 2 * (l % 60 / 2) + l % 2 := by
    omega
  have hlocal : int32 (t - tz * 60) = ((86400 * dayNumber (1980 + y) m d +
      3600 * (l % 86400 / 3600) + 60 * (l / 60 % 60) + 2 * (l % 60 / 2) + l % 2 : Nat) : Int) := by
    rw [← hsum, ← hl]
    apply int32_eq <;> omega
  have hrun := dateUnix2dos_eq hy hpos hle hd hlen (by omega) (by omega) (by omega) (by omega) hlocal
  rw [h, Prod.mk.injEq] at hrun
  obtain ⟨hyear, hmonth, hday, hhour, hminute, hsecond⟩ := fields_eq hy (by omega) hd32
    (show l % 86400 / 3600 < 24 by omega) (show l / 60 % 60 < 60 by omega)
    (show l % 60 / 2 < 30 by omega) hrun.1 hrun.2
  have hvalid : Valid time date := {
    month_pos := by rw [hmonth]; exact hpos
    month_le := by rw [hmonth]; exact hle
    day_pos := by rw [hday]; exact hd
    day_le := by rw [hyear, hmonth, hday]; exact hlen
    hour_lt := by omega
    minute_lt := by omega
    second_lt := by omega }
  have htime : (localTime time date : Int) = t - tz * 60 - (t - tz * 60) % 2 := by
    rw [localTime, hyear, hmonth, hday, hhour, hminute, hsecond, hl]
    omega
  refine ⟨hvalid, htime, ?_⟩
  rw [dos2unix_spec tz (by rw [hyear]; omega) hvalid.month_pos hvalid.month_le hvalid.day_pos, htime]
  rw [show t - tz * 60 - (t - tz * 60) % 2 + tz * 60 = t - (t - tz * 60) % 2 by omega]
  apply int32_eq <;> omega

/-- **A date and a time come back from Unix.** -/
theorem dos2unix_roundtrip {tz : Int} (h : Valid time date) (hlast : localTime time date < 2 ^ 31) :
    dateUnix2dos tz (dateDos2unix tz time date) = (time, date) := by
  have hy : date.toNat / 512 < 120 := by
    -- a later year is behind the last second
    by_contra hge
    have hyears : ∑ i ∈ Finset.range (1980 + 120 - 1970), yearLength (1970 + i) ≤
        ∑ i ∈ Finset.range (dosYear date - 1970), yearLength (1970 + i) := by
      apply Finset.sum_le_sum_of_subset
      apply Finset.range_subset_range.mpr
      rw [dosYear]
      omega
    rw [sum_years (le_refl 120)] at hyears
    rw [localTime, dayNumber] at hlast
    omega
  have hdos : dateDos2unix tz time date = _ :=
    dos2unix_spec tz (by rw [dosYear]; omega) h.month_pos h.month_le h.day_pos
  have hlen := h.day_le
  have hhour := h.hour_lt
  have hminute := h.minute_lt
  have hsecond := h.second_lt
  have hlocal : int32 (dateDos2unix tz time date - tz * 60) = ((86400 *
      dayNumber (1980 + date.toNat / 512) (dosMonth date) (dosDay date) + 3600 * dosHour time +
      60 * dosMinute time + 2 * (time.toNat % 32) + 0 : Nat) : Int) := by
    have hsum : localTime time date = 86400 *
        dayNumber (1980 + date.toNat / 512) (dosMonth date) (dosDay date) + 3600 * dosHour time +
        60 * dosMinute time + 2 * (time.toNat % 32) + 0 := by
      rw [localTime, dosYear, dosSecond]
      omega
    rw [hdos, ← hsum, int32, int32, Int.bmod_sub_bmod, Int.add_sub_cancel]
    apply int32_eq <;> omega
  rw [dateUnix2dos_eq hy h.month_pos h.month_le h.day_pos hlen hhour hminute
    (by rw [dosSecond] at hsecond; omega) (by decide) hlocal]
  have htime := time.isLt
  have hdate := date.isLt
  refine Prod.ext (BitVec.eq_of_toNat_eq ?_) (BitVec.eq_of_toNat_eq ?_)
  · change _ = time.toNat
    rw [BitVec.toNat_ofNat, dosMinute, dosHour]
    omega
  · change _ = date.toNat
    rw [BitVec.toNat_ofNat, dosMonth, dosDay]
    omega

end Proofs

/-- **DOS and Unix dates convert back and forth**: a local time from 1980 on becomes a date of the
calendar and comes back rounded down to an even second, and a date before the end of the range comes
back as it was. -/
theorem dates_convert (tz : Int) :
    (∀ t, -2 ^ 31 ≤ t → t < 2 ^ 31 → 86400 * dayNumber 1980 1 1 ≤ t - tz * 60 →
      t - tz * 60 < 2 ^ 31 →
        Valid (dateUnix2dos tz t).1 (dateUnix2dos tz t).2 ∧
        dateDos2unix tz (dateUnix2dos tz t).1 (dateUnix2dos tz t).2 = t - (t - tz * 60) % 2) ∧
    ∀ time date, Valid time date → localTime time date < 2 ^ 31 →
      dateUnix2dos tz (dateDos2unix tz time date) = (time, date) := by
  refine ⟨?_, fun time date h hlast => dos2unix_roundtrip h hlast⟩
  intro t hlow hhigh hfirst hlast
  obtain ⟨hvalid, -, hback⟩ := unix2dos_spec hlow hhigh hfirst hlast rfl
  exact ⟨hvalid, hback⟩

/-- The last day of February 2000, at noon. -/
example : dateUnix2dos 0 951825600 = (0x6000#16, 0x285d#16) ∧
    dateDos2unix 0 0x6000 0x285d = 951825600 := by decide

end LinuxEvocation.Msdos.Dates
