import Thegn.Recur.Order

set_option autoImplicit false

/-! # The Gregorian calendar

Dates as numbers of days, the first of January of the year 1 being day 1, and times of day as
seconds. The facts that the expansion uses of `chrono` hold of it.
-/

namespace Thegn.Recur.Gregorian

open List

/-! ## Years -/

/-- The first day of a year. -/
def startOf (y : Int) : Int := 365 * (y - 1) + (y - 1) / 4 - (y - 1) / 100 + (y - 1) / 400 + 1

def yearOf (d : Int) : Int :=
  let y := d * 400 / 146097
  if startOf (y + 2) ≤ d then y + 2 else if startOf (y + 1) ≤ d then y + 1 else y

/-- The leap day of a year. -/
def leapDay (y : Int) : Nat := if y % 4 = 0 ∧ (y % 100 ≠ 0 ∨ y % 400 = 0) then 1 else 0

theorem leapDay_le (y : Int) : leapDay y ≤ 1 := by
  unfold leapDay
  split <;> omega

theorem startOf_succ (y : Int) : startOf (y + 1) = startOf y + 365 + leapDay y := by
  unfold startOf leapDay
  split <;> omega

theorem yearOf_spec (d : Int) : startOf (yearOf d) ≤ d ∧ d < startOf (yearOf d + 1) := by
  simp only [yearOf]
  generalize hy : d * 400 / 146097 = y
  have htwo : y + 1 + 1 = y + 2 := by ring
  split_ifs
  · refine ⟨by assumption, ?_⟩
    unfold startOf
    omega
  · refine ⟨by assumption, ?_⟩
    rw [htwo]
    omega
  · refine ⟨?_, by omega⟩
    unfold startOf
    omega

theorem startOf_mono {y y' : Int} (h : y ≤ y') : startOf y ≤ startOf y' := by
  unfold startOf
  omega

/-- The year of a day is the only one around it. -/
theorem yearOf_eq {d y : Int} (hle : startOf y ≤ d) (hlt : d < startOf (y + 1)) : yearOf d = y := by
  obtain ⟨hle', hlt'⟩ := yearOf_spec d
  rcases lt_trichotomy (yearOf d) y with h | h | h
  · have := startOf_mono (Int.add_one_le_of_lt h)
    omega
  · exact h
  · have := startOf_mono (Int.add_one_le_of_lt h)
    omega

theorem yearOf_mono {d d' : Int} (h : d ≤ d') : yearOf d ≤ yearOf d' := by
  by_contra hlt
  have := startOf_mono (Int.add_one_le_of_lt (not_le.mp hlt))
  have := (yearOf_spec d).1
  have := (yearOf_spec d').2
  omega

/-! ## Months -/

/-- The days of a year before a month; the month after December is the next year. -/
def daysBefore (leap m : Nat) : Nat :=
  match m with
  | 0 | 1 => 0
  | 2 => 31
  | 3 => 59 + leap
  | 4 => 90 + leap
  | 5 => 120 + leap
  | 6 => 151 + leap
  | 7 => 181 + leap
  | 8 => 212 + leap
  | 9 => 243 + leap
  | 10 => 273 + leap
  | 11 => 304 + leap
  | 12 => 334 + leap
  | _ => 365 + leap

/-- The number of months that have begun `e` days after the start of the year. -/
def monthIn (leap : Nat) (e : Int) : Nat := (List.range' 1 12).countP fun m => daysBefore leap m ≤ e

theorem monthIn_mono (leap : Nat) {e e' : Int} (h : e ≤ e') : monthIn leap e ≤ monthIn leap e' := by
  apply countP_mono_left
  intro m _ hm
  rw [decide_eq_true_eq] at hm ⊢
  exact hm.trans h

theorem monthIn_range (leap : Nat) {e : Int} (h : 0 ≤ e) :
    1 ≤ monthIn leap e ∧ monthIn leap e ≤ 12 := by
  refine ⟨?_, countP_le_length⟩
  apply countP_pos_iff.mpr
  exact ⟨1, by simp, by simpa [daysBefore] using h⟩

theorem daysBefore_mono {leap m m' : Nat} (hleap : leap ≤ 1) (h : m ≤ m') :
    daysBefore leap m ≤ daysBefore leap m' := by
  refine monotone_nat_of_le_succ (f := daysBefore leap) (fun n => ?_) h
  match n with
  | 0 | 1 | 2 | 3 | 4 | 5 | 6 | 7 | 8 | 9 | 10 | 11 | 12 => simp only [daysBefore]; omega
  | n + 13 => exact le_rfl

/-- A day of a month is in that month. -/
theorem monthIn_eq {leap m : Nat} {e : Int} (hleap : leap ≤ 1) (hm : 1 ≤ m ∧ m ≤ 12)
    (hle : daysBefore leap m ≤ e) (hlt : e < daysBefore leap (m + 1)) : monthIn leap e = m := by
  -- exactly the months up to `m` have begun
  have hbegun : ∀ i ∈ List.range' 1 12, decide ((daysBefore leap i : Int) ≤ e) =
    decide (i ≤ m) := by
    intro i _
    rw [decide_eq_decide]
    constructor
    · intro hi
      by_contra hlt'
      have := daysBefore_mono hleap (show m + 1 ≤ i by omega)
      omega
    · intro hi
      have := daysBefore_mono hleap hi
      omega
  unfold monthIn
  rw [countP_congr fun i hi => by rw [hbegun i hi]]
  obtain ⟨h1, h12⟩ := hm
  interval_cases m <;> rfl

/-- A month has a day. -/
theorem daysBefore_lt_succ (leap : Nat) {m : Nat} (hm : 1 ≤ m ∧ m ≤ 12) :
    daysBefore leap m < daysBefore leap (m + 1) := by
  obtain ⟨h1, h12⟩ := hm
  interval_cases m <;> simp only [daysBefore] <;> omega

/-- Every day of a year is in a month. -/
theorem exists_month {leap : Nat} {e : Int} (h : 0 ≤ e) (hlt : e < 365 + leap) :
    ∃ m, (1 ≤ m ∧ m ≤ 12) ∧ daysBefore leap m ≤ e ∧ e < daysBefore leap (m + 1) := by
  have hfirst : (daysBefore leap 1 : Int) ≤ e := by simpa [daysBefore] using h
  have hlast := Nat.findGreatest_spec (P := fun m => (daysBefore leap m : Int) ≤ e)
    (show 1 ≤ 12 by omega) hfirst
  have hpos :=
    Nat.le_findGreatest (P := fun m => (daysBefore leap m : Int) ≤ e) (show 1 ≤ 12 by omega) hfirst
  have hle := Nat.findGreatest_le (P := fun m => (daysBefore leap m : Int) ≤ e) 12
  generalize hm : Nat.findGreatest (fun m => (daysBefore leap m : Int) ≤ e) 12 = m at hlast hpos hle
  refine ⟨m, ⟨hpos, hle⟩, hlast, ?_⟩
  rcases hle.lt_or_eq with hlt' | rfl
  · have := Nat.findGreatest_is_greatest (P := fun m => (daysBefore leap m : Int) ≤ e) (n := 12)
      (k := m + 1)
      (by rw [hm]; omega) (by omega)
    omega
  · simpa [daysBefore] using hlt

/-- The month of a day has begun. -/
theorem daysBefore_monthIn {leap : Nat} {e : Int} (hleap : leap ≤ 1) (h : 0 ≤ e)
    (hlt : e < 365 + leap) : daysBefore leap (monthIn leap e) ≤ e := by
  obtain ⟨m, hm, hbegun, hend⟩ := exists_month h hlt
  rw [monthIn_eq hleap hm hbegun hend]
  exact hbegun

/-- The month of a day has not ended. -/
theorem lt_daysBefore_monthIn {leap : Nat} {e : Int} (hleap : leap ≤ 1) (h : 0 ≤ e)
    (hlt : e < 365 + leap) : e < daysBefore leap (monthIn leap e + 1) := by
  obtain ⟨m, hm, hbegun, hend⟩ := exists_month h hlt
  rw [monthIn_eq hleap hm hbegun hend]
  exact hend

def yearDay (d : Int) : Int := d - startOf (yearOf d)

theorem yearDay_nonneg (d : Int) : 0 ≤ yearDay d := by
  have := (yearOf_spec d).1
  unfold yearDay
  omega

def monthOf (d : Int) : Nat := monthIn (leapDay (yearOf d)) (yearDay d)

def dayOf (d : Int) : Nat := (yearDay d - daysBefore (leapDay (yearOf d)) (monthOf d) + 1).toNat

theorem dayOf_pos (d : Int) : 1 ≤ dayOf d := by
  have hlt : yearDay d < 365 + leapDay (yearOf d) := by
    have := (yearOf_spec d).2
    have := startOf_succ (yearOf d)
    unfold yearDay
    omega
  have := daysBefore_monthIn (leapDay_le (yearOf d)) (yearDay_nonneg d) hlt
  unfold dayOf monthOf
  omega

/-! ## The functions of `chrono` -/

/-- The first and the last day that can be represented. -/
def minDay : Int := startOf (-262143)

def maxDay : Int := startOf 262143 - 1

/-- A day that can be represented. -/
abbrev Day := { d : Int // minDay ≤ d ∧ d ≤ maxDay }

instance : Inhabited Day := ⟨⟨1, by decide⟩⟩

/-- The seconds of a day. -/
abbrev Clock := Fin 86400

instance instNeZeroClock : NeZero 86400 := ⟨by decide⟩

def inRange (d : Int) : Option Day := if h : minDay ≤ d ∧ d ≤ maxDay then some ⟨d, h⟩ else none

def fromYmd (y : Int) (m k : Nat) : Option Day :=
  if 1 ≤ m ∧ m ≤ 12 ∧ 1 ≤ k ∧ daysBefore (leapDay y) m + k ≤ daysBefore (leapDay y) (m + 1) then
    inRange (startOf y + daysBefore (leapDay y) m + k - 1)
  else none

def fromYo (y : Int) (k : Nat) : Option Day :=
  if 1 ≤ k ∧ k ≤ 365 + leapDay y then inRange (startOf y + k - 1) else none

def addMonths (d : Int) (n : Nat) : Option Day :=
  let index := yearOf d * 12 + monthOf d - 1 + n
  let y := index / 12
  let m := (index % 12).toNat + 1
  fromYmd y m (min (dayOf d) (daysBefore (leapDay y) (m + 1) - daysBefore (leapDay y) m))

def weekdayOf (d : Int) : Weekday :=
  match ((d - 1) % 7).toNat with
  | 0 => .mon
  | 1 => .tue
  | 2 => .wed
  | 3 => .thu
  | 4 => .fri
  | 5 => .sat
  | _ => .sun

/-- The Thursday of a week, whose year is the ISO year of the week. -/
def thursdayOf (d : Int) : Int := d - (d - 1) % 7 + 3

def isoYear (d : Int) : Int := yearOf (thursdayOf d)

def fromIsoywd (y : Int) (w : Nat) (wd : Weekday) : Option Day :=
  -- the fourth of January is in the first week
  let monday := startOf y + 3 - (startOf y + 2) % 7
  let d := monday + 7 * (w - 1) + wd.numDaysFromMonday
  if 1 ≤ w ∧ isoYear d = y then inRange d else none

def addSeconds (t : NaiveDateTime Day Clock) (n : Nat) : Option (NaiveDateTime Day Clock) :=
  (inRange (t.date.val + ((t.time.val + n) / 86400 : Nat))).map fun d =>
    toLex (d, Fin.ofNat 86400 (t.time.val + n))

def calendar : Calendar Day Clock where
  year d := yearOf d.val
  month d := monthOf d.val
  day d := dayOf d.val
  ordinal d := (yearDay d.val + 1).toNat
  weekday d := weekdayOf d.val
  isoWeek d := (yearDay (thursdayOf d.val) / 7 + 1).toNat
  fromYmdOpt := fromYmd
  fromYoOpt := fromYo
  fromIsoywdOpt := fromIsoywd
  checkedAddDays d n := inRange (d.val + n)
  checkedSubDays d n := inRange (d.val - n)
  checkedAddMonths d n := addMonths d.val n
  daysSince d d' := d.val - d'.val
  hour t := t.val / 3600
  minute t := t.val / 60 % 60
  second t := t.val % 60
  fromHmsOpt h m s :=
    if h < 24 ∧ m < 60 ∧ s < 60 then some (Fin.ofNat 86400 (h * 3600 + m * 60 + s)) else none
  checkedAddSeconds := addSeconds
  secondsSince t t' := (t.date.val - t'.date.val) * 86400 + t.time.val - t'.time.val
  -- at most `i64::MAX` milliseconds
  trySeconds n := if n ≤ (2 ^ 63 - 1) / 1000 then some n else none
  dateTimeBytes := 12

/-! ## Its laws -/

theorem inRange_eq_some {d : Int} {d' : Day} (h : inRange d = some d') : d'.val = d := by
  unfold inRange at h
  split at h
  · cases h
    rfl
  · cases h

theorem inRange_isSome {d : Int} : (inRange d).isSome ↔ minDay ≤ d ∧ d ≤ maxDay := by
  unfold inRange
  split <;> simp_all

theorem fromYmd_spec {y : Int} {m k : Nat} {d : Day} (h : fromYmd y m k = some d) :
    yearOf d.val = y ∧ monthOf d.val = m := by
  simp only [fromYmd] at h
  split at h
  case isFalse => cases h
  case isTrue hin =>
    obtain ⟨h1, h12, hk, hlen⟩ := hin
    rw [inRange_eq_some h]
    have hyear : yearOf (startOf y + daysBefore (leapDay y) m + k - 1) = y := by
      have hend : daysBefore (leapDay y) (m + 1) ≤ 365 + leapDay y :=
        daysBefore_mono (leapDay_le y) (show m + 1 ≤ 13 by omega)
      have := startOf_succ y
      exact yearOf_eq (by omega) (by omega)
    refine ⟨hyear, ?_⟩
    unfold monthOf yearDay
    rw [hyear]
    exact monthIn_eq (leapDay_le y) ⟨h1, h12⟩ (by omega) (by omega)

/-- A day of a month of a year in range is in range. -/
theorem fromYmd_isSome {y : Int} {m k : Nat} (hy : -262143 ≤ y ∧ y ≤ 262142) (hm : 1 ≤ m ∧ m ≤ 12)
    (hk : 1 ≤ k)
    (hlen : daysBefore (leapDay y) m + k ≤ daysBefore (leapDay y) (m + 1)) :
    (fromYmd y m k).isSome := by
  unfold fromYmd
  rw [if_pos ⟨hm.1, hm.2, hk, hlen⟩, inRange_isSome]
  have hend : daysBefore (leapDay y) (m + 1) ≤ 365 + leapDay y :=
    daysBefore_mono (leapDay_le y) (show m + 1 ≤ 13 by omega)
  have hsucc := startOf_succ y
  have hfirst : startOf (-262143) ≤ startOf y := startOf_mono hy.1
  have hlast : startOf (y + 1) ≤ startOf 262143 := startOf_mono (by omega)
  unfold minDay maxDay
  omega

theorem yearOf_range (d : Day) : -262143 ≤ yearOf d.val ∧ yearOf d.val ≤ 262142 := by
  obtain ⟨hmin, hmax⟩ := d.property
  obtain ⟨hle, hlt⟩ := yearOf_spec d.val
  unfold minDay at hmin
  unfold maxDay at hmax
  constructor
  · by_contra hlow
    have : startOf (yearOf d.val + 1) ≤ startOf (-262143) := startOf_mono (by omega)
    omega
  · by_contra hhigh
    have : startOf 262143 ≤ startOf (yearOf d.val) := startOf_mono (by omega)
    omega

theorem fromYo_spec {y : Int} {k : Nat} {d : Day} (h : fromYo y k = some d) : yearOf d.val = y := by
  simp only [fromYo] at h
  split at h
  case isFalse => cases h
  case isTrue hin =>
    rw [inRange_eq_some h]
    have := startOf_succ y
    exact yearOf_eq (by omega) (by omega)

theorem addMonths_spec {d : Int} {d' : Day} {n : Nat} (h : addMonths d n = some d') :
    yearOf d'.val * 12 + monthOf d'.val = yearOf d * 12 + monthOf d + n := by
  obtain ⟨hy, hm⟩ := fromYmd_spec h
  rw [hy, hm]
  omega

theorem addMonths_isSome (d : Day) (n : Nat) :
    (addMonths d.val n).isSome ↔ yearOf d.val * 12 + monthOf d.val + n ≤ 262142 * 12 + 12 := by
  have hmonth := monthIn_range (leapDay (yearOf d.val)) (yearDay_nonneg d.val)
  constructor
  · intro h
    obtain ⟨e, he⟩ := Option.isSome_iff_exists.mp h
    have hindex := addMonths_spec he
    have := (yearOf_range e).2
    have := monthIn_range (leapDay (yearOf e.val)) (yearDay_nonneg e.val)
    unfold monthOf at hindex ⊢
    omega
  · intro h
    have hyear := (yearOf_range d).1
    unfold monthOf at h
    unfold addMonths monthOf
    refine fromYmd_isSome ⟨by omega, by omega⟩ ⟨by omega, by omega⟩ ?_ ?_
    · have := dayOf_pos d.val
      have := daysBefore_lt_succ (leapDay
        ((yearOf d.val * 12 + monthIn (leapDay (yearOf d.val)) (yearDay d.val) - 1 + n) / 12))
        (show 1 ≤ ((yearOf d.val * 12 + monthIn (leapDay (yearOf d.val)) (yearDay d.val) - 1 + n) %
          12).toNat + 1 ∧
          ((yearOf d.val * 12 + monthIn (leapDay (yearOf d.val)) (yearDay d.val) - 1 + n) %
            12).toNat + 1 ≤ 12 by omega)
      omega
    · have := daysBefore_mono (leapDay_le
        ((yearOf d.val * 12 + monthIn (leapDay (yearOf d.val)) (yearDay d.val) - 1 + n) / 12))
        (Nat.le_succ (((yearOf d.val * 12 + monthIn (leapDay (yearOf d.val)) (yearDay d.val) - 1 +
          n) % 12).toNat + 1))
      simp only [Nat.succ_eq_add_one] at this
      omega

theorem monthIndex_mono {d d' : Int} (h : d ≤ d') :
    yearOf d * 12 + monthOf d ≤ yearOf d' * 12 + monthOf d' := by
  rcases (yearOf_mono h).lt_or_eq with hlt | heq
  · have := monthIn_range (leapDay (yearOf d)) (yearDay_nonneg d)
    have := monthIn_range (leapDay (yearOf d')) (yearDay_nonneg d')
    unfold monthOf
    omega
  · have := monthIn_mono (leapDay (yearOf d')) (show yearDay d ≤
      yearDay d' by unfold yearDay; rw [heq]; omega)
    unfold monthOf
    rw [heq]
    omega

theorem fromIsoywd_spec {y : Int} {w : Nat} {wd : Weekday} {d : Day}
    (h : fromIsoywd y w wd = some d) : isoYear d.val = y := by
  simp only [fromIsoywd] at h
  split at h
  case isFalse => cases h
  case isTrue hin =>
    rw [inRange_eq_some h]
    exact hin.2

theorem addSeconds_spec {t t' : NaiveDateTime Day Clock} {n : Nat} (h : addSeconds t n = some t') :
    t'.date.val = t.date.val + ((t.time.val + n) / 86400 : Nat) ∧
    t'.time.val = (t.time.val + n) % 86400 := by
  obtain ⟨d, hd, rfl⟩ := Option.map_eq_some_iff.mp h
  exact ⟨inRange_eq_some hd, rfl⟩

theorem secondsSince_addSeconds {t t' : NaiveDateTime Day Clock} {n : Nat}
    (h : addSeconds t n = some t') : calendar.secondsSince t' t = n := by
  obtain ⟨hdate, htime⟩ := addSeconds_spec h
  simp only [calendar, hdate, htime]
  omega

theorem secondsSince_pos_iff (t t' : NaiveDateTime Day Clock) : 0 < calendar.secondsSince t t' ↔
    t' < t := by
  have ht := t.time.isLt
  have ht' := t'.time.isLt
  have hlex : t' < t ↔ t'.date.val < t.date.val ∨ t'.date.val = t.date.val ∧
    t'.time.val < t.time.val := by
    rw [Prod.Lex.lt_iff, ← Subtype.ext_iff]
    rfl
  rw [hlex]
  simp only [calendar]
  omega

theorem addSeconds_isSome (t : NaiveDateTime Day Clock) (n : Nat) :
    (addSeconds t n).isSome ↔ t.date.val * 86400 + t.time.val + n < (maxDay + 1) * 86400 := by
  have ht := t.time.isLt
  have hmin := t.date.property.1
  unfold addSeconds
  rw [Option.isSome_map, inRange_isSome]
  omega

theorem calendar_lawful : calendar.Lawful where
  daysSince_pos d d' := by
    simp only [calendar, sub_pos]
    exact Iff.rfl
  daysSince_add a b c := by simp [calendar]
  addDays d n d' h := by
    simp only [calendar] at h ⊢
    rw [inRange_eq_some h]
    omega
  addDays_total d e n h := by
    simp only [calendar, inRange_isSome] at h ⊢
    have := d.property.1
    have := e.property.2
    omega
  subDays d n d' h := by
    simp only [calendar] at h ⊢
    rw [inRange_eq_some h]
    omega
  subDays_mono d d' n m hd hm h := by
    simp only [calendar, inRange_isSome] at h ⊢
    have hle : d.val ≤ d'.val := hd
    have := d'.property.2
    omega
  weekday_eq d d' h := by
    have heq : (d.val - 1) % 7 = (d'.val - 1) % 7 := by
      have hdvd : (7 : Int) ∣ d.val - d'.val := h
      omega
    simp only [calendar, weekdayOf, heq]
  month_range d := monthIn_range _ (yearDay_nonneg d.val)
  monthIndex_mono d d' h := monthIndex_mono h
  addMonths d n d' h := addMonths_spec h
  addMonths_total d e n h := by
    have hrange := yearOf_range e
    have hmonth := monthIn_range (leapDay (yearOf e.val)) (yearDay_nonneg e.val)
    simp only [Calendar.monthIndex, calendar] at h
    refine (addMonths_isSome d n).mpr ?_
    unfold monthOf at h ⊢
    omega
  monthIndex_lt d e := by
    have hd := yearOf_range d
    have he := yearOf_range e
    have hmonth := monthIn_range (leapDay (yearOf e.val)) (yearDay_nonneg e.val)
    simp only [Calendar.monthIndex, calendar]
    unfold monthOf
    omega
  fromYmd y m k d h := fromYmd_spec h
  fromYo y k d h := fromYo_spec h
  isoYear_lt y w wd d y' w' wd' d' h h' hlt := by
    by_contra hle
    have hle : d'.val ≤ d.val := not_lt.mp hle
    have hmono : isoYear d'.val ≤ isoYear d.val := yearOf_mono (by unfold thursdayOf; omega)
    rw [fromIsoywd_spec h, fromIsoywd_spec h'] at hmono
    omega
  isoYear_near y w wd d d' h hlt := by
    have hyear := fromIsoywd_spec h
    have hstart := (yearOf_spec (thursdayOf d.val)).1
    have hnext := (yearOf_spec d'.val).2
    have hle : startOf (yearOf d'.val + 1) ≤ startOf (isoYear d.val) :=
      startOf_mono (by rw [hyear]; exact hlt)
    have hsince : calendar.daysSince d d' = d.val - d'.val := rfl
    unfold isoYear at hle
    unfold thursdayOf at hstart hle
    omega
  isoYear_before y w wd d d' h hlt := by
    have hyear := fromIsoywd_spec h
    have hnext := (yearOf_spec (thursdayOf d.val)).2
    have hstart := (yearOf_spec d'.val).1
    have hle : startOf (isoYear d.val + 1 + 1) ≤ startOf (yearOf d'.val) :=
      startOf_mono (by rw [hyear]; exact hlt)
    have hsucc := startOf_succ (isoYear d.val + 1)
    show d.val < d'.val
    unfold isoYear at hle hsucc
    unfold thursdayOf at hnext hle hsucc
    omega
  secondsSince_pos := secondsSince_pos_iff
  secondsSince_add s t u := by
    simp only [calendar]
    omega
  addSeconds t n t' h := secondsSince_addSeconds h
  addSeconds_total t u n h := by
    have hu := u.time.isLt
    have hmax := u.date.property.2
    simp only [calendar] at h
    exact (addSeconds_isSome t n).mpr (by omega)
  midnight_le t t' h := by
    have hzero : 0 = t := by simpa [calendar] using h
    exact hzero ▸ Fin.zero_le t'
  trySeconds n m h := (ite_eq_iff.mp h).elim (fun h => (Option.some.inj h.2).symm) nofun

end Thegn.Recur.Gregorian
