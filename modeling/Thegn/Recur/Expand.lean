import Thegn.Lib.Accumulate
import Thegn.Lib.Enumerate
import Thegn.Recur.Rule

set_option autoImplicit false

/-! # Expansion of one rule

`expand_rule` of `thegn-core/src/calendar/recur.rs` with all it calls: the period walk, the
candidates of a period and the clock walk of the sub-daily frequencies, each charged to the budget.
Dates `D` and times of day `T` are those of `chrono`, and so are the functions on them that
`Calendar` lists; a zone is what `chrono_tz` resolves in it.
-/

namespace Thegn.Recur

open Accumulate

/-! ## Dates and zones -/

/-- A date with a time of day, ordered by date first. -/
abbrev NaiveDateTime (D T : Type) := D ×ₗ T

variable {D T : Type}

def NaiveDateTime.date (t : NaiveDateTime D T) : D := (ofLex t).1

def NaiveDateTime.time (t : NaiveDateTime D T) : T := (ofLex t).2

/-- The functions of `chrono` that the expansion uses. -/
structure Calendar (D T : Type) where
  year : D → Int
  month : D → Nat
  day : D → Nat
  ordinal : D → Nat
  weekday : D → Weekday
  isoWeek : D → Nat
  fromYmdOpt : Int → Nat → Nat → Option D
  fromYoOpt : Int → Nat → Option D
  fromIsoywdOpt : Int → Nat → Weekday → Option D
  checkedAddDays : D → Nat → Option D
  checkedSubDays : D → Nat → Option D
  checkedAddMonths : D → Nat → Option D
  /-- `signed_duration_since` in days. -/
  daysSince : D → D → Int
  hour : T → Nat
  minute : T → Nat
  second : T → Nat
  fromHmsOpt : Nat → Nat → Nat → Option T
  checkedAddSeconds : NaiveDateTime D T → Nat → Option (NaiveDateTime D T)
  /-- `signed_duration_since` in seconds. -/
  secondsSince : NaiveDateTime D T → NaiveDateTime D T → Int
  /-- `TimeDelta::try_seconds`. -/
  trySeconds : Nat → Option Nat
  /-- The size of a date with a time of day. -/
  dateTimeBytes : Nat

/-- A zone under a gap policy: the instant of a wall time, and the wall time of an instant. -/
structure Zone (D T : Type) where
  resolveLocal : NaiveDateTime D T → Option (NaiveDateTime D T)
  naiveLocal : NaiveDateTime D T → NaiveDateTime D T

def Weekday.numDaysFromMonday : Weekday → Nat
  | .mon => 0
  | .tue => 1
  | .wed => 2
  | .thu => 3
  | .fri => 4
  | .sat => 5
  | .sun => 6

/-! ## The budget -/

inductive ExpansionLimit
  | recurrenceWork
  | materializedOccurrences
  | retainedBytes
  deriving DecidableEq

inductive ExpansionError
  | arithmetic
  | budget (limit : ExpansionLimit)
  deriving DecidableEq

/-- The dimensions of the budget that an expansion of a rule is charged to. -/
structure ExpansionBudget where
  maxRecurrenceWork : Nat
  maxOccurrences : Nat
  maxRetainedBytes : Nat
  recurrenceWork : Nat
  expandedLocals : Nat
  retainedBytes : Nat
  deriving DecidableEq

def spend (used max amount : Nat) (limit : ExpansionLimit) : Except ExpansionError Nat :=
  if used + amount < 2 ^ 64 then
    if max < used + amount then .error (.budget limit) else .ok (used + amount)
  else .error .arithmetic

def ExpansionBudget.work (b : ExpansionBudget) (amount : Nat) :
    Except ExpansionError ExpansionBudget := do
  let recurrenceWork ← spend b.recurrenceWork b.maxRecurrenceWork amount .recurrenceWork
  .ok { b with recurrenceWork }

def ExpansionBudget.bytes (b : ExpansionBudget) (amount : Nat) :
    Except ExpansionError ExpansionBudget := do
  let retainedBytes ← spend b.retainedBytes b.maxRetainedBytes amount .retainedBytes
  .ok { b with retainedBytes }

/-- `CANDIDATE_BYTES`. -/
def Calendar.candidateBytes (cal : Calendar D T) : Nat := 2 * cal.dateTimeBytes

def ExpansionBudget.candidate (b : ExpansionBudget) (cal : Calendar D T) :
    Except ExpansionError ExpansionBudget := do
  let b ← b.work 1
  b.bytes cal.candidateBytes

def ExpansionBudget.expandedLocal (b : ExpansionBudget) (cal : Calendar D T) :
    Except ExpansionError ExpansionBudget := do
  let expandedLocals ← spend b.expandedLocals b.maxOccurrences 1 .materializedOccurrences
  { b with expandedLocals }.bytes cal.candidateBytes

def workExhausted : ExpansionError := .budget .recurrenceWork

/-! ## Prices -/

def checkedAdd (a b : Nat) : Option Nat := if a + b < 2 ^ 64 then some (a + b) else none

def checkedMul (a b : Nat) : Option Nat := if a * b < 2 ^ 64 then some (a * b) else none

/-- What a period and the filters of a date cost; walking a period is never free. -/
structure RuleCost where
  period : Nat
  filter : Nat
  period_pos : 0 < period

/-- The bound on the dates of a period. -/
def RuleCost.dates (r : RRule D T) (perMonth : Nat) : Option Nat :=
  match r.freq with
  | .secondly | .minutely | .hourly | .daily => some 1
  | .weekly => checkedMul (max r.byDay.length 1) 7
  | .monthly => some perMonth
  | .yearly => do
      let months ← checkedMul (max r.byMonth.length 1) perMonth
      let withDays ← checkedAdd months r.byYearDay.length
      let weeks ← checkedMul r.byWeekNo.length (max r.byDay.length 1)
      checkedAdd withDays weeks

def RuleCost.perMonth (r : RRule D T) : Option Nat := do
  let walked ← checkedMul r.byDay.length 31
  let produced ← checkedMul r.byDay.length 5
  let filters ← checkedAdd r.byMonthDay.length r.byMonth.length
  let filtered ← checkedMul produced (max filters 1)
  let all ← checkedAdd walked filtered
  let all ← checkedAdd all r.byMonthDay.length
  checkedAdd all 1

def RuleCost.of (r : RRule D T) : Option RuleCost := do
  let perMonth ← RuleCost.perMonth r
  let dates ← RuleCost.dates r perMonth
  let period ← checkedAdd dates r.byHour.length
  let period ← checkedAdd period r.byMinute.length
  let period ← checkedAdd period r.bySecond.length
  let period ← checkedAdd period r.bySetPos.length
  let filter ← [r.byMonthDay.length, r.byYearDay.length, r.byDay.length, r.byWeekNo.length,
    r.byMonth.length].foldlM
    checkedAdd 1
  if period + 1 < 2 ^ 64 then some ⟨period + 1, filter, period.succ_pos⟩ else none

/-! ## Dates of a period -/

variable (cal : Calendar D T) (r : RRule D T)

def isLeap (y : Int) : Bool := (cal.fromYmdOpt y 2 29).isSome

def weeksInIsoYear (y : Int) : Nat := ((cal.fromYmdOpt y 12 28).map cal.isoWeek).getD 52

def nextMonth (year : Int) (month : Nat) : Option (Int × Nat) :=
  if 1 ≤ month ∧ month ≤ 12 then
    if month = 12 then if year + 1 < 2 ^ 31 then some (year + 1, 1) else none
      else some (year, month + 1)
  else none

def daysInMonth (year : Int) (month : Nat) : Option Nat := do
  let first ← cal.fromYmdOpt year month 1
  let next ← nextMonth year month
  let nextFirst ← cal.fromYmdOpt next.1 next.2 1
  some (cal.daysSince nextFirst first).toNat

def daysIn (y : Int) (m : Nat) : Nat := (daysInMonth cal y m).getD 30

def allWeekdaysInMonth (y : Int) (m : Nat) (wd : Weekday) : List D :=
  ((List.range' 1 (daysIn cal y m)).filterMap (cal.fromYmdOpt y m)).filter fun d =>
    cal.weekday d == wd

def nthWeekdayInMonth (y : Int) (m : Nat) (wd : Weekday) (n : Int) : Option D :=
  let all := allWeekdaysInMonth cal y m wd
  if 0 < n then all[(n - 1).toNat]?
  else if n < 0 then
    if 0 ≤ (all.length : Int) + n then all[((all.length : Int) + n).toNat]? else none
  else none

/-- A signed position counted from the end of `total`, or from the start. -/
def monthDayMatches (list : List Int) (d : D) : Bool :=
  let dim : Int := daysIn cal (cal.year d) (cal.month d)
  let day : Int := cal.day d
  list.any fun n => (0 < n && n == day) || (n < 0 && dim + n + 1 == day)

def yearDayMatches (list : List Int) (d : D) : Bool :=
  let diy : Int := if isLeap cal (cal.year d) then 366 else 365
  let doy : Int := cal.ordinal d
  list.any fun n => (0 < n && n == doy) || (n < 0 && diy + n + 1 == doy)

def dayMatches (d : D) : Bool :=
  if r.freq = .monthly ∨ r.freq = .yearly then true
  else if r.byMonthDay ≠ [] ∧ monthDayMatches cal r.byMonthDay d = false then false
  else if r.byYearDay ≠ [] ∧ yearDayMatches cal r.byYearDay d = false then false
  else if r.byDay ≠ [] ∧ (r.byDay.any fun bd => bd.nth.isNone &&
    bd.weekday == cal.weekday d) = false ∧ r.freq ≠ .weekly then false
  else if r.byWeekNo ≠ [] then
    let wk : Int := cal.isoWeek d
    let weeksInYear : Int := weeksInIsoYear cal (cal.year d)
    r.byWeekNo.any fun n => n == wk || (n < 0 && weeksInYear + n + 1 == wk)
  else true

def weekStartOf (d : D) (wkst : Weekday) : D :=
  let back := ((cal.weekday d).numDaysFromMonday - wkst.numDaysFromMonday : Int) % 7
  (cal.checkedSubDays d back.toNat).getD d

def weekDates (period : D) : List D :=
  if r.byDay = [] then [period]
  else
    let base := weekStartOf cal period r.wkst
    ((List.range 7).filterMap (cal.checkedAddDays base)).filter fun d =>
      r.byDay.any fun bd => bd.weekday == cal.weekday d

/-- The dates of a month that `BYDAY` names. -/
def byDayDates (y : Int) (m : Nat) : List D :=
  r.byDay.flatMap fun bd =>
    match bd.nth with
    | none => allWeekdaysInMonth cal y m bd.weekday
    | some n => (nthWeekdayInMonth cal y m bd.weekday n).toList

/-- The dates of a month that `BYMONTHDAY` names; a day it does not have is left out. -/
def byMonthDayDates (y : Int) (m : Nat) : List D :=
  let dim : Int := daysIn cal y m
  r.byMonthDay.filterMap fun n =>
    let day := if 0 < n then n else dim + n + 1
    if 1 ≤ day ∧ day ≤ dim then cal.fromYmdOpt y m day.toNat else none

/-- The body that `month_dates` and the months of `year_dates` share. -/
def datesInMonth (start : D) (y : Int) (m : Nat) : List D :=
  if r.byDay ≠ [] then
    let out := byDayDates cal r y m
    if r.byMonthDay ≠ [] then out.filter (monthDayMatches cal r.byMonthDay) else out
  else if r.byMonthDay ≠ [] then byMonthDayDates cal r y m
  else (cal.fromYmdOpt y m (cal.day start)).toList

variable [LinearOrder D] [LinearOrder T]

def monthDates (start : NaiveDateTime D T) (period : D) : List D :=
  let out := datesInMonth cal r start.date (cal.year period) (cal.month period)
  sortDedup (if r.byMonth ≠ [] then out.filter fun d => cal.month d ∈ r.byMonth else out)

def byYearDayDates (y : Int) : List D :=
  let diy : Int := if isLeap cal y then 366 else 365
  r.byYearDay.filterMap fun n =>
    let doy := if 0 < n then n else diy + n + 1
    if 1 ≤ doy ∧ doy ≤ diy then cal.fromYoOpt y doy.toNat else none

def byWeekNoDates (start : D) (y : Int) : List D :=
  let weeks : Int := weeksInIsoYear cal y
  r.byWeekNo.flatMap fun n =>
    let wk := if 0 < n then n else weeks + n + 1
    if wk < 1 ∨ weeks < wk then []
    else
      let days := if r.byDay = [] then [cal.weekday start] else r.byDay.map ByDay.weekday
      days.filterMap (cal.fromIsoywdOpt y wk.toNat)

/-- `BYMONTHDAY` filters after each month what the months up to it produced. -/
def monthsDates (start : D) (y : Int) (months : List Nat) : List D :=
  months.foldl (fun out m =>
    if r.byDay ≠ [] then
      let out := out ++ byDayDates cal r y m
      if r.byMonthDay ≠ [] then out.filter (monthDayMatches cal r.byMonthDay) else out
    else out ++ datesInMonth cal r start y m) []

def yearDates (start : NaiveDateTime D T) (period : D) : List D :=
  let y := cal.year period
  -- the explicit ordinals are authoritative when there are any
  let ordinalForm := r.byYearDay ≠ [] ∨ r.byWeekNo ≠ []
  let out := byYearDayDates cal r y ++ byWeekNoDates cal r start.date y
  let months := if r.byMonth = [] then [cal.month start.date] else r.byMonth
  sortDedup (if out = [] ∧ ¬ordinalForm then monthsDates cal r start.date y months else out)

def periodDates (start : NaiveDateTime D T) (period : D) : List D :=
  match r.freq with
  | .secondly | .minutely | .hourly | .daily => [period]
  | .weekly => weekDates cal r period
  | .monthly => monthDates cal r start period
  | .yearly => yearDates cal r start period

/-! ## Candidates of a period -/

def orDefault (v : List Nat) (fallback : Nat) : List Nat :=
  if v = [] then [fallback] else sortDedup v

/-- The filters that follow the dates of a period. -/
def keptDates (start : NaiveDateTime D T) (period : D) : List D :=
  (periodDates cal r start period).filter fun d =>
    (r.byMonth = [] || r.freq = .yearly || cal.month d ∈ r.byMonth) && dayMatches cal r d

/-- The hours, minutes and seconds of each date. -/
def clockTimes (start : NaiveDateTime D T) (dates : List D) : List (D × Nat × Nat × Nat) :=
  let hours := orDefault r.byHour (cal.hour start.time)
  let minutes := orDefault r.byMinute (cal.minute start.time)
  let seconds := orDefault r.bySecond (cal.second start.time)
  dates.flatMap fun d => hours.flatMap fun h => minutes.flatMap fun mi => seconds.map fun s =>
    (d, h, mi, s)

def andHmsOpt (c : D × Nat × Nat × Nat) : Option (NaiveDateTime D T) :=
  (cal.fromHmsOpt c.2.1 c.2.2.1 c.2.2.2).map fun t => toLex (c.1, t)

/-- The body of the loops over the clock times: a candidate is charged before it is built. -/
def pushCandidate (acc : List (NaiveDateTime D T) × ExpansionBudget) (c : D × Nat × Nat × Nat) :
    Except ExpansionError (List (NaiveDateTime D T) × ExpansionBudget) := do
  let b ← acc.2.candidate cal
  .ok (acc.1 ++ (andHmsOpt cal c).toList, b)

/-- The positions of `BYSETPOS` in a list of `n`. -/
def pickedPositions (bySetPos : List Int) (n : Nat) : List Nat :=
  sortDedup (bySetPos.filterMap fun (p : Int) =>
    if 0 < p ∧ p ≤ n then some (p - 1).toNat else if p < 0 ∧
      -p ≤ n then some (n + p).toNat else none)

def selectPositions (bySetPos : List Int) (out : List (NaiveDateTime D T)) :
    List (NaiveDateTime D T) :=
  if bySetPos ≠ [] then (pickedPositions bySetPos out.length).filterMap fun i => out[i]? else out

def periodCandidates (cost : RuleCost) (start : NaiveDateTime D T) (period : D)
    (b : ExpansionBudget) :
    Except ExpansionError (List (NaiveDateTime D T) × ExpansionBudget) := do
  match checkedMul (periodDates cal r start period).length cost.filter with
  | none => .error workExhausted
  | some filtering =>
    let b ← b.work filtering
    let (out, b) ← (clockTimes cal r start (keptDates cal r start period)).foldlM
      (pushCandidate cal) ([], b)
    .ok (selectPositions r.bySetPos (sortDedup out), b)

/-! ## The walk over the periods -/

def untilBound (zone : Option (Zone D T)) : Option (NaiveDateTime D T) :=
  r.until_.map fun u =>
    match r.untilForm with
    | .date => ((cal.fromHmsOpt 23 59 59).map fun t => toLex (u.1, t)).getD (toLex u)
    | .floating => toLex u
    | .utc =>
      match zone with
      | some z => z.naiveLocal (toLex u)
      | none => toLex u

def pastUntil (zone : Option (Zone D T)) (candidate : NaiveDateTime D T) : Bool :=
  match r.until_ with
  | none => false
  | some u =>
    match r.untilForm with
    | .date | .floating => (untilBound cal r zone).any fun bound => bound < candidate
    | .utc =>
      let instant := match zone with
        | some z => z.resolveLocal candidate
        | none => some candidate
      instant.any fun i => toLex u < i

structure DateWindow (D : Type) where
  from_ : D
  to_ : D

def DateWindow.contains (w : DateWindow D) (d : D) : Bool := w.from_ ≤ d && d ≤ w.to_

/-- What the loop over the candidates of a period leaves: it returned, or the walk goes on. -/
inductive Visit (D T : Type)
  | finished (out : List (NaiveDateTime D T))
  | going (emitted : Nat) (out : List (NaiveDateTime D T))

/-- The loop over the candidates of a period. -/
def visit (zone : Option (Zone D T)) (start : NaiveDateTime D T) (w : DateWindow D) :
    List (NaiveDateTime D T) → Nat → List (NaiveDateTime D T) → ExpansionBudget →
      Except ExpansionError (Visit D T × ExpansionBudget)
  | [], emitted, out, b => .ok (.going emitted out, b)
  | dt :: dts, emitted, out, b =>
    if dt < start then visit zone start w dts emitted out b
    else if pastUntil cal r zone dt then .ok (.finished out, b)
    else if r.count.any (· ≤ emitted) then .ok (.finished out, b)
    else do
      let emitted := if r.count.isSome then emitted + 1 else emitted
      if w.contains dt.date then
        let b ← b.expandedLocal cal
        visit zone start w dts emitted (out ++ [dt]) b
      else visit zone start w dts emitted out b

def advance (period : D) : Option D :=
  let n := max r.interval 1
  match r.freq with
  | .secondly | .minutely | .hourly | .daily => cal.checkedAddDays period n
  | .weekly => do
      let days ← checkedMul n 7
      cal.checkedAddDays period days
  | .monthly => cal.checkedAddMonths period n
  | .yearly => if n * 12 < 2 ^ 32 then cal.checkedAddMonths period (n * 12) else none

/-- The first period to walk: that of `start` with a `COUNT`, else one before the window. -/
def initialPeriod (start from_ : D) : D :=
  if r.count.isSome ∨ from_ ≤ start then start
  else
    let interval := max r.interval 1
    let jumped := match r.freq with
      | .daily | .weekly =>
        let step := if r.freq = Freq.weekly then min (interval * 7) (2 ^ 64 - 1) else interval
        let elapsed := (cal.daysSince from_ start).toNat
        cal.checkedAddDays start ((elapsed / step - 1) * step)
      | .monthly | .yearly =>
        let step := if r.freq = Freq.yearly then min (interval * 12) (2 ^ 64 - 1) else interval
        let elapsed :=
          ((cal.year from_ - cal.year start) * 12 + cal.month from_ - cal.month start).toNat
        let months := (elapsed / step - 1) * step
        if months < 2 ^ 32 then cal.checkedAddMonths start months else none
      | .secondly | .minutely | .hourly => none
    jumped.getD start

/-- A whole period is past the window, with a week of slack. -/
def pastWindow (w : DateWindow D) (period : D) : Bool :=
  (cal.checkedSubDays period 7).any fun p => w.to_ < p

/-- The loop over the periods. Each is charged, so the fuel is the work that is left. -/
def expandPeriods (zone : Option (Zone D T)) (cost : RuleCost) (start : NaiveDateTime D T)
    (w : DateWindow D) :
    Nat → D → Nat → List (NaiveDateTime D T) → ExpansionBudget →
      Except ExpansionError (List (NaiveDateTime D T) × ExpansionBudget)
  | 0, _, _, _, _ => .error workExhausted
  | fuel + 1, period, emitted, out, b => do
      let b ← b.work cost.period
      let (candidates, b) ← periodCandidates cal r cost start period b
      let (outcome, b) ← visit cal r zone start w candidates emitted out b
      match outcome with
      | .finished out => .ok (out, b)
      | .going emitted out =>
        if pastWindow cal w period then .ok (out, b)
        else
          match advance cal r period with
          | none => .ok (out, b)
          | some next =>
            if next ≤ period then .error workExhausted
            else expandPeriods zone cost start w fuel next emitted out b

/-! ## The fuel of the walk -/

/-- What is charged is not given back. -/
structure Charged (b b' : ExpansionBudget) : Prop where
  max_eq : b'.maxRecurrenceWork = b.maxRecurrenceWork
  work_le : b.recurrenceWork ≤ b'.recurrenceWork

theorem Charged.refl (b : ExpansionBudget) : Charged b b := ⟨rfl, le_rfl⟩

theorem Charged.trans {a b c : ExpansionBudget} (h : Charged a b) (h' : Charged b c) :
    Charged a c :=
  ⟨h'.max_eq.trans h.max_eq, h.work_le.trans h'.work_le⟩

variable {cal r} {b b' : ExpansionBudget}

theorem spend_eq_ok {used max amount n : Nat} {limit : ExpansionLimit}
    (h : spend used max amount limit = .ok n) : n = used + amount ∧ n ≤ max := by
  unfold spend at h
  split_ifs at h with hfit hmax
  cases h
  exact ⟨rfl, not_lt.mp hmax⟩

theorem work_charged {amount : Nat} (h : b.work amount = .ok b') :
    Charged b b' ∧ b'.recurrenceWork = b.recurrenceWork + amount ∧
    b'.recurrenceWork ≤ b'.maxRecurrenceWork := by
  obtain ⟨n, hn, h⟩ := bind_eq_ok.mp h
  cases h
  obtain ⟨rfl, hle⟩ := spend_eq_ok hn
  exact ⟨⟨rfl, Nat.le_add_right _ _⟩, rfl, hle⟩

theorem bytes_charged {amount : Nat} (h : b.bytes amount = .ok b') : Charged b b' := by
  obtain ⟨n, -, h⟩ := bind_eq_ok.mp h
  cases h
  exact ⟨rfl, le_rfl⟩

theorem candidate_charged (h : b.candidate cal = .ok b') : Charged b b' := by
  obtain ⟨b1, hwork, h⟩ := bind_eq_ok.mp h
  exact (work_charged hwork).1.trans (bytes_charged h)

theorem expandedLocal_charged (h : b.expandedLocal cal = .ok b') : Charged b b' := by
  obtain ⟨n, -, h⟩ := bind_eq_ok.mp h
  exact ⟨(bytes_charged h).max_eq, (bytes_charged h).work_le⟩

theorem pushCandidates_charged {l : List (D × Nat × Nat × Nat)} :
    ∀ {acc acc' : List (NaiveDateTime D T) × ExpansionBudget},
      l.foldlM (pushCandidate cal) acc = .ok acc' → Charged acc.2 acc'.2 := by
  induction l with
  | nil =>
    intro acc acc' h
    cases h
    exact .refl _
  | cons c l ih =>
    intro acc acc' h
    obtain ⟨acc1, hpush, h⟩ := bind_eq_ok.mp h
    obtain ⟨b1, hb, hpush⟩ := bind_eq_ok.mp hpush
    cases hpush
    exact (candidate_charged hb).trans (ih h)

theorem periodCandidates_charged {cost : RuleCost} {start : NaiveDateTime D T} {period : D}
    {out : List (NaiveDateTime D T)}
    (h : periodCandidates cal r cost start period b = .ok (out, b')) : Charged b b' := by
  unfold periodCandidates at h
  split at h
  · cases h
  · obtain ⟨b1, hwork, h⟩ := bind_eq_ok.mp h
    obtain ⟨acc, hpush, h⟩ := bind_eq_ok.mp h
    cases h
    exact (work_charged hwork).1.trans (pushCandidates_charged hpush)

theorem visit_charged {zone : Option (Zone D T)} {start : NaiveDateTime D T} {w : DateWindow D}
    {dts : List (NaiveDateTime D T)} :
    ∀ {emitted : Nat} {out : List (NaiveDateTime D T)} {v : Visit D T} {b b' : ExpansionBudget},
      visit cal r zone start w dts emitted out b = .ok (v, b') → Charged b b' := by
  induction dts with
  | nil =>
    intro emitted out v b b' h
    cases h
    exact .refl _
  | cons dt dts ih =>
    intro emitted out v b b' h
    rw [visit] at h
    split at h
    · exact ih h
    split at h
    · cases h
      exact .refl _
    split at h
    · cases h
      exact .refl _
    simp only at h
    split at h
    · obtain ⟨b1, hlocal, h⟩ := bind_eq_ok.mp h
      exact (expandedLocal_charged hlocal).trans (ih h)
    · exact ih h

/-- A period costs work, so the work that is left is fuel enough: with more of it the answer is the
same. -/
theorem expandPeriods_fuel {zone : Option (Zone D T)} {cost : RuleCost} {start : NaiveDateTime D T}
    {w : DateWindow D} {fuel : Nat} :
    ∀ {fuel' : Nat} {period : D} {emitted : Nat} {out : List (NaiveDateTime D T)}
    {b : ExpansionBudget}, b.maxRecurrenceWork - b.recurrenceWork < fuel → fuel ≤ fuel' →
      expandPeriods cal r zone cost start w fuel' period emitted out b =
        expandPeriods cal r zone cost start w fuel period emitted out b := by
  induction fuel with
  | zero => exact fun h _ => absurd h (Nat.not_lt_zero _)
  | succ fuel ih =>
    intro fuel' period emitted out b hfuel hle
    obtain ⟨fuel', rfl⟩ := Nat.exists_eq_add_of_lt (Nat.lt_of_lt_of_le (Nat.succ_pos fuel) hle)
    rw [Nat.zero_add, expandPeriods, expandPeriods]
    cases hwork : b.work cost.period with
    | error e => rfl
    | ok b1 =>
      simp only [bind, Except.bind]
      obtain ⟨hcharged, hspent, hmax⟩ := work_charged hwork
      cases hdts : periodCandidates cal r cost start period b1 with
      | error e => rfl
      | ok dts =>
        simp only
        have hcharged2 := periodCandidates_charged hdts
        cases hv : visit cal r zone start w dts.1 emitted out dts.2 with
        | error e => rfl
        | ok v =>
          have hcharged3 := visit_charged hv
          have hpos := cost.period_pos
          have hmax2 := hcharged2.max_eq
          have hwork2 := hcharged2.work_le
          have hmax3 := hcharged3.max_eq
          have hwork3 := hcharged3.work_le
          have hmax1 := hcharged.max_eq
          have hleft : v.2.maxRecurrenceWork - v.2.recurrenceWork < fuel := by omega
          simp only [ih hleft (Nat.le_of_succ_le_succ (by omega : fuel + 1 ≤ fuel' + 1))]

/-! ## The walk over the clock -/

variable (cal r)

def maxSubdailySteps : Nat := 200000

def Freq.unit : Freq → Nat
  | .secondly => 1
  | .minutely => 60
  | _ => 3600

def trySeconds (n : Nat) : Except ExpansionError Nat :=
  match cal.trySeconds n with
  | some seconds => .ok seconds
  | none => .error .arithmetic

/-- The filters of a sub-daily rule. -/
def keeps (cur : NaiveDateTime D T) : Bool :=
  dayMatches cal r cur.date && (r.byMonth = [] || cal.month cur.date ∈ r.byMonth) &&
    (r.byHour = [] || cal.hour cur.time ∈ r.byHour) &&
      (r.byMinute = [] || cal.minute cur.time ∈ r.byMinute) &&
    (r.bySecond = [] || cal.second cur.time ∈ r.bySecond)

/-- A day past the projected bound of `UNTIL`. -/
def safelyPast (zone : Option (Zone D T)) (cur : NaiveDateTime D T) : Bool :=
  ((untilBound cal r zone).bind fun bound => cal.checkedAddSeconds bound 86400).any fun safeEnd =>
    safeEnd < cur

/-- A tick that is not past the window. -/
def visitTick (w : DateWindow D) (cur : NaiveDateTime D T) (emitted : Nat)
    (out : List (NaiveDateTime D T))
    (b : ExpansionBudget) : Except ExpansionError (Visit D T × ExpansionBudget) :=
  if keeps cal r cur then
    if r.count.any (· ≤ emitted) then .ok (.finished out, b)
    else do
      let emitted := if r.count.isSome then emitted + 1 else emitted
      if w.from_ ≤ cur.date then
        let b ← b.expandedLocal cal
        .ok (.going emitted (out ++ [cur]), b)
      else .ok (.going emitted out, b)
  else .ok (.going emitted out, b)

/-- The loop over the ticks, with the steps that are left. -/
def expandTicks (zone : Option (Zone D T)) (cost : RuleCost) (step : Nat) (w : DateWindow D) :
    Nat → NaiveDateTime D T → Nat → List (NaiveDateTime D T) → ExpansionBudget →
      Except ExpansionError (List (NaiveDateTime D T) × ExpansionBudget)
  | 0, _, _, _, _ => .error workExhausted
  | steps + 1, cur, emitted, out, b => do
      let b ← b.work cost.filter
      if pastUntil cal r zone cur then
        if safelyPast cal r zone cur then .ok (out, b)
        else
          match cal.checkedAddSeconds cur step with
          | none => .ok (out, b)
          | some next => expandTicks zone cost step w steps next emitted out b
      else if w.to_ < cur.date then .ok (out, b)
      else
        let (outcome, b) ← visitTick cal r w cur emitted out b
        match outcome with
        | .finished out => .ok (out, b)
        | .going emitted out =>
          match cal.checkedAddSeconds cur step with
          | none => .ok (out, b)
          | some next => expandTicks zone cost step w steps next emitted out b

/-- The first tick to walk. -/
def firstTick (start : NaiveDateTime D T) (from_ : D) (step : Nat) :
    Except ExpansionError (NaiveDateTime D T) :=
  match r.count, cal.fromHmsOpt 0 0 0 with
  | none, some midnight =>
    if start < toLex (from_, midnight) then do
      let elapsed := (cal.secondsSince (toLex (from_, midnight)) start).toNat
      let skip ← trySeconds cal (elapsed / step * step)
      match cal.checkedAddSeconds start skip with
      | some cur => .ok cur
      | none => .error .arithmetic
    else .ok start
  | _, _ => .ok start

def tickStep : Nat := r.freq.unit * max r.interval 1

def expandSubdaily (zone : Option (Zone D T)) (cost : RuleCost) (start : NaiveDateTime D T)
    (w : DateWindow D)
    (b : ExpansionBudget) : Except ExpansionError (List (NaiveDateTime D T) × ExpansionBudget) := do
  if tickStep r < 2 ^ 63 then
    let step ← trySeconds cal (tickStep r)
    let cur ← firstTick cal r start w.from_ step
    expandTicks cal r zone cost step w maxSubdailySteps cur 0 [] b
  else .error .arithmetic

/-! ## The rule -/

def Freq.isSubdaily : Freq → Bool
  | .secondly | .minutely | .hourly => true
  | _ => false

def expandRule (zone : Option (Zone D T)) (start : NaiveDateTime D T) (w : DateWindow D)
    (b : ExpansionBudget) : Except ExpansionError (List (NaiveDateTime D T) × ExpansionBudget) :=
  match RuleCost.of r with
  | none => .error workExhausted
  | some cost =>
    if r.freq.isSubdaily then expandSubdaily cal r zone cost start w b
    else
      expandPeriods cal r zone cost start w (b.maxRecurrenceWork + 1)
        (initialPeriod cal r start.date w.from_) 0 [] b

end Thegn.Recur
