import Thegn.Recur.Gregorian

set_option autoImplicit false

/-! # When an event happens

`EventTime` of `thegn-core/src/calendar/mod.rs` and the zone resolution of `calendar/tz.rs`. What
`chrono` computes is a parameter, and so is the zone database of `chrono-tz`: its names, the
instants of a local time, and the offset at an instant.

`recurrence_key_of` writes the instant that a `RECURRENCE-ID` names. Two of them have one key if and
only if they read alike (`recurrenceKeyOf_eq_iff`): as the same date, or as instants within a
second, or, in zones that are not known, as local times within a second.
-/

/-! ## Dates and times as texts

What `chrono` is documented to write for `%Y%m%d` and `%H%M%S`. A date is known from its text
(`formatDate_inj`). A time of day is known up to the second that its clock shows: fractions are not
written, and a leap second is the sixtieth second of its minute (`formatTime_inj`).
-/

namespace Thegn.Instant

open Text Recur Recur.Gregorian List

/-! ## Times -/

/-- `chrono::NaiveTime`: the seconds of the day, and nanoseconds that go on past a second in a leap
second. -/
structure NaiveTime where
  secs : Nat
  frac : Nat
  secs_lt : secs < 86400
  frac_lt : frac < 2000000000
  deriving DecidableEq

structure NaiveDateTime where
  date : Day
  time : NaiveTime
  deriving DecidableEq

/-- `and_hms_opt(0, 0, 0)`. -/
def midnight : NaiveTime := ⟨0, 0, by decide, by decide⟩

namespace NaiveTime

def hour (t : NaiveTime) : Nat := t.secs / 3600

def minute (t : NaiveTime) : Nat := t.secs / 60 % 60

/-- The second on the clock; a leap second is counted with the second before it. -/
def second (t : NaiveTime) : Nat := t.secs % 60 + t.frac / 1000000000

/-- The same hour, minute and second on the clock. -/
def SameClock (t t' : NaiveTime) : Prop :=
  t.hour = t'.hour ∧ t.minute = t'.minute ∧ t.second = t'.second

theorem minute_lt (t : NaiveTime) : t.minute < 100 := by
  unfold minute
  omega

theorem second_lt (t : NaiveTime) : t.second < 100 := by
  have := t.frac_lt
  unfold second
  omega

end NaiveTime

/-- The same date, and the same hour, minute and second on the clock. -/
def NaiveDateTime.SameSecond (t t' : NaiveDateTime) : Prop :=
  t.date = t'.date ∧ t.time.SameClock t'.time

/-! ## Texts -/

/-- A number with zeros before it. -/
def padded (width n : Nat) : Text := List.replicate (width - (ofNat n).length) '0' ++ ofNat n

/-- `%Y`: four digits, or a sign and at least four digits. -/
def formatYear (y : Int) : Text :=
  if 0 ≤ y ∧ y < 10000 then padded 4 y.natAbs else (if y < 0 then '-' else '+') :: padded 4 y.natAbs

/-- `%Y%m%d`. -/
def formatDate (d : Day) : Text :=
  formatYear (yearOf d.val) ++ padded 2 (monthOf d.val) ++ padded 2 (dayOf d.val)

/-- `%H%M%S`. -/
def formatTime (t : NaiveTime) : Text := padded 2 t.hour ++ padded 2 t.minute ++ padded 2 t.second

/-- `%Y%m%dT%H%M%S`. -/
def formatDateTime (t : NaiveDateTime) : Text := formatDate t.date ++ 'T' :: formatTime t.time

/-! ## Numbers with zeros before them -/

theorem ofDigitChars_padded (width n : Nat) : Nat.ofDigitChars 10 (padded width n) 0 = n := by
  rw [padded, Nat.ofDigitChars_append, Nat.ofDigitChars_replicate_zero, Nat.mul_zero]
  exact Nat.ofDigitChars_toDigits (by decide) (by decide)

theorem padded_inj {width n m : Nat} (h : padded width n = padded width m) : n = m := by
  rw [← ofDigitChars_padded width n, h, ofDigitChars_padded]

theorem isDigit_of_mem_padded {width n : Nat} {c : Char} (h : c ∈ padded width n) :
    c.isDigit = true := by
  rcases mem_append.mp h with h | h
  · rw [(mem_replicate.mp h).2]
    decide
  · exact isDigit_of_mem_ofNat h

theorem length_padded_two {n : Nat} (h : n < 100) : (padded 2 n).length = 2 := by
  have hle : (ofNat n).length ≤ 2 := (Nat.length_toDigits_le_iff (by decide) (by decide)).mpr h
  rw [padded, length_append, length_replicate]
  omega

/-- Two digits at the end are the same. -/
theorem append_padded_two_inj {p q : Text} {n m : Nat} (hn : n < 100) (hm : m < 100)
    (h : p ++ padded 2 n = q ++ padded 2 m) : p = q ∧ n = m := by
  have hlen : (padded 2 n).length = (padded 2 m).length := by
    rw [length_padded_two hn, length_padded_two hm]
  obtain ⟨hpq, hnm⟩ := append_inj' h hlen
  exact ⟨hpq, padded_inj hnm⟩

/-! ## Dates -/

/-- A number is not a number with a sign. -/
theorem padded_ne_sign {width n : Nat} {c : Char} {r : Text} (hc : c.isDigit = false) :
    padded width n ≠ c :: r := by
  intro h
  have hmem : c ∈ padded width n := by
    rw [h]
    exact .head _
  rw [isDigit_of_mem_padded hmem] at hc
  cases hc

theorem formatYear_inj {y y' : Int} (h : formatYear y = formatYear y') : y = y' := by
  have hsign : ∀ z : Int, (if z < 0 then '-' else '+' : Char).isDigit = false := by
    intro z
    split_ifs <;> rfl
  unfold formatYear at h
  by_cases hy : 0 ≤ y ∧ y < 10000
  · by_cases hy' : 0 ≤ y' ∧ y' < 10000
    · rw [if_pos hy, if_pos hy'] at h
      have := padded_inj h
      omega
    · rw [if_pos hy, if_neg hy'] at h
      exact absurd h (padded_ne_sign (hsign y'))
  · by_cases hy' : 0 ≤ y' ∧ y' < 10000
    · rw [if_neg hy, if_pos hy'] at h
      exact absurd h.symm (padded_ne_sign (hsign y))
    · rw [if_neg hy, if_neg hy', List.cons.injEq] at h
      have habs := padded_inj h.2
      have hs : (y < 0 ↔ y' < 0) := by
        by_cases hneg : y < 0
        · by_cases hneg' : y' < 0
          · simp [hneg, hneg']
          · rw [if_pos hneg, if_neg hneg'] at h
            exact absurd h.1 (by decide)
        · by_cases hneg' : y' < 0
          · rw [if_neg hneg, if_pos hneg'] at h
            exact absurd h.1 (by decide)
          · simp [hneg, hneg']
      omega

theorem monthOf_lt (d : Int) : monthOf d < 100 := by
  have := (monthIn_range (leapDay (yearOf d)) (yearDay_nonneg d)).2
  unfold monthOf
  omega

/-- A day is known from its year, its month and its day of the month. -/
theorem day_eq (d : Int) :
    d = startOf (yearOf d) + daysBefore (leapDay (yearOf d)) (monthOf d) + dayOf d - 1 := by
  have hpos := dayOf_pos d
  unfold dayOf at hpos ⊢
  unfold yearDay at hpos ⊢
  omega

/-- No month has more than 31 days. -/
theorem daysBefore_succ_le {leap : Nat} (hleap : leap ≤ 1) (m : Nat) :
    daysBefore leap (m + 1) ≤ daysBefore leap m + 31 := by
  match m with
  | 0 | 1 | 2 | 3 | 4 | 5 | 6 | 7 | 8 | 9 | 10 | 11 | 12 =>
    simp only [daysBefore]
    omega
  | m + 13 => simp [daysBefore]

theorem dayOf_lt (d : Int) : dayOf d < 100 := by
  have hlt : yearDay d < 365 + leapDay (yearOf d) := by
    have := (yearOf_spec d).2
    have := startOf_succ (yearOf d)
    unfold yearDay
    omega
  have hend := lt_daysBefore_monthIn (leapDay_le (yearOf d)) (yearDay_nonneg d) hlt
  have hmonth :=
    daysBefore_succ_le (leapDay_le (yearOf d)) (monthIn (leapDay (yearOf d)) (yearDay d))
  unfold dayOf monthOf
  omega

/-- **A date is known from its text.** -/
theorem formatDate_inj {d d' : Day} (h : formatDate d = formatDate d') : d = d' := by
  obtain ⟨h, hday⟩ := append_padded_two_inj (dayOf_lt d.val) (dayOf_lt d'.val) h
  obtain ⟨h, hmonth⟩ := append_padded_two_inj (monthOf_lt d.val) (monthOf_lt d'.val) h
  have hyear := formatYear_inj h
  apply Subtype.ext
  rw [day_eq d.val, hyear, hmonth, hday, ← day_eq d'.val]

/-! ## Times of day -/

/-- **A time of day is known up to what its clock shows.** -/
theorem formatTime_inj {t t' : NaiveTime} : formatTime t = formatTime t' ↔ t.SameClock t' := by
  constructor
  · intro h
    obtain ⟨h, hsecond⟩ := append_padded_two_inj t.second_lt t'.second_lt h
    obtain ⟨h, hminute⟩ := append_padded_two_inj t.minute_lt t'.minute_lt h
    exact ⟨padded_inj h, hminute, hsecond⟩
  · rintro ⟨hhour, hminute, hsecond⟩
    rw [formatTime, hhour, hminute, hsecond, formatTime]

theorem isDigit_of_mem_formatTime {t : NaiveTime} {c : Char} (h : c ∈ formatTime t) :
    c.isDigit = true := by
  rw [formatTime, mem_append, mem_append] at h
  rcases h with (h | h) | h <;> exact isDigit_of_mem_padded h

theorem formatDateTime_inj {t t' : NaiveDateTime} : formatDateTime t = formatDateTime t' ↔
    t.SameSecond t' := by
  have hno : ∀ t : NaiveTime, 'T' ∉ formatTime t := fun t h =>
    absurd (isDigit_of_mem_formatTime h) (by decide)
  rw [formatDateTime, formatDateTime, Separated.separated_inj (hno _) (hno _), formatTime_inj]
  constructor
  · rintro ⟨hdate, htime⟩
    exact ⟨formatDate_inj hdate, htime⟩
  · rintro ⟨hdate, htime⟩
    exact ⟨by rw [hdate], htime⟩

/-- A character of a date or a time. -/
def IsStamp (c : Char) : Prop := c.isDigit = true ∨ c = '-' ∨ c = '+' ∨ c = 'T'

instance (c : Char) : Decidable (IsStamp c) := inferInstanceAs (Decidable (_ ∨ _))

theorem mem_formatDate {d : Day} {c : Char} (h : c ∈ formatDate d) : IsStamp c := by
  rw [formatDate, mem_append, mem_append] at h
  rcases h with (h | h) | h
  · unfold formatYear at h
    split_ifs at h
    · exact .inl (isDigit_of_mem_padded h)
    · rcases mem_cons.mp h with rfl | h
      · exact .inr (.inl rfl)
      · exact .inl (isDigit_of_mem_padded h)
    · rcases mem_cons.mp h with rfl | h
      · exact .inr (.inr (.inl rfl))
      · exact .inl (isDigit_of_mem_padded h)
  · exact .inl (isDigit_of_mem_padded h)
  · exact .inl (isDigit_of_mem_padded h)

theorem mem_formatDateTime {t : NaiveDateTime} {c : Char} (h : c ∈ formatDateTime t) :
    IsStamp c := by
  rw [formatDateTime, mem_append, mem_cons] at h
  rcases h with h | rfl | h
  · exact mem_formatDate h
  · exact .inr (.inr (.inr rfl))
  · exact .inl (isDigit_of_mem_formatTime h)

end Thegn.Instant

namespace Thegn.Instant

open Text Recur Recur.Gregorian List

/-- The date and time of an instant in UTC. -/
abbrev DateTime := NaiveDateTime

/-- What `GapPolicy` does with a local time that is skipped. -/
inductive GapPolicy
  | shiftForward
  | skip
  | earliest
  deriving DecidableEq

/-- `chrono::LocalResult`, with its instants in UTC. -/
inductive LocalResult
  | none
  | single (dt : DateTime)
  | ambiguous (earlier later : DateTime)

/-! ## What is taken from outside -/

/-- What `chrono` computes. -/
structure Chrono where
  /-- `checked_add_signed`. -/
  addSeconds : NaiveDateTime → Int → Option NaiveDateTime
  /-- `signed_duration_since`, in nanoseconds. -/
  durationSince : NaiveDateTime → NaiveDateTime → Int
  timestampMillis : DateTime → Int
  /-- `%Y%m%d`. -/
  formatDate : Day → Text
  /-- `%Y%m%dT%H%M%S`. -/
  formatDateTime : NaiveDateTime → Text
  /-- `Duration::try_seconds`. -/
  trySeconds : Int → Option Int

/-- What is relied on: dates are within some 262,000 years, and known from their texts. -/
structure Chrono.Lawful (chrono : Chrono) : Prop where
  timestampMillis : ∀ t, (chrono.timestampMillis t).natAbs < 10 ^ 16
  formatDate : ∀ d d', chrono.formatDate d = chrono.formatDate d' → d = d'
  formatDateTime : ∀ t t', chrono.formatDateTime t = chrono.formatDateTime t' ↔ t.SameSecond t'
  mem_formatDate : ∀ d, ∀ c ∈ chrono.formatDate d, IsStamp c
  mem_formatDateTime : ∀ t, ∀ c ∈ chrono.formatDateTime t, IsStamp c

/-- The zone database. -/
structure Zones extends Chrono where
  Tz : Type
  utc : Tz
  /-- `str::parse::<Tz>`. -/
  parse : Text → Option Tz
  /-- `TZ_VARIANTS`, with their names. -/
  variants : List (Text × Tz)
  fromLocalDatetime : Tz → NaiveDateTime → LocalResult
  /-- The base offset and the one for daylight saving at an instant, in seconds. -/
  offsetFromUtc : Tz → DateTime → Int

/-! ## Names of zones -/

variable (zones : Zones)

def resolveZone (name : Text) : Option zones.Tz :=
  let n := trim name
  if n = [] then none
  else (zones.parse n).or ((zones.variants.find? fun tz => eqIgnoreAsciiCase tz.1 n).map (·.2))

def windowsTzAliases : List (Text × Text) :=
  [("Eastern Standard Time".toList, "America/New_York".toList),
    ("Central Standard Time".toList, "America/Chicago".toList),
    ("Mountain Standard Time".toList, "America/Denver".toList),
    ("Pacific Standard Time".toList, "America/Los_Angeles".toList),
    ("W. Europe Standard Time".toList, "Europe/Berlin".toList),
    ("GMT Standard Time".toList, "Europe/London".toList),
    ("Tokyo Standard Time".toList, "Asia/Tokyo".toList),
    ("China Standard Time".toList, "Asia/Shanghai".toList)]

/-- The zone that a path ends with. -/
def resolvePath (name : Text) : Option zones.Tz :=
  let parts := (name.dropWhile (· = '/')).splitOn '/'
  (List.range (parts.length - 1)).findSome? fun start =>
    resolveZone zones (join ['/'] (parts.drop start))

def resolveTzid (name : Text) : Option zones.Tz :=
  let name := trim name
  match resolveZone zones name with
  | some zone => some zone
  | none =>
    match windowsTzAliases.find? fun entry => eqIgnoreAsciiCase entry.1 name with
    | some entry => resolveZone zones entry.2
    | none => if name.head? = some '/' then resolvePath zones name else none

/-! ## Local times -/

/-- The loop of `gap_transition`, `n` seconds before the end of what is searched. -/
def bisect (zone : zones.Tz) (before : Int) (lo : NaiveDateTime) (n : Nat) : Option NaiveDateTime :=
  if 1 < n then do
    let mid ← zones.addSeconds lo (n / 2 : Nat)
    if zones.offsetFromUtc zone mid = before then bisect zone before mid (n - n / 2)
    else bisect zone before lo (n / 2)
  else zones.addSeconds lo n
termination_by n

/-- The instant of the transition that skips a local time, and the offset before it. -/
def gapTransition (t : NaiveDateTime) (zone : zones.Tz) : Option (NaiveDateTime × Int) := do
  let lo ← zones.addSeconds t (-54000)
  let hi ← zones.addSeconds t 54000
  let before := zones.offsetFromUtc zone lo
  if zones.offsetFromUtc zone hi = before then none
  else
    let n := (zones.durationSince hi lo / 1000000000).toNat
    (bisect zones zone before lo n).map fun hi => (hi, before)

def resolveLocal (t : NaiveDateTime) (zone : zones.Tz) (gap : GapPolicy) : Option DateTime :=
  match zones.fromLocalDatetime zone t with
  | .single dt => some dt
  | .ambiguous earlier _ => some earlier
  | .none =>
    match gap with
    | .skip => none
    | .shiftForward => do
        let (_, before) ← gapTransition zones t zone
        zones.addSeconds t (-before)
    | .earliest => do
        let (transition, _) ← gapTransition zones t zone
        zones.addSeconds transition (-1)

/-! ## Event times -/

inductive EventTime
  | date (date : Day)
  | zoned (wall : NaiveDateTime) (zone : Text)
  | instant (at_ : DateTime)
  deriving DecidableEq

inductive InstantError
  | unknownZone
  | nonexistent
  deriving DecidableEq

def EventTime.tryInstantIn (home : zones.Tz) (gap : GapPolicy) :
    EventTime → Except InstantError DateTime
  | .instant at_ => .ok at_
  | .date d =>
    match resolveLocal zones ⟨d, midnight⟩ home gap with
    | some dt => .ok dt
    | none => .error .nonexistent
  | .zoned wall zone =>
    match if trim zone = [] then some home else resolveTzid zones zone with
    | none => .error .unknownZone
    | some z =>
      match resolveLocal zones wall z gap with
      | some dt => .ok dt
      | none => .error .nonexistent

def EventTime.instantIn (home : zones.Tz) (gap : GapPolicy) (t : EventTime) : Option DateTime :=
  (t.tryInstantIn zones home gap).toOption

/-! ## Recurrence keys -/

def recurrenceKeyOf (t : EventTime) : Text :=
  match t with
  | .date d => zones.formatDate d
  | timed =>
    match timed.instantIn zones zones.utc .shiftForward with
    | some at_ => zones.formatDateTime at_ ++ ['Z']
    | none =>
      match timed with
      | .date d => zones.formatDate d
      | .zoned wall _ => 'L' :: zones.formatDateTime wall
      | .instant at_ => 'L' :: zones.formatDateTime at_

/-- What a recurrence key keeps of a time. -/
inductive Reading
  | date (d : Day)
  | instant (at_ : DateTime)
  | wall (t : NaiveDateTime)

def EventTime.reading : EventTime → Reading
  | .date d => .date d
  | .instant at_ => .instant at_
  | .zoned wall zone =>
    match (EventTime.zoned wall zone).instantIn zones zones.utc .shiftForward with
    | some at_ => .instant at_
    | none => .wall wall

/-- The same date, or a date and a time of the same kind within a second. -/
def Reading.Alike : Reading → Reading → Prop
  | .date d, .date d' => d = d'
  | .instant t, .instant t' => t.SameSecond t'
  | .wall t, .wall t' => t.SameSecond t'
  | _, _ => False

def Reading.text : Reading → Text
  | .date d => zones.formatDate d
  | .instant t => zones.formatDateTime t ++ ['Z']
  | .wall t => 'L' :: zones.formatDateTime t

theorem recurrenceKeyOf_eq (t : EventTime) :
    recurrenceKeyOf zones t = (t.reading zones).text zones := by
  cases t with
  | date d => rfl
  | instant at_ => rfl
  | zoned wall zone =>
    rw [recurrenceKeyOf, EventTime.reading]
    cases (EventTime.zoned wall zone).instantIn zones zones.utc .shiftForward with
    | none => rfl
    | some at_ => rfl

/-! ## What a key tells apart -/

variable {zones} (law : zones.Lawful)
include law

theorem not_mem_formats {c : Char} (hc : ¬ IsStamp c) :
    (∀ d, c ∉ zones.formatDate d) ∧ ∀ t, c ∉ zones.formatDateTime t :=
  ⟨fun d h => hc (law.mem_formatDate d c h), fun t h => hc (law.mem_formatDateTime t c h)⟩

/-- The letters tell the three kinds of texts apart: a `Z` is in an instant only, an `L` in a local
time only. -/
theorem mem_text (r : Reading) : ('Z' ∈ r.text zones ↔ ∃ t, r = .instant t) ∧
    ('L' ∈ r.text zones ↔ ∃ t, r = .wall t) := by
  obtain ⟨hz, hz'⟩ := not_mem_formats law (c := 'Z') (by decide)
  obtain ⟨hl, hl'⟩ := not_mem_formats law (c := 'L') (by decide)
  cases r with
  | date d => simp [Reading.text, hz, hl]
  | instant t => simp [Reading.text, hl']
  | wall t => simp [Reading.text, hz']

theorem text_inj {r r' : Reading} : r.text zones = r'.text zones ↔ r.Alike r' := by
  constructor
  · intro h
    obtain ⟨hz, hl⟩ := mem_text law r
    obtain ⟨hz', hl'⟩ := mem_text law r'
    rw [h] at hz hl
    have hinstant : (∃ t, r = .instant t) ↔ ∃ t, r' = .instant t := hz.symm.trans hz'
    have hwall : (∃ t, r = .wall t) ↔ ∃ t, r' = .wall t := hl.symm.trans hl'
    cases r with
    | date d =>
      cases r' with
      | date d' => exact law.formatDate _ _ h
      | instant t' => simp at hinstant
      | wall t' => simp at hwall
    | instant t =>
      obtain ⟨t', rfl⟩ := hinstant.mp ⟨t, rfl⟩
      exact (law.formatDateTime _ _).mp (append_cancel_right h)
    | wall t =>
      obtain ⟨t', rfl⟩ := hwall.mp ⟨t, rfl⟩
      exact (law.formatDateTime _ _).mp (List.cons.inj h).2
  · intro h
    cases r with
    | date d =>
      cases r' with
      | date d' => rw [show d = d' from h]
      | instant t' => exact h.elim
      | wall t' => exact h.elim
    | instant t =>
      cases r' with
      | date d' => exact h.elim
      | instant t' => rw [Reading.text, (law.formatDateTime _ _).mpr h, Reading.text]
      | wall t' => exact h.elim
    | wall t =>
      cases r' with
      | date d' => exact h.elim
      | instant t' => exact h.elim
      | wall t' => rw [Reading.text, (law.formatDateTime _ _).mpr h, Reading.text]

/-- **What a recurrence key tells apart.** -/
theorem recurrenceKeyOf_eq_iff (t t' : EventTime) :
    recurrenceKeyOf zones t = recurrenceKeyOf zones t' ↔
    (t.reading zones).Alike (t'.reading zones) := by
  rw [recurrenceKeyOf_eq, recurrenceKeyOf_eq]
  exact text_inj law

/-- A letter that is in no recurrence key. -/
theorem not_mem_recurrenceKeyOf {t : EventTime} {c : Char} (hc : ¬ IsStamp c ∧ c ≠ 'Z' ∧ c ≠ 'L') :
    c ∉ recurrenceKeyOf zones t := by
  obtain ⟨hdate, htime⟩ := not_mem_formats law hc.1
  rw [recurrenceKeyOf_eq]
  cases t.reading zones with
  | date d => exact hdate d
  | instant t => simp [Reading.text, htime, hc.2.1]
  | wall t => simp [Reading.text, htime, hc.2.2]

omit law

/-! ## As documented -/

/-- Where `chrono` counts from, the first of January 1970. -/
def epoch : Int := 719163

/-- `chrono` as it is documented. A time that is in a leap second leaves it before it is moved, the
time between two others is that of their clocks, and a duration has at most as many milliseconds as
fit in an `i64`, either way. -/
def chrono : Chrono where
  addSeconds t n :=
    if n = 0 then some t
    else
      let leap := 1000000000 ≤ t.time.frac
      let secs : Int := t.time.secs + n + if leap ∧ n < 0 then 1 else 0
      (inRange (t.date.val + secs / 86400)).map fun d =>
        ⟨d, (secs % 86400).toNat, if leap then t.time.frac - 1000000000 else t.time.frac, by omega,
          by
            have := t.time.frac_lt
            split_ifs <;> omega⟩
  durationSince t t' :=
    ((t.date.val - t'.date.val) * 86400 + (t.time.secs - t'.time.secs)) * 1000000000 +
      (t.time.frac - t'.time.frac)
  timestampMillis t :=
    ((t.date.val - epoch) * 86400 + t.time.secs) * 1000 + (t.time.frac / 1000000 : Nat)
  formatDate := formatDate
  formatDateTime := formatDateTime
  trySeconds n := if n.natAbs * 1000 < 2 ^ 63 then some n else none

theorem chrono_lawful : chrono.Lawful where
  timestampMillis t := by
    obtain ⟨hmin, hmax⟩ := t.date.property
    have hsecs := t.time.secs_lt
    have hfrac := t.time.frac_lt
    simp only [minDay, maxDay, startOf] at hmin hmax
    simp only [chrono, epoch]
    omega
  formatDate _ _ := formatDate_inj
  formatDateTime _ _ := formatDateTime_inj
  mem_formatDate _ _ := mem_formatDate
  mem_formatDateTime _ _ := mem_formatDateTime

/-- A database of one zone. -/
def utcOnly : Zones where
  toChrono := chrono
  Tz := Unit
  utc := ()
  parse n := if n = "UTC".toList then some () else none
  variants := [("UTC".toList, ())]
  fromLocalDatetime _ t := .single t
  offsetFromUtc _ _ := 0

end Thegn.Instant
