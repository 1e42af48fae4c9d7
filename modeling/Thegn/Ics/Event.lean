import Thegn.Ics.Content

set_option autoImplicit false

/-! # Events of a feed

The events that `thegn-core/src/calendar/ics.rs` builds, and what is checked before one leaves it:
the values of its recurrence (`recur::diagnose_values`) and its shape (`validate::validate_event`).
What `chrono` and `chrono-tz` do, and what depends on the build, is in an `Env`.
-/

namespace Thegn.Ics

open Thegn.Text Instant Recur.Gregorian

/-- What the parser takes from outside. -/
structure Env extends Zones where
  /-- `Tz::name`. -/
  name : Tz → Text
  /-- The wall time of an instant. -/
  naiveLocal : Tz → DateTime → NaiveDateTime
  dates : Dates
  dateText : Day → Text
  dateTimeText : NaiveDateTime → Text
  rfc3339 : DateTime → Text
  /-- `size_of` of an event, a rule and a time. -/
  eventSize : Nat
  ruleSize : Nat
  timeSize : Nat
  /-- Whether the build stops where arithmetic overflows. -/
  overflowChecks : Bool
  /-- The rules of a `VTIMEZONE`: an observance, all of them, and a zone that has them. -/
  Observance : Type
  Rules : Type
  observance : Text → Text → Text → Option Text → Bool → Option Observance
  rules : List Observance → Option Rules
  matchZone : Rules → Int → Option Tz → Option Tz

/-! ## Events -/

inductive EventStatus
  | confirmed
  | tentative
  | cancelled
  deriving DecidableEq

inductive Busy
  | busy
  | free
  deriving DecidableEq

structure Reminder where
  minutesBefore : Nat
  deriving DecidableEq

abbrev RRule := Recur.RRule Day NaiveTime

structure Recurrence where
  rules : List RRule
  rdates : List EventTime
  exdates : List EventTime
  deriving DecidableEq

/-- An event; the extras are a map. -/
structure CalEvent where
  uid : Text
  title : Text
  start : EventTime
  finish : EventTime
  source : Text
  description : Text
  location : Text
  url : Text
  status : EventStatus
  busy : Busy
  calendar : Text
  category : Text
  organizer : Text
  recurrence : Option Recurrence
  recurrenceId : Option EventTime
  reminders : List Reminder
  etag : Text
  updatedAtMs : Int
  extra : List (Text × Text)
  deriving DecidableEq

/-- `CalEvent::new`. -/
def CalEvent.new (uid title : Text) (start finish : EventTime) : CalEvent where
  uid := uid
  title := title
  start := start
  finish := finish
  source := []
  description := []
  location := []
  url := []
  status := .confirmed
  busy := .busy
  calendar := []
  category := []
  organizer := []
  recurrence := none
  recurrenceId := none
  reminders := []
  etag := []
  updatedAtMs := 0
  extra := []

def CalEvent.recurrenceKey (env : Env) (e : CalEvent) : Text :=
  match e.recurrenceId with
  | none => []
  | some time => recurrenceKeyOf env.toZones time

/-! ## Spans -/

/-- The order of `NaiveDateTime`. -/
def notAfter (t t' : NaiveDateTime) : Bool :=
  decide (toLex (t.date.val, toLex (t.time.secs, t.time.frac)) ≤
    toLex (t'.date.val, toLex (t'.time.secs, t'.time.frac)))

/-- `nominal_span`, in nanoseconds. -/
def nominalSpan (env : Env) (e : CalEvent) : Option Int :=
  match e.start, e.finish with
  | .date a, .date b => if a.val ≤ b.val then some ((b.val - a.val) * 86400000000000) else none
  | .zoned a za, .zoned b zb =>
    if za = zb ∧ notAfter a b then some (env.durationSince b a) else none
  | .instant a, .instant b => if notAfter a b then some (env.durationSince b a) else none
  | _, _ => none

def dateIn (env : Env) (home : env.Tz) : EventTime → Option Day
  | .date d => some d
  | other => (other.instantIn env.toZones home .shiftForward).map fun at_ =>
    (env.naiveLocal home at_).date

def endsAtMidnight (env : Env) (home : env.Tz) : EventTime → Bool
  | .date _ => true
  | other =>
    match other.instantIn env.toZones home .shiftForward with
    | some at_ => decide ((env.naiveLocal home at_).time = midnight)
    | none => false

/-- `span_dates`, whose errors its callers do not tell apart. -/
def spanDates (env : Env) (start finish : EventTime) (home : env.Tz) : Option (Day × Day) := do
  let byInstant := do
    let a ← start.instantIn env.toZones home .shiftForward
    let b ← finish.instantIn env.toZones home .shiftForward
    some (notAfter a b)
  let ordered ← match start, finish with
    | .date a, .date b => some (decide (a.val ≤ b.val))
    | .zoned a za, .zoned b zb => if za = zb then some (notAfter a b) else byInstant
    | _, _ => byInstant
  if ordered = false then none
  else
    let first ← dateIn env home start
    let last ← dateIn env home finish
    let last ← if first.val < last.val ∧ endsAtMidnight env home finish then inRange (last.val - 1)
      else some last
    some (first, if last.val < first.val then first else last)

/-! ## Defects -/

/-- The two times are a date and a time. -/
def mixedShape : EventTime → EventTime → Bool
  | .date _, .date _ => false
  | .date _, _ => true
  | _, .date _ => true
  | _, _ => false

/-- A zone that is named and not known. -/
def unknownZone (env : Env) : EventTime → Bool
  | .zoned _ zone => decide (trim zone ≠ [] ∧ (resolveTzid env.toZones zone).isNone)
  | _ => false

inductive RecurProperty
  | rdate
  | exdate
  deriving DecidableEq

inductive RecurValueDefect
  | shapeMismatch
  | unknownZone
  deriving DecidableEq

structure RecurValueError where
  property : RecurProperty
  index : Nat
  defect : RecurValueDefect
  deriving DecidableEq

/-- The first of some values that has a defect. -/
def firstDefect (property : RecurProperty) (defect : EventTime → Option RecurValueDefect)
    (values : List EventTime) : Option RecurValueError :=
  values.zipIdx.findSome? fun v => (defect v.1).map fun d => ⟨property, v.2, d⟩

def isAllDay : EventTime → Bool
  | .date _ => true
  | _ => false

/-- The zone that a time names. -/
def zoneOf : EventTime → Option Text
  | .zoned _ zone => some zone
  | _ => none

/-- What the second loop of `diagnose_values` refuses. -/
def valueDefect (env : Env) (start value : EventTime) : Option RecurValueDefect :=
  match value with
  | .zoned _ zone =>
    if trim zone = [] ∧ isAllDay start then some .shapeMismatch
    else if unknownZone env value ∧ zoneOf start ≠ some zone then some .unknownZone
    else none
  | _ => none

def diagnoseValues (env : Env) (rec : Recurrence) (start : EventTime) : Option RecurValueError :=
  (firstDefect .rdate (fun v => if mixedShape start v then some .shapeMismatch else none)
    rec.rdates).or
    ((firstDefect .rdate (valueDefect env start) rec.rdates).or
      (firstDefect .exdate (valueDefect env start) rec.exdates))

inductive EventDefect
  | emptyUid
  | mixedShape
  | reversed
  | recurrenceShape
  | unknownZone
  deriving DecidableEq

def validateEvent (env : Env) (e : CalEvent) : Option EventDefect :=
  if trim e.uid = [] then some .emptyUid
  else if mixedShape e.start e.finish then some .mixedShape
  else if unknownZone env e.start || unknownZone env e.finish then some .unknownZone
  else if (spanDates env e.start e.finish env.utc).isNone then some .reversed
  else
    match e.recurrence with
    | none => none
    | some rec =>
      if (rec.rules ≠ [] ∨ rec.rdates ≠ [] ∨ rec.exdates ≠ []) ∧
          ((nominalSpan env e).isNone ∨ (diagnoseValues env rec e.start).isSome)
            then some .recurrenceShape
      else none

end Thegn.Ics
