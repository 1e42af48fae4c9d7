import Thegn.Ics.Duration
import Thegn.Ics.Report

set_option autoImplicit false

/-! # One event

`Builder` of `thegn-core/src/calendar/ics.rs` collects the properties of a `VEVENT`. A property that
makes the event doubtful quarantines it: it is read on, but nothing comes of it. `finish` turns what
was collected into an event, or into nothing where the event would not be valid.
-/

namespace Thegn.Ics

open Thegn.Text Instant Recur.Gregorian
open Thegn.Calendar (entryOverhead)

structure Builder where
  uid : Text := []
  summary : Text := []
  description : Text := []
  location : Text := []
  url : Text := []
  status : Option EventStatus := none
  transp : Option Busy := none
  start : Option EventTime := none
  recurrenceId : Option EventTime := none
  finish : Option EventTime := none
  /-- In seconds. -/
  duration : Option Int := none
  durationSeen : Bool := false
  rrules : List RRule := []
  rdates : List EventTime := []
  exdates : List EventTime := []
  reminders : List Reminder := []
  endReminders : List Nat := []
  organizer : Text := []
  categories : Text := []
  lastModified : Int := 0
  sequence : Option Nat := none
  extra : List (Text × Text) := []
  seenSingletons : List Text := []
  quarantined : Bool := false
  deriving DecidableEq

/-! ## Names -/

def isShapeProperty (name : Text) : Bool :=
  name ∈ ["DTSTART".toList, "RECURRENCE-ID".toList, "DTEND".toList, "DURATION".toList,
    "RRULE".toList, "RDATE".toList, "EXDATE".toList, "UID".toList]

def singletonProperty (name : Text) : Bool :=
  name ∈ ["UID".toList, "SUMMARY".toList, "DESCRIPTION".toList, "LOCATION".toList, "URL".toList,
    "STATUS".toList,
    "TRANSP".toList, "DTSTART".toList, "RECURRENCE-ID".toList, "DTEND".toList, "DURATION".toList,
    "ORGANIZER".toList, "LAST-MODIFIED".toList, "DTSTAMP".toList, "SEQUENCE".toList]

def isExtension (name : Text) : Bool := startsWith name "X-".toList

/-- The properties that are kept, so that a line of one cannot be skipped. -/
def isRetainedProperty (name : Text) : Bool :=
  name ∈ ["UID".toList, "SUMMARY".toList, "DESCRIPTION".toList, "LOCATION".toList, "URL".toList,
    "CATEGORIES".toList,
    "ORGANIZER".toList, "STATUS".toList, "TRANSP".toList, "DTSTART".toList, "RECURRENCE-ID".toList,
    "DTEND".toList,
    "DURATION".toList, "RRULE".toList, "RDATE".toList, "EXDATE".toList, "LAST-MODIFIED".toList,
    "DTSTAMP".toList, "SEQUENCE".toList] || isExtension name

/-! ## Zones of a document -/

/-- What a `VTIMEZONE` says of its name. -/
inductive TimezoneBinding (env : Env)
  | iana (name : Text)
  | rules (rules : env.Rules)
  | unmapped

abbrev Bindings (env : Env) := List (Text × TimezoneBinding env)

/-- The zones found for rules so far, by name and year. -/
abbrev Matches (env : Env) := List ((Text × Int) × Option env.Tz)

def maxTimezoneMatches : Nat := 128

section

variable (env : Env)

/-- The zone of some rules in a year, looked up once. -/
def matchedZone (found : Matches env) (rules : env.Rules) (tzid : Text) (year : Int)
    (defaultZone : Text) : Option env.Tz × Matches env :=
  match found.find? fun entry => entry.1 == (tzid, year) with
  | some entry => (entry.2, found)
  | none =>
    if maxTimezoneMatches ≤ found.length then (none, found)
    else
      let zone := env.matchZone rules year (resolveZone env.toZones defaultZone)
      (zone, ((tzid, year), zone) :: found)

/-- The line with the zone that its `TZID` stands for, if it is known. -/
def normalizeZone (bindings : Bindings env) (found : Matches env) (defaultZone : Text)
    (line : ContentLine) : Option ContentLine × Matches env :=
  let named (zone : Text) := some (line.setParam "TZID".toList zone)
  match line.param "TZID".toList with
  | none | some [] => (some line, found)
  | some tzid =>
    match bindings.find? fun entry => entry.1 == tzid with
    | some (_, .iana name) => (named name, found)
    | some (_, .unmapped) => (none, found)
    | some (_, .rules rules) =>
      match ((line.value.splitOn ',').head?.bind (parseIcsDatetime env.dates)).map fun d =>
        yearOf d.date.val with
      | none => (none, found)
      | some year =>
        let zone := matchedZone env found rules tzid year defaultZone
        (zone.1.bind fun z => named (env.name z), zone.2)
    | none => ((resolveTzid env.toZones tzid).bind fun z => named (env.name z), found)

def takesZone (name : Text) : Bool :=
  name ∈ ["DTSTART".toList, "DTEND".toList, "RECURRENCE-ID".toList, "RDATE".toList, "EXDATE".toList]

end

/-! ## Properties -/

namespace Builder

/-- `usize` arithmetic that saturates. -/
def saturate (n : Nat) : Nat := min n (2 ^ 64 - 1)

def quarantine (b : Builder) : Builder := { b with quarantined := true }

/-- The charge for the text of a value. -/
def chargeText (line : ContentLine) : List Effect :=
  [.chargeEvent (byteLen line.value + entryOverhead) 0]

def chargeTime (line : ContentLine) : List Effect :=
  [.chargeEvent (((line.param "TZID".toList).map byteLen).getD 0 + entryOverhead) 0]

/-- A property that may stand once. -/
def seeSingleton (b : Builder) (name : Text) : Builder × List Effect :=
  if singletonProperty name then
    if name ∈ b.seenSingletons then
      let b :=
        if name ∈ ["UID".toList, "DTSTART".toList, "RECURRENCE-ID".toList, "DTEND".toList,
          "DURATION".toList] then
          b.quarantine
        else b
      (b, [.record (.duplicateProperty name)])
    else ({ b with seenSingletons := name :: b.seenSingletons }, [])
  else (b, [])

def readStatus (b : Builder) (value : Text) : Builder × List Effect :=
  let v := Recur.upper (trim value)
  if v = "TENTATIVE".toList then ({ b with status := some .tentative }, [])
  else if v = "CANCELLED".toList then ({ b with status := some .cancelled }, [])
  else if v = "CONFIRMED".toList then ({ b with status := some .confirmed }, [])
  else ({ b with status := some .confirmed }, [.record .invalidEvent])

def readTransp (b : Builder) (value : Text) : Builder × List Effect :=
  let v := Recur.upper (trim value)
  if v = "TRANSPARENT".toList then ({ b with transp := some .free }, [])
  else if v = "OPAQUE".toList then ({ b with transp := some .busy }, [])
  else ({ b with transp := none }, [.record .invalidEvent])

def readSequence (b : Builder) (value : Text) : Builder × List Effect :=
  match parseUnsigned (2 ^ 32) (trim value) with
  | some n => ({ b with sequence := some n }, [])
  | none => ({ b with sequence := none }, [.record .invalidEvent])

/-- The times of a list property. -/
def readTimes (dates : Dates) (b : Builder) (line : ContentLine) : Builder :=
  match multiTime dates line with
  | some times =>
    if line.name = "RDATE".toList then { b with rdates := b.rdates ++ times }
      else { b with exdates := b.exdates ++ times }
  | none => b.quarantine

def readRule (dates : Dates) (b : Builder) (value : Text) : Builder :=
  match Recur.RRule.parse dates value with
  | .ok r => { b with rrules := b.rrules ++ [r] }
  | .error _ => b.quarantine

/-- `extra.insert`. -/
def insertExtra (b : Builder) (name value : Text) : Builder :=
  { b with extra := b.extra.filter (fun e => !(e.1 == name)) ++ [(name, value)] }

/-- The match of `property` on the name. -/
def readProperty (env : Env) (b : Builder) (line : ContentLine) : Builder × List Effect :=
  let name := line.name
  if name = "UID".toList then ({ b with uid := line.value }, chargeText line)
  else if name = "SUMMARY".toList then ({ b with summary := line.value }, chargeText line)
  else if name = "DESCRIPTION".toList then ({ b with description := line.value }, chargeText line)
  else if name = "LOCATION".toList then ({ b with location := line.value }, chargeText line)
  else if name = "URL".toList then ({ b with url := line.value }, chargeText line)
  else if name = "CATEGORIES".toList then ({ b with categories := line.value }, chargeText line)
  else if name = "ORGANIZER".toList then
    ({ b with organizer := (stripPrefix "mailto:".toList (trim line.value)).getD line.value },
      chargeText line)
  else if name = "STATUS".toList then b.readStatus line.value
  else if name = "SEQUENCE".toList then b.readSequence line.value
  else if name = "TRANSP".toList then b.readTransp line.value
  else if name = "DTSTART".toList then
    let start := parseTime env.dates line []
    ({ b with start }, chargeTime line ++ if start.isNone then [.record .invalidEvent] else [])
  else if name = "RECURRENCE-ID".toList then
    let recurrenceId := parseTime env.dates line []
    ({ b with recurrenceId, quarantined := b.quarantined || recurrenceId.isNone }, chargeTime line)
  else if name = "DTEND".toList then
    let finish := parseTime env.dates line []
    ({ b with finish, quarantined := b.quarantined || finish.isNone }, chargeTime line)
  else if name = "DURATION".toList then
    let duration := parseDuration env.trySeconds line.value
    ({ b with durationSeen := true, duration, quarantined := b.quarantined || duration.isNone }, [])
  else if name = "RRULE".toList then
    let parts := line.value.count ',' + 1
    (b.readRule env.dates line.value,
      [.chargeEvent (saturate (env.ruleSize + parts * 8 + entryOverhead)) (saturate (parts + 1))])
  else if name = "RDATE".toList ∨ name = "EXDATE".toList then
    let n := ((line.value.splitOn ',').filter fun v => trim v ≠ []).length
    let tz := ((line.param "TZID".toList).map byteLen).getD 0
    (b.readTimes env.dates line,
      [.chargeEvent (saturate (n * (env.timeSize + tz + entryOverhead))) n])
  else if name = "LAST-MODIFIED".toList ∨ name = "DTSTAMP".toList then
    match parseIcsDatetime env.dates line.value with
    | some d => (if b.lastModified = 0 then { b with lastModified := env.timestampMillis d }
      else b, [])
    | none => (b, [])
  else if isExtension name then
    (b.insertExtra name line.value,
      [.chargeEvent (byteLen name + (byteLen line.value + entryOverhead)) 1])
  else (b, [])

/-- `Builder::property`. -/
def property (env : Env) (bindings : Bindings env) (found : Matches env) (defaultZone : Text)
    (b : Builder) (line : ContentLine) : Builder × Matches env × List Effect :=
  let zoned := if takesZone line.name then normalizeZone env bindings found defaultZone line
    else (some line, found)
  -- a zone that is not known quarantines the event, and the line is read as it is
  let b := if zoned.1.isNone then b.quarantine else b
  let unknown := if zoned.1.isNone then [.record .unknownTimeZone] else []
  let line := zoned.1.getD line
  let once := b.seeSingleton line.name
  let read := once.1.readProperty env line
  (read.1, zoned.2, unknown ++ once.2 ++ read.2)

/-! ## The end of an event -/

/-- An override that only cancels happens when the occurrence would have. -/
def adoptCancelledOverride (b : Builder) : Builder :=
  if !b.quarantined && b.start.isNone && b.finish.isNone && !b.durationSeen &&
    decide (b.status = some .cancelled)
      && decide (b.uid ≠ []) && b.recurrenceId.isSome then
    { b with start := b.recurrenceId }
  else b

def isSeriesTombstone (b : Builder) : Bool :=
  !b.quarantined && b.start.isNone && b.finish.isNone && !b.durationSeen &&
    decide (b.status = some .cancelled)
    && decide (b.uid ≠ []) && b.recurrenceId.isNone

/-- The date a time falls on. -/
def dayOf : EventTime → Day
  | .date d => d
  | .zoned wall _ => wall.date
  | .instant at_ => at_.date

def lastDay : Day := ⟨maxDay, by decide⟩

def firstDay : Day := ⟨minDay, by decide⟩

/-- `recur::series_zone`. -/
def seriesZone (env : Env) (start : EventTime) (home : env.Tz) : Option env.Tz :=
  match start with
  | .zoned _ zone => if trim zone = [] then some home else resolveTzid env.toZones zone
  | _ => some env.utc

/-- `recur::until_bound`. -/
def untilBound (env : Env) (r : RRule) (zone : Option env.Tz) : Option NaiveDateTime :=
  r.until_.map fun u =>
    match r.untilForm with
    | .date => ⟨u.1, ⟨86399, 0, by decide, midnight.frac_lt⟩⟩
    | .floating => ⟨u.1, u.2⟩
    | .utc =>
      match zone with
      | some z => env.naiveLocal z ⟨u.1, u.2⟩
      | none => ⟨u.1, u.2⟩

/-- Whether an occurrence can be in the window, or within two days of it. -/
def mayOccurIn (env : Env) (b : Builder) (window : Day × Day) (defaultZone : Text) : Bool :=
  match b.start with
  | none => false
  | some time =>
    let start := dayOf time
    let lo := (inRange (window.1.val - 2)).getD firstDay
    let hi := (inRange (window.2.val + 2)).getD lastDay
    let finish := (b.finish.map dayOf).getD
      ((inRange (start.val + (max ((b.duration.getD 0).tdiv 86400) 0 + 1))).getD lastDay)
    let span := max (finish.val - start.val) 0
    let endsIn (d : Day) := decide (lo.val ≤ ((inRange (d.val + span)).getD lastDay).val)
    let reaches (d : Day) := decide (d.val ≤ hi.val) && endsIn d
    if b.rdates.any (fun t => reaches (dayOf t)) || reaches start then true
    else if b.rrules = [] ∨ hi.val < start.val then false
    else
      let zone := seriesZone env time ((env.parse defaultZone).getD env.utc)
      b.rrules.any fun r => (untilBound env r zone).all fun u => endsIn u.date

/-- A time without a zone is in that of the account. -/
def anchor (zone : Text) : EventTime → EventTime
  | .zoned wall [] => .zoned wall zone
  | other => other

def icsKey (env : Env) : EventTime → Text
  | .date d => env.dateText d
  | .zoned wall _ => env.dateTimeText wall
  | .instant at_ => env.rfc3339 at_

/-- The UID of an event that has none of its own. -/
def madeUpUid (env : Env) (summary : Text) (start : EventTime) : Text :=
  ofNat (fnv summary).toNat ++ '@' :: icsKey env start

/-- The end of an event that starts; `none` where it cannot be represented. -/
def endOf (env : Env) (b : Builder) (start : EventTime) : Option EventTime × List Effect :=
  match b.finish with
  | some finish => (some finish, [])
  | none =>
    match start with
    | .date d =>
      match inRange (d.val + 1) with
      | none => (none, [])
      | some next =>
        match b.duration with
        | none => (some (.date next), [])
        | some seconds =>
          match if 0 < seconds ∧ seconds % 86400 = 0 then inRange (d.val + seconds / 86400)
            else none with
          | some last => (some (.date last), [])
          | none => (some (.date next), [.record .invalidEvent])
    | .zoned wall zone => ((env.addSeconds wall (b.duration.getD 0)).map (.zoned · zone), [])
    | .instant at_ => ((env.addSeconds at_ (b.duration.getD 0)).map .instant, [])

/-- Reminders before the end are reminders before the start, if they are before it. -/
def beforeStart (span : Int) (beforeEnd : Nat) : Option Reminder :=
  let minutes := beforeEnd - span.tdiv 60000000000
  if 0 ≤ minutes ∧ minutes < 2 ^ 32 then some ⟨minutes.toNat⟩ else none

/-- The event of a start and an end. -/
def event (env : Env) (b : Builder) (defaultZone : Text) (start finish : EventTime) : CalEvent :=
  let start := anchor defaultZone start
  let finish := anchor defaultZone finish
  let uid := if b.uid = [] then madeUpUid env b.summary start else b.uid
  let e := CalEvent.new uid b.summary start finish
  let span := nominalSpan env e
  let late := (span.map fun span => b.endReminders.filterMap (beforeStart span)).getD []
  { e with
    recurrenceId := b.recurrenceId.map (anchor defaultZone)
    description := b.description
    location := b.location
    url := b.url
    organizer := b.organizer
    category := b.categories
    status := b.status.getD .confirmed
    busy := b.transp.getD .busy
    reminders := b.reminders ++ late
    updatedAtMs := b.lastModified
    extra := b.extra
    recurrence :=
      if b.rrules ≠ [] ∨ b.rdates ≠ [] ∨ b.exdates ≠ [] then some ⟨b.rrules, b.rdates, b.exdates⟩
        else none }

/-- The event, if it is a valid one, and what is said about it. -/
def admitted (env : Env) (e : CalEvent) : Option CalEvent × List Effect :=
  match e.recurrence.bind fun rec => diagnoseValues env rec e.start with
  | some error => (none, [.record (.invalidRecurrenceValue error)])
  | none =>
    match validateEvent env e with
    | some defect => (none, [.record (.rejectedEvent defect)])
    | none => (some e, [])

/-- `Builder::finish`. -/
def finished (env : Env) (b : Builder) (defaultZone : Text) : Option CalEvent × List Effect :=
  if b.quarantined then (none, [])
  else
    match b.start with
    | none => (none, [])
    | some start =>
      if b.finish.isSome && b.durationSeen then (none, [])
      else
        let ending := b.endOf env start
        match ending.1 with
        | none => (none, ending.2)
        | some finish =>
          let result := admitted env (b.event env defaultZone start finish)
          (result.1, ending.2 ++ result.2)

end Builder

end Thegn.Ics
