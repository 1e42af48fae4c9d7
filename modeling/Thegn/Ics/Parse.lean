import Thegn.Ics.Timezones

set_option autoImplicit false

/-! # Parsing a feed

The loop of `parse_ics_window_reported` of `thegn-core/src/calendar/ics.rs`. It threads a stack of
components, the depth of the event that is being read and its builder, and the calendar's name
through the logical lines of a document. When the lines are read, versions of one occurrence and
cancelled series are sorted out by their UIDs.
-/

namespace Thegn.Ics

open Thegn.Text Instant Recur.Gregorian
open Thegn.Calendar (AdmissionLimit entryOverhead)

/-! ## The variables of the loop -/

structure Parser (env : Env) where
  found : Matches env := []
  cur : Option Builder := none
  components : List ComponentName := []
  eventDepth : Option Nat := none
  calName : Text := []
  sawCalendar : Bool := false
  closedCalendar : Bool := false

/-- What does not change during a parse. -/
structure Request (env : Env) where
  bindings : Bindings env
  defaultZone : Text
  window : Option (Day × Day)

namespace Parser

variable {env : Env} (req : Request env)

/-- A component is open in the event. -/
def inChild (p : Parser env) : Bool := p.eventDepth.any fun depth => depth < p.components.length

def inAlarm (p : Parser env) : Bool := p.inChild && decide (p.components.getLast? = some .alarm)

/-! ## Lines that are not read -/

/-- An oversized line is kept or skipped by what its first physical line shows of its name. -/
def retainsOversized (p : Parser env) (hint : Option Text) : Bool :=
  if p.cur.isNone then decide (hint = some "X-WR-CALNAME".toList)
  else
    match hint with
    | none => true
    | some n =>
      if n = "BEGIN".toList ∨ n = "END".toList then true
      else if p.inChild = false then isRetainedProperty n
      else p.inAlarm && decide (n = "TRIGGER".toList)

def oversized (p : Parser env) (raw : RawLine) : List Effect :=
  if p.retainsOversized raw.nameHint
    then [.refuse (if p.cur.isSome then .eventBytes else .lineBytes)] else []

def malformed (p : Parser env) (raw : RawLine) : Parser env × List Effect :=
  if p.components = [] then (p, [])
  else
    let doubtful :=
      decide (p.eventDepth = some p.components.length) && raw.nameHint.any isShapeProperty
    (if doubtful then { p with cur := p.cur.map Builder.quarantine } else p,
      [.record .malformedLine])

/-! ## Components -/

def tooDeep (p : Parser env) (component : ComponentName) : Bool :=
  if p.cur.isSome ∧ component ≠ .event then p.eventDepth.any fun depth =>
    maxComponentDepth ≤ p.components.length - depth
  else decide (maxComponentDepth ≤ p.components.length)

def begins (p : Parser env) (value : Text) : Parser env × List Effect :=
  let component := ComponentName.parse value
  if p.tooDeep component then (p, [.record .truncated, .refuse .nesting])
  else
    let components := p.components ++ [component]
    let sawCalendar := p.sawCalendar || decide (component = .calendar)
    if component = .event then
      ({ p with components, sawCalendar, cur := some {}, eventDepth := some components.length },
        (if p.cur.isSome then [Effect.record .nestedEvent] else []) ++
          [Effect.beginEvent, .chargeEvent (2 * env.eventSize) 0])
    else ({ p with components, sawCalendar }, [])

/-- What becomes of the event that ends. -/
def endsEvent (calName : Text) (b : Builder) : List Effect :=
  let b := b.adoptCancelledOverride
  if b.quarantined then [.record .invalidEvent, .abandonEvent]
  else if b.isSeriesTombstone then
    [.chargeEvent (byteLen b.uid) 0, .admitEvent, .bury b.uid (b.sequence.getD 0)]
  else if b.start.isNone then [.record .eventWithoutStart, .abandonEvent]
  else if req.window.any fun window => !b.mayOccurIn env window req.defaultZone then [.abandonEvent]
  else
    let extra := byteLen calName + if b.uid = [] then entryOverhead else 0
    let result := b.finished env req.defaultZone
    [Effect.chargeEvent extra 0, .admitEvent] ++ result.2 ++
      match result.1 with
      | some e => [.keep { e with calendar := calName } (b.sequence.getD 0)]
      | none => [.record .invalidEvent]

def ends (p : Parser env) (value : Text) : Parser env × List Effect :=
  let matching := lastMatch p.components value
  let mismatched := if matching.isNone then [.record .mismatchedEnd] else []
  if eqIgnoreAsciiCase value "VEVENT".toList then
    let unclosed := if p.inChild then [.record .unclosedChild] else []
    let components :=
      match p.eventDepth, matching with
      | some depth, _ => p.components.take (depth - 1)
      | none, some depth => p.components.take depth
      | none, none => p.components
    let ended :=
      match p.cur with
      | some b => endsEvent req p.calName b
      | none => [.abandonEvent]
    ({ p with components, eventDepth := none, cur := none }, mismatched ++ unclosed ++ ended)
  else
    match matching with
    | none => (p, mismatched)
    | some depth =>
      let closes :=
        decide (p.components[depth]? = some .calendar) && eqIgnoreAsciiCase value "VCALENDAR".toList
      ({ p with components := p.components.take depth,
                closedCalendar := p.closedCalendar || closes }, mismatched)

/-! ## Properties -/

/-- A trigger of an alarm; one that counts from the end is settled when the event's length is
known. -/
def triggers (env : Env) (b : Builder) (line : ContentLine) : Builder × List Effect :=
  let related := (line.param "RELATED".toList).map Recur.upper
  let toStart := decide (related = none ∨ related = some "START".toList)
  if toStart ∨ related = some "END".toList then
    match parseTriggerMinutes line.value with
    | none => (b, [])
    | some mins =>
      let lead := mins.value.toNat
      (if toStart then { b with reminders := b.reminders ++ [⟨lead⟩] }
        else { b with endReminders := b.endReminders ++ [lead] },
        (if env.overflowChecks && mins.overflowed then [Effect.panic] else []) ++
          [Effect.chargeEvent entryOverhead 1])
  else (b, [])

def reads (p : Parser env) (line : ContentLine) : Parser env × List Effect :=
  match p.cur with
  | none => (if line.name = "X-WR-CALNAME".toList then { p with calName := line.value } else p, [])
  | some b =>
    if p.inChild then
      if p.inAlarm && decide (line.name = "TRIGGER".toList) then
        let result := triggers env b line
        ({ p with cur := some result.1 }, result.2)
      else (p, [])
    else
      let result := b.property env req.bindings p.found req.defaultZone line
      ({ p with cur := some result.1, found := result.2.1 }, result.2.2)

/-! ## The loop -/

def dispatch (p : Parser env) (line : ContentLine) : Parser env × List Effect :=
  if line.name = "BEGIN".toList then p.begins line.value
  else if line.name = "END".toList then p.ends req line.value
  else p.reads req line

/-- A line that is not oversized. -/
def readText (p : Parser env) (raw : RawLine) (text : Text) : Parser env × List Effect :=
  if trim text = [] then (p, [])
  else
    match parseLine text with
    | none => p.malformed raw
    | some line => p.dispatch req line

/-- The body of the loop. -/
def step (p : Parser env) (raw : RawLine) : Parser env × List Effect :=
  let result :=
    if maxLineBytes < raw.len then (p, p.oversized raw)
    else
      match raw.text with
      | none => (p, [.panic])
      | some text => p.readText req raw text
  (result.1, .check :: result.2)

def run (p : Parser env) : List RawLine → Parser env × List Effect
  | [] => (p, [])
  | raw :: lines =>
    let first := p.step req raw
    let rest := first.1.run lines
    (rest.1, first.2 ++ rest.2)

/-- What is said when the lines are read. -/
def closing (p : Parser env) : List Effect :=
  (if p.cur.isSome ∨ p.components ≠ [] then
    .record .truncated ::
      if p.components.any fun c => decide (c ≠ .calendar ∧ c ≠ .event)
        then [.record .unclosedChild] else []
  else []) ++ if !p.sawCalendar || !p.closedCalendar then [.record .missingEnvelope] else []

end Parser

/-! ## Versions and cancellations -/

/-- The largest number of an entry with a key; a map that is filled by `and_modify` and
`or_insert`. -/
def newest {α κ : Type} [DecidableEq κ] (key : α → κ) (number : α → Nat) (entries : List α)
    (k : κ) : Option Nat :=
  ((entries.filter fun a => key a = k).map number).max?

/-- The key of an occurrence. -/
def occurrenceKey (env : Env) (entry : CalEvent × Nat) : Text × Text :=
  (entry.1.uid, entry.1.recurrenceKey env)

/-- The newest version of each occurrence. -/
def latestVersions (env : Env) (events : List (CalEvent × Nat)) : List (CalEvent × Nat) :=
  events.filter fun entry =>
    (newest (occurrenceKey env) Prod.snd events (occurrenceKey env entry)).any (· ≤ entry.2)

/-- The series whose cancellation is not older than anything that is left of them. -/
def cancelledUids (events : List (CalEvent × Nat)) (tombstones : List (Text × Nat)) : List Text :=
  (tombstones.map Prod.fst).dedup.filter fun uid =>
    (newest Prod.fst Prod.snd tombstones uid).any fun sequence =>
      (newest (fun entry : CalEvent × Nat => entry.1.uid) Prod.snd events uid).all (· ≤ sequence)

/-- What is left of the events, and the series that were cancelled. -/
def sortOut (env : Env) (events : List (CalEvent × Nat)) (tombstones : List (Text × Nat)) :
    List CalEvent × List Text :=
  let retained := latestVersions env events
  let cancelled := cancelledUids retained tombstones
  ((retained.filter fun entry => entry.1.uid ∉ cancelled).map Prod.fst,
    cancelled.mergeSort fun a b => utf8 a ≤ utf8 b)

/-! ## The parse -/

/-- A parse that was not refused: the events, and the world it leaves. -/
structure Parsed where
  out : List CalEvent
  world : World

/-- `parse_ics_window_reported`; `none` where it panics. -/
def parseIcsWindowReported (env : Env) (input defaultZone : Text) (window : Option (Day × Day))
    (out : List CalEvent)
    (check : Nat → Option AdmissionLimit) (w : World) : Option (Except AdmissionLimit Parsed) :=
  match logicalLines input with
  | none => none
  | some lines =>
    let zones := prescanTimezones env lines
    let parsed := Parser.run ⟨zones.1, defaultZone, window⟩ {} lines
    let w := { w with report := .cleared, events := [], tombstones := [] }
    match performAll check w (zones.2 ++ parsed.2 ++ parsed.1.closing) with
    | none => none
    | some (.error limit) => some (.error limit)
    | some (.ok w) =>
      let result := sortOut env w.events w.tombstones
      -- a document that ends in an event keeps nothing of it
      match w.metered Calendar.AdmissionMeter.abandonEvent with
      | none => none
      | some (.error limit) => some (.error limit)
      | some (.ok w) =>
        some (.ok ⟨out ++ result.1, { w with report := { w.report with cancelled := result.2 } }⟩)

end Thegn.Ics
