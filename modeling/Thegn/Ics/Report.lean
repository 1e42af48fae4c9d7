import Thegn.Calendar.Admission
import Thegn.Ics.Event

set_option autoImplicit false

/-! # Diagnostics and effects

What the parser of a feed says about it (`IcsReport`), and what it does besides reading: it charges
a meter, records diagnostics, keeps events and cancellations, asks whether to go on, or gives up. A
step of the parser answers with the list of what it does, in the order of the source, and
`performAll` does it; the first refusal ends the parse. Nothing that the parser reads depends on
what it did before, so that a parse that is not refused has read what it would have read with any
other meter.
-/

namespace Thegn.Ics

open Thegn.Text Checked List
open Thegn.Calendar (AdmissionLimit AdmissionMeter AdmissionPool MeterProg)

/-! ## The report -/

inductive IcsDiagnostic
  | malformedLine
  | mismatchedEnd
  | unclosedChild
  | nestedEvent
  | eventWithoutStart
  | invalidEvent
  | rejectedEvent (defect : EventDefect)
  | duplicateProperty (name : Text)
  | truncated
  | missingEnvelope
  | unknownTimeZone
  | unmappedTimeZone
  | invalidRecurrenceValue (error : RecurValueError)
  deriving DecidableEq

namespace IcsDiagnostic

/-- The diagnostics after which boundaries or completeness cannot be trusted. -/
def isFailure : IcsDiagnostic → Bool
  | truncated | mismatchedEnd | nestedEvent | unclosedChild => true
  | _ => false

def isRejection : IcsDiagnostic → Bool
  | rejectedEvent _ => true
  | _ => false

end IcsDiagnostic

def maxIcsDiagnostics : Nat := 32

structure IcsReport where
  diagnostics : List IcsDiagnostic
  overflow : Nat
  documentFailure : Bool
  cancelled : List Text
  deriving DecidableEq

/-- The report of a parse that begins. -/
def IcsReport.cleared : IcsReport := ⟨[], 0, false, []⟩

def IcsReport.record (r : IcsReport) (d : IcsDiagnostic) : IcsReport :=
  let r := { r with documentFailure := r.documentFailure || d.isFailure }
  if r.diagnostics.length < maxIcsDiagnostics then { r with diagnostics := r.diagnostics ++ [d] }
  -- a rejection comes with an invalid event, which is counted
  else if d.isRejection then r
  else { r with overflow := min (r.overflow + 1) (2 ^ 64 - 1) }

@[simp] theorem documentFailure_record (r : IcsReport) (d : IcsDiagnostic) :
    (r.record d).documentFailure = (r.documentFailure || d.isFailure) := by
  simp only [IcsReport.record]
  split
  · rfl
  · split <;> rfl

/-! ## Effects -/

inductive Effect
  | check
  | beginEvent
  | chargeEvent (bytes children : Nat)
  | admitEvent
  | abandonEvent
  | record (d : IcsDiagnostic)
  /-- An event with its sequence number. -/
  | keep (event : CalEvent) (sequence : Nat)
  /-- A cancelled series with its sequence number. -/
  | bury (uid : Text) (sequence : Nat)
  | refuse (limit : AdmissionLimit)
  | panic
  deriving DecidableEq

/-- What the parser acts on: the pool and the meter, the number of checks so far, the report, and
what is kept. -/
structure World where
  pool : AdmissionPool
  meter : AdmissionMeter
  checks : Nat
  report : IcsReport
  events : List (CalEvent × Nat)
  tombstones : List (Text × Nat)

/-- The outcome of an effect; `none` where it panics. -/
abbrev Outcome := Option (Except AdmissionLimit World)

def World.metered (w : World) (prog : MeterProg Unit) : Outcome :=
  (exec prog (w.pool, w.meter)).map fun r =>
    match r.1 with
    | .ok _ => .ok { w with pool := r.2.1, meter := r.2.2 }
    | .error limit => .error limit

/-- `check` says what the calls of the cooperative check answer, one after the other. -/
def perform (check : Nat → Option AdmissionLimit) (w : World) : Effect → Outcome
  | .check =>
    match check w.checks with
    | none => some (.ok { w with checks := w.checks + 1 })
    | some limit => some (.error limit)
  | .beginEvent => w.metered AdmissionMeter.beginEvent
  | .chargeEvent bytes children => w.metered (AdmissionMeter.chargeEvent bytes children)
  | .admitEvent => w.metered AdmissionMeter.admitEvent
  | .abandonEvent => w.metered AdmissionMeter.abandonEvent
  | .record d => some (.ok { w with report := w.report.record d })
  | .keep event sequence => some (.ok { w with events := w.events ++ [(event, sequence)] })
  | .bury uid sequence => some (.ok { w with tombstones := w.tombstones ++ [(uid, sequence)] })
  | .refuse limit => some (.error limit)
  | .panic => none

def performAll (check : Nat → Option AdmissionLimit) : World → List Effect → Outcome
  | w, [] => some (.ok w)
  | w, e :: es =>
    match perform check w e with
    | some (.ok w) => performAll check w es
    | other => other

/-- The effect records a failure. -/
def Effect.isFailure : Effect → Bool
  | .record d => d.isFailure
  | _ => false

def Effect.asKept : Effect → Option (CalEvent × Nat)
  | .keep event sequence => some (event, sequence)
  | _ => none

def Effect.asBuried : Effect → Option (Text × Nat)
  | .bury uid sequence => some (uid, sequence)
  | _ => none

variable {check : Nat → Option AdmissionLimit} {w w' : World}

/-- What is known of a world before and after an effect. -/
structure After (es : List Effect) (w w' : World) : Prop where
  documentFailure : w'.report.documentFailure = (w.report.documentFailure ||
    es.any Effect.isFailure)
  events : w'.events = w.events ++ es.filterMap Effect.asKept
  tombstones : w'.tombstones = w.tombstones ++ es.filterMap Effect.asBuried

theorem after_nil (w : World) : After [] w w where
  documentFailure := by simp
  events := by simp
  tombstones := by simp

theorem After.cons {e : Effect} {es : List Effect} {v : World} (h : After [e] w v)
    (h' : After es v w') :
    After (e :: es) w w' where
  documentFailure := by
    rw [h'.documentFailure, h.documentFailure]
    simp [Bool.or_assoc]
  events := by
    rw [h'.events, h.events, append_assoc, ← filterMap_append, singleton_append]
  tombstones := by
    rw [h'.tombstones, h.tombstones, append_assoc, ← filterMap_append, singleton_append]

/-- The meter keeps nothing. -/
theorem metered_eq {prog : MeterProg Unit} (h : w.metered prog = some (.ok w')) :
    w'.report = w.report ∧ w'.events = w.events ∧ w'.tombstones = w.tombstones := by
  unfold World.metered at h
  obtain ⟨r, -, hr⟩ := Option.map_eq_some_iff.mp h
  split at hr
  · cases hr
    exact ⟨rfl, rfl, rfl⟩
  · cases hr

/-- **An effect that is done does what it says.** -/
theorem after_perform {e : Effect} (h : perform check w e = some (.ok w')) : After [e] w w' := by
  -- an effect that touches neither the report nor what is kept
  have hquiet : w'.report = w.report ∧ w'.events = w.events ∧ w'.tombstones = w.tombstones →
      e.isFailure = false → e.asKept = none → e.asBuried = none → After [e] w w' := by
    rintro ⟨hreport, hevents, htombstones⟩ hfail hkept hburied
    exact ⟨by simp [hreport, hfail], by simp [hevents, hkept], by simp [htombstones, hburied]⟩
  cases e with
  | check =>
    simp only [perform] at h
    cases hcheck : check w.checks with
    | none =>
      rw [hcheck] at h
      cases h
      exact hquiet ⟨rfl, rfl, rfl⟩ rfl rfl rfl
    | some limit =>
      rw [hcheck] at h
      cases h
  | record d =>
    cases h
    exact ⟨by simp [Effect.isFailure], by simp [Effect.asKept], by simp [Effect.asBuried]⟩
  | keep event sequence =>
    cases h
    exact ⟨by simp [Effect.isFailure], by simp [Effect.asKept], by simp [Effect.asBuried]⟩
  | bury uid sequence =>
    cases h
    exact ⟨by simp [Effect.isFailure], by simp [Effect.asKept], by simp [Effect.asBuried]⟩
  | refuse limit => cases h
  | panic => cases h
  | beginEvent => exact hquiet (metered_eq h) rfl rfl rfl
  | chargeEvent bytes children => exact hquiet (metered_eq h) rfl rfl rfl
  | admitEvent => exact hquiet (metered_eq h) rfl rfl rfl
  | abandonEvent => exact hquiet (metered_eq h) rfl rfl rfl

/-- **Effects that are all done do what they say.** -/
theorem after_performAll {es : List Effect} (h : performAll check w es = some (.ok w')) :
    After es w w' := by
  induction es generalizing w with
  | nil =>
    cases h
    exact after_nil _
  | cons e es ih =>
    rw [performAll] at h
    split at h
    · rename_i v hv
      exact (after_perform hv).cons (ih h)
    · rename_i hne
      exact absurd h (hne w')

/-- An effect that is done does not refuse. -/
theorem performAll_mem {es : List Effect} (h : performAll check w es = some (.ok w')) :
    (∀ limit, Effect.refuse limit ∉ es) ∧ Effect.panic ∉ es := by
  induction es generalizing w with
  | nil => simp
  | cons e es ih =>
    rw [performAll] at h
    split at h
    · rename_i v hv
      obtain ⟨hrefuse, hpanic⟩ := ih h
      constructor
      · intro limit hmem
        rcases mem_cons.mp hmem with rfl | hmem
        · cases hv
        · exact hrefuse limit hmem
      · intro hmem
        rcases mem_cons.mp hmem with rfl | hmem
        · cases hv
        · exact hpanic hmem
    · rename_i hne
      exact absurd h (hne w')

/-! ## Components -/

inductive ComponentName
  | calendar
  | event
  | alarm
  | timezone
  | other (hash : BitVec 64) (len : Nat)
  deriving DecidableEq

/-- The FNV hash of the bytes of a text. -/
def fnv (s : Text) : BitVec 64 :=
  (utf8 s).foldl (fun h b => (h ^^^ BitVec.ofNat 64 b.toNat) * 0x100000001b3) 0xcbf29ce484222325

namespace ComponentName

def parse (name : Text) : ComponentName :=
  let upper := Recur.upper name
  if upper = "VCALENDAR".toList then calendar
  else if upper = "VEVENT".toList then event
  else if upper = "VALARM".toList then alarm
  else if upper = "VTIMEZONE".toList then timezone
  -- the name itself is not kept
  else other (fnv upper) (byteLen name)

def «matches» (c : ComponentName) (name : Text) : Bool := decide (c = parse name)

end ComponentName

end Thegn.Ics
