import Thegn.Calendar.Instant
import Thegn.Lib.Windows

set_option autoImplicit false

/-! # Reminders

`due_refs` of `thegn-core/src/calendar/reminders.rs` picks the reminders whose trigger is in the
window since the last check, and `source_ref` names each of them for the table of claims that
outlives a restart.

Checks that are at most an hour apart fire each reminder once (`fired_perm`). Names are another
matter: nothing is escaped in them, so that a UID can read like an override of another event, or a
source like the beginning of a UID (`Confused`). `firesEachOnce_iff` says that this is all that can
go wrong.
-/

namespace Thegn.Reminders

open Text Instant Windows Separated List

/-! ## Events -/

inductive EventStatus
  | confirmed
  | tentative
  | cancelled
  deriving DecidableEq

structure Reminder where
  minutesBefore : Nat
  deriving DecidableEq

/-- The fields of an event that a reminder needs. -/
structure CalEvent where
  uid : Text
  title : Text
  start : EventTime
  source : Text
  location : Text
  url : Text
  status : EventStatus
  recurrenceId : Option EventTime
  reminders : List Reminder
  deriving DecidableEq

variable (zones : Zones)

/-- `EventId::new`. -/
def eventId (source uid : Text) : Text := source ++ '/' :: uid

def recurrenceSuffix : Text := ";RECURRENCE-ID=".toList

namespace CalEvent

def recurrenceKey (e : CalEvent) : Text :=
  match e.recurrenceId with
  | none => []
  | some time => recurrenceKeyOf zones time

def id (e : CalEvent) : Text :=
  let base := eventId e.source e.uid
  match e.recurrenceId with
  | none => base
  | some _ => base ++ recurrenceSuffix ++ e.recurrenceKey zones

end CalEvent

/-! ## What is due -/

def maxLeadMins : Nat := 28 * 24 * 60

structure DueReminder where
  eventId : Text
  title : Text
  location : Text
  url : Text
  occurrenceStartMs : Int
  triggerMins : Nat
  startsInMins : Int
  deriving DecidableEq

def DueReminder.sourceRef (d : DueReminder) : Text :=
  "cal:".toList ++ d.eventId ++ '@' :: ofInt d.occurrenceStartMs ++ '+' :: ofNat d.triggerMins

/-- An `i64`. -/
def IsI64 (n : Int) : Prop := -9223372036854775808 ≤ n ∧ n ≤ 9223372036854775807

instance (n : Int) : Decidable (IsI64 n) := inferInstanceAs (Decidable (_ ∧ _))

/-- `i64::saturating_sub`. -/
def saturatingSub (a b : Int) : Int := max (-9223372036854775808) (min 9223372036854775807 (a - b))

/-- `i64::clamp`. -/
def clamp (n lo hi : Int) : Int := if n < lo then lo else if hi < n then hi else n

def remindersOf (defaults : List Reminder) (e : CalEvent) : List Reminder :=
  if e.reminders = [] then defaults else e.reminders

def remind (e : CalEvent) (startMs since now : Int) (r : Reminder) : Option DueReminder :=
  if maxLeadMins < r.minutesBefore then none
  else
    let trigger := saturatingSub startMs (r.minutesBefore * 60000)
    if since < trigger ∧ trigger ≤ now then
      some
        { eventId := e.id zones
          title := e.title
          location := e.location
          url := e.url
          occurrenceStartMs := startMs
          triggerMins := r.minutesBefore
          startsInMins := (startMs - now).tdiv 60000 }
    else none

/-- The reminders of one event. -/
def dueEvent (home : zones.Tz) (defaults : List Reminder) (since now : Int) (e : CalEvent) :
    List DueReminder :=
  if e.status = .cancelled then []
  else
    match e.start.instantIn zones home .shiftForward with
    | none => []
    | some start =>
      (remindersOf defaults e).filterMap (remind zones e (zones.timestampMillis start) since now)

def sortKey (d : DueReminder) : Int ×ₗ Nat := toLex (d.occurrenceStartMs, d.triggerMins)

def due (events : List CalEvent) (home : zones.Tz) (defaults : List Reminder)
    (lastChecked now : Int) : List DueReminder :=
  let since := clamp lastChecked (saturatingSub now 3600000) now
  (events.flatMap (dueEvent zones home defaults since now)).mergeSort fun d d' =>
    sortKey d ≤ sortKey d'

/-- What the checks fire one after the other. -/
def fired (events : List CalEvent) (home : zones.Tz) (defaults : List Reminder) (first : Int)
    (checks : List Int) : List DueReminder :=
  (windows first checks).flatMap fun w => due zones events home defaults w.1 w.2

/-! ## What is owed -/

/-- A reminder of an occurrence. -/
structure Occasion where
  event : CalEvent
  startMs : Int
  lead : Nat
  deriving DecidableEq

namespace Occasion

def trigger (o : Occasion) : Int := o.startMs - o.lead * 60000

def entry (o : Occasion) (now : Int) : DueReminder where
  eventId := o.event.id zones
  title := o.event.title
  location := o.event.location
  url := o.event.url
  occurrenceStartMs := o.startMs
  triggerMins := o.lead
  startsInMins := (o.startMs - now).tdiv 60000

end Occasion

/-- The supported reminders of an event; one that is cancelled, or that never starts, has none. -/
def occasionsOf (home : zones.Tz) (defaults : List Reminder) (e : CalEvent) : List Occasion :=
  if e.status = .cancelled then []
  else
    match e.start.instantIn zones home .shiftForward with
    | none => []
    | some start =>
      ((remindersOf defaults e).filter fun r => r.minutesBefore ≤ maxLeadMins).map fun r =>
        ⟨e, zones.timestampMillis start, r.minutesBefore⟩

/-- The reminders whose trigger is between the first check and the last one. -/
def owed (events : List CalEvent) (home : zones.Tz) (defaults : List Reminder) (first : Int)
    (checks : List Int) : List Occasion :=
  (events.flatMap (occasionsOf zones home defaults)).filter fun o =>
    Within first (final first checks) o.trigger

/-- Checks in order, at most an hour apart. -/
structure IsRun (first : Int) (checks : List Int) : Prop where
  range : ∀ t ∈ first :: checks, IsI64 t
  gaps : List.IsChain (fun t t' => t < t' ∧ t' - t ≤ 3600000) (first :: checks)

/-- What a recurrence id names: a day, a moment, or a local time in a zone that is not known. -/
inductive Instance
  | day (d : Recur.Gregorian.Day)
  | moment (t : DateTime)
  | unresolved (wall : NaiveDateTime) (zone : Text)
  deriving DecidableEq

def instanceOf (home : zones.Tz) : EventTime → Instance
  | .date d => .day d
  | .instant t => .moment t
  | .zoned wall zone =>
    match (EventTime.zoned wall zone).instantIn zones home .shiftForward with
    | some t => .moment t
    | none => .unresolved wall zone

/-- What tells two reminders apart. -/
structure Identity where
  source : Text
  uid : Text
  recurrence : Option Instance
  startMs : Int
  lead : Nat
  deriving DecidableEq

def Occasion.identity (home : zones.Tz) (o : Occasion) : Identity :=
  ⟨o.event.source, o.event.uid, o.event.recurrenceId.map (instanceOf zones home), o.startMs, o.lead⟩

/-- An entry without the time that is left at the check. -/
def DueReminder.subject (d : DueReminder) : DueReminder := { d with startsInMins := 0 }

/-- **Each reminder fires once**: the entries are those that are owed, and different reminders have
different names. -/
structure FiresEachOnce (events : List CalEvent) (home : zones.Tz) (defaults : List Reminder)
    (first : Int)
    (checks : List Int) : Prop where
  once : ((fired zones events home defaults first checks).map DueReminder.subject).Perm
    ((owed zones events home defaults first checks).map fun o => (o.entry zones first).subject)
  apart : ∀ o ∈ owed zones events home defaults first checks,
    ∀ o' ∈ owed zones events home defaults first checks,
    o.identity zones home ≠ o'.identity zones home →
      ∀ now now', (o.entry zones now).sourceRef ≠ (o'.entry zones now').sourceRef

/-! ## What is confused -/

/-- The part of an id after the source. -/
def CalEvent.tail (e : CalEvent) : Text :=
  match e.recurrenceId with
  | none => e.uid
  | some time => e.uid ++ recurrenceSuffix ++ recurrenceKeyOf zones time

/-- A UID that reads like an override of another event. -/
def ReadsAsOverride (e e' : CalEvent) : Prop :=
  e.source = e'.source ∧ e.recurrenceId = none ∧
    ∃ time, e'.recurrenceId = some time ∧ e.uid = e'.uid ++ recurrenceSuffix ++
      recurrenceKeyOf zones time

/-- A source that goes on in the UID of another. -/
def RunsOn (e e' : CalEvent) : Prop :=
  Overruns '/' e.source (e.tail zones) e'.source (e'.tail zones)

/-- Overrides of different occurrences whose recurrence ids read alike. -/
def ReadsAlike (home : zones.Tz) (e e' : CalEvent) : Prop :=
  e.source = e'.source ∧ e.uid = e'.uid ∧
    ∃ time time', e.recurrenceId = some time ∧ e'.recurrenceId = some time' ∧
      instanceOf zones home time ≠ instanceOf zones home time' ∧
        (time.reading zones).Alike (time'.reading zones)

/-- **Two reminders with one name.** -/
def Confused (home : zones.Tz) (o o' : Occasion) : Prop :=
  o.startMs = o'.startMs ∧ o.lead = o'.lead ∧
    ((ReadsAsOverride zones o.event o'.event ∨ ReadsAsOverride zones o'.event o.event) ∨
      (RunsOn zones o.event o'.event ∨ RunsOn zones o'.event o.event) ∨
        ReadsAlike zones home o.event o'.event)

/-! ## Each entry once -/

variable {zones} {home : zones.Tz} {defaults : List Reminder} {events : List CalEvent} {first : Int}
  {checks : List Int}

/-- No saturation: an instant is far from the ends of an `i64`, even less the longest lead. -/
theorem saturatingSub_lead {millis : Int} (hmillis : millis.natAbs < 10 ^ 16) {lead : Nat}
    (h : lead ≤ maxLeadMins) :
    saturatingSub millis (lead * 60000) = millis - lead * 60000 := by
  unfold maxLeadMins at h
  unfold saturatingSub
  omega

theorem remind_eq (e : CalEvent) {millis : Int} (hmillis : millis.natAbs < 10 ^ 16)
    (since now : Int) (r : Reminder) :
    remind zones e millis since now r =
      if r.minutesBefore ≤ maxLeadMins ∧
      Within since now (Occasion.trigger ⟨e, millis, r.minutesBefore⟩) then
        some (Occasion.entry zones ⟨e, millis, r.minutesBefore⟩ now)
      else none := by
  unfold remind
  by_cases hlead : r.minutesBefore ≤ maxLeadMins
  · rw [if_neg (by omega), saturatingSub_lead hmillis hlead]
    by_cases hw : Within since now (Occasion.trigger ⟨e, millis, r.minutesBefore⟩)
    · rw [if_pos (c := _ ∧ Within _ _ _) ⟨hlead, hw⟩]
      exact if_pos hw
    · rw [if_neg (c := _ ∧ Within _ _ _) fun h => hw h.2]
      exact if_neg hw
  · rw [if_pos (by omega), if_neg fun h => hlead h.1]

/-- The reminders of an event are its occasions in the window. -/
theorem dueEvent_eq (law : zones.Lawful) (since now : Int) (e : CalEvent) :
    dueEvent zones home defaults since now e =
      ((occasionsOf zones home defaults e).filter fun o => Within since now o.trigger).map fun o =>
        o.entry zones now := by
  unfold dueEvent occasionsOf
  by_cases hstatus : e.status = .cancelled
  · rw [if_pos hstatus, if_pos hstatus]
    rfl
  · rw [if_neg hstatus, if_neg hstatus]
    cases e.start.instantIn zones home .shiftForward with
    | none => rfl
    | some start =>
      dsimp only
      induction remindersOf defaults e with
      | nil => rfl
      | cons r rs ih =>
        rw [filterMap_cons, ih, remind_eq e (law.timestampMillis start)]
        by_cases hlead : r.minutesBefore ≤ maxLeadMins
        · rw [filter_cons_of_pos (by simpa using hlead), map_cons]
          by_cases hw :
            Within since now (Occasion.trigger ⟨e, zones.timestampMillis start, r.minutesBefore⟩)
          · rw [if_pos ⟨hlead, hw⟩, filter_cons_of_pos (by simpa using hw), map_cons]
          · rw [if_neg fun h => hw h.2, filter_cons_of_neg (by simpa using hw)]
        · rw [if_neg fun h => hlead h.1, filter_cons_of_neg (by simpa using hlead)]

/-- The clamp changes nothing within an hour. -/
theorem clamp_eq {last now : Int} (hlast : IsI64 last) (hnow : IsI64 now) (hle : last ≤ now)
    (hhour : now - last ≤ 3600000) : clamp last (saturatingSub now 3600000) now = last := by
  unfold IsI64 at hlast hnow
  unfold clamp saturatingSub
  rw [if_neg (by omega), if_neg (by omega)]

/-- A check fires the occasions of its window. -/
theorem due_perm (law : zones.Lawful) {last now : Int} (hlast : IsI64 last) (hnow : IsI64 now)
    (hle : last ≤ now) (hhour : now - last ≤ 3600000) :
    (due zones events home defaults last now).Perm
      (((events.flatMap (occasionsOf zones home defaults)).filter fun o =>
        Within last now o.trigger).map
        fun o => o.entry zones now) := by
  unfold due
  refine (mergeSort_perm _ _).trans ?_
  rw [clamp_eq hlast hnow hle hhour]
  apply List.Perm.of_eq
  calc events.flatMap (dueEvent zones home defaults last now)
      = events.flatMap fun e =>
          ((occasionsOf zones home defaults e).filter fun o => Within last now o.trigger).map
            fun o => o.entry zones now :=
        flatMap_congr fun e _ => dueEvent_eq law last now e
    _ = ((events.flatMap (occasionsOf zones home defaults)).filter fun o =>
      Within last now o.trigger).map
          fun o => o.entry zones now := by
        rw [filter_flatMap, map_flatMap]

/-- **The checks of a run fire what is owed.** -/
theorem fired_perm (law : zones.Lawful) (hrun : IsRun first checks) :
    ((fired zones events home defaults first checks).map DueReminder.subject).Perm
      ((owed zones events home defaults first checks).map fun o =>
        (o.entry zones first).subject) := by
  -- window by window, then all windows together
  have hwindows : ∀ w ∈ windows first checks,
      ((due zones events home defaults w.1 w.2).map DueReminder.subject).Perm
        (((events.flatMap (occasionsOf zones home defaults)).filter fun o =>
          Within w.1 w.2 o.trigger).map
          fun o => (o.entry zones first).subject) := by
    intro w hw
    obtain ⟨hfrom, hto⟩ := mem_windows hw
    obtain ⟨hlt, hhour⟩ := rel_of_mem_windows hrun.gaps hw
    have hdue : (due zones events home defaults w.1 w.2).Perm _ :=
      due_perm law (hrun.range _ hfrom) (hrun.range _ hto) hlt.le hhour
    have hsubjects := hdue.map DueReminder.subject
    rwa [map_map] at hsubjects
  have hordered : List.IsChain (· ≤ ·) (first :: checks) := hrun.gaps.imp fun _ _ h => h.1.le
  rw [fired, map_flatMap]
  refine (List.Perm.flatMap_left _ hwindows).trans ?_
  rw [← map_flatMap]
  exact (perm_windows Occasion.trigger _ hordered).map _

/-! ## Different names -/

/-- The id of an event is its source and the rest. -/
theorem id_eq (e : CalEvent) : e.id zones = e.source ++ '/' :: e.tail zones := by
  unfold CalEvent.id CalEvent.tail CalEvent.recurrenceKey eventId
  cases e.recurrenceId with
  | none => rfl
  | some time => simp

theorem sourceRef_eq (d : DueReminder) :
    d.sourceRef = ("cal:".toList ++ (d.eventId ++ '@' :: ofInt d.occurrenceStartMs)) ++ '+' ::
      ofNat d.triggerMins := by
  have hassoc := append_assoc "cal:".toList d.eventId ('@' :: ofInt d.occurrenceStartMs)
  exact congrArg (· ++ '+' :: ofNat d.triggerMins) hassoc

theorem ofInt_inj {n m : Int} (h : ofInt n = ofInt m) : n = m := by
  have hn : parseSigned (n.natAbs + m.natAbs + 1) (ofInt n) = some n :=
    parseSigned_ofInt (by omega) (by omega)
  rw [h, parseSigned_ofInt (by omega) (by omega)] at hn
  exact (Option.some.inj hn).symm

theorem ofNat_inj {n m : Nat} (h : ofNat n = ofNat m) : n = m := by
  rw [← Nat.ofDigitChars_toDigits (b := 10) (n := n) (by decide) (by decide),
    ← Nat.ofDigitChars_toDigits (b := 10) (n := m) (by decide) (by decide)]
  exact congrArg (fun digits => Nat.ofDigitChars 10 digits 0) h

theorem not_mem_ofInt (n : Int) {c : Char} (hc : c.isDigit = false ∧ c ≠ '-') : c ∉ ofInt n := by
  intro h
  rcases mem_ofInt h with h | h
  · rw [h] at hc
    cases hc.1
  · exact hc.2 h

/-- **A name is the id, the start and the lead.** -/
theorem sourceRef_inj {d d' : DueReminder} :
    d.sourceRef = d'.sourceRef ↔
      d.eventId = d'.eventId ∧ d.occurrenceStartMs = d'.occurrenceStartMs ∧
      d.triggerMins = d'.triggerMins := by
  rw [sourceRef_eq, sourceRef_eq, separated_inj (not_mem_ofNat (by decide))
    (not_mem_ofNat (by decide)), append_cancel_left_eq, separated_inj (not_mem_ofInt _ (by decide))
      (not_mem_ofInt _ (by decide))]
  constructor
  · rintro ⟨⟨hid, hstart⟩, hlead⟩
    exact ⟨hid, ofInt_inj hstart, ofNat_inj hlead⟩
  · rintro ⟨hid, hstart, hlead⟩
    exact ⟨⟨hid, by rw [hstart]⟩, by rw [hlead]⟩

/-- A recurrence key has no semicolon, so that the last one of a tail is that of its key. -/
theorem override_inj (law : zones.Lawful) {uid uid' : Text} {time time' : EventTime} :
    uid ++ recurrenceSuffix ++ recurrenceKeyOf zones time =
      uid' ++ recurrenceSuffix ++ recurrenceKeyOf zones time' ↔
      uid = uid' ∧ (time.reading zones).Alike (time'.reading zones) := by
  have hsemi : ∀ t : EventTime, ';' ∉ "RECURRENCE-ID=".toList ++ recurrenceKeyOf zones t := by
    intro t h
    rcases mem_append.mp h with h | h
    · exact absurd h (by decide)
    · exact not_mem_recurrenceKeyOf law (by decide) h
  have hsplit : ∀ (u : Text) (t : EventTime), u ++ recurrenceSuffix ++ recurrenceKeyOf zones t =
      u ++ ';' :: ("RECURRENCE-ID=".toList ++ recurrenceKeyOf zones t) := by
    intro u t
    rw [append_assoc]
    rfl
  rw [hsplit, hsplit, separated_inj (hsemi time) (hsemi time'), append_cancel_left_eq,
    recurrenceKeyOf_eq_iff law]

/-- One source, and one rest. -/
theorem tail_eq_iff (law : zones.Lawful) {e e' : CalEvent} (hsource : e.source = e'.source) :
    e.tail zones = e'.tail zones ↔
      e.uid = e'.uid ∧ e.recurrenceId = none ∧ e'.recurrenceId = none ∨
      (ReadsAsOverride zones e e' ∨ ReadsAsOverride zones e' e) ∨
      e.uid = e'.uid ∧ ∃ time time', e.recurrenceId = some time ∧ e'.recurrenceId = some time' ∧
        (time.reading zones).Alike (time'.reading zones) := by
  unfold CalEvent.tail ReadsAsOverride
  cases e.recurrenceId with
  | none =>
    cases e'.recurrenceId with
    | none => simp
    | some time' => simp [hsource]
  | some time =>
    cases e'.recurrenceId with
    | none => simp [hsource, eq_comm]
    | some time' =>
      rw [override_inj law]
      simp

/-- An override is not what it is read as. -/
theorem uid_ne_of_readsAsOverride {e e' : CalEvent} (h : ReadsAsOverride zones e e') :
    e.uid ≠ e'.uid := by
  obtain ⟨-, -, time, -, huid⟩ := h
  intro heq
  have hlen := congrArg List.length (heq.symm.trans huid)
  rw [length_append, length_append] at hlen
  have : 0 < recurrenceSuffix.length := by decide
  omega

/-- Ids that are the same, and why. -/
theorem id_eq_iff (law : zones.Lawful) (e e' : CalEvent) :
    e.id zones = e'.id zones ↔
      e.source = e'.source ∧ e.uid = e'.uid ∧ e.recurrenceId = none ∧ e'.recurrenceId = none ∨
      (ReadsAsOverride zones e e' ∨ ReadsAsOverride zones e' e) ∨
      (e.source = e'.source ∧ e.uid = e'.uid ∧ ∃ time time', e.recurrenceId = some time ∧
        e'.recurrenceId = some time' ∧ (time.reading zones).Alike (time'.reading zones)) ∨
      (RunsOn zones e e' ∨ RunsOn zones e' e) := by
  rw [id_eq, id_eq, separated_eq_iff]
  constructor
  · rintro (⟨hsource, htail⟩ | hover)
    · rcases (tail_eq_iff law hsource).mp htail with ⟨huid, hnone, hnone'⟩ | h | ⟨huid, h⟩
      · exact .inl ⟨hsource, huid, hnone, hnone'⟩
      · exact .inr (.inl h)
      · exact .inr (.inr (.inl ⟨hsource, huid, h⟩))
    · exact .inr (.inr (.inr hover))
  · rintro (⟨hsource, huid, hnone, hnone'⟩ | h | ⟨hsource, huid, h⟩ | h)
    · exact .inl ⟨hsource, (tail_eq_iff law hsource).mpr (.inl ⟨huid, hnone, hnone'⟩)⟩
    · have hsource : e.source = e'.source := h.elim (·.1) (·.1.symm)
      exact .inl ⟨hsource, (tail_eq_iff law hsource).mpr (.inr (.inl h))⟩
    · exact .inl ⟨hsource, (tail_eq_iff law hsource).mpr (.inr (.inr ⟨huid, h⟩))⟩
    · exact .inr h

/-- **What is confused**: different reminders have one name. -/
theorem confused_iff (law : zones.Lawful) (o o' : Occasion) (now now' : Int) :
    Confused zones home o o' ↔
      o.identity zones home ≠ o'.identity zones home ∧
      (o.entry zones now).sourceRef = (o'.entry zones now').sourceRef := by
  rw [sourceRef_inj]
  change _ ↔ _ ∧ o.event.id zones = o'.event.id zones ∧ o.startMs = o'.startMs ∧ o.lead = o'.lead
  rw [id_eq_iff law]
  constructor
  · rintro ⟨hstart, hlead, h⟩
    rcases h with h | h | ⟨hsource, huid, time, time', hid, hid', hne, halike⟩
    · refine ⟨fun heq => ?_, .inr (.inl h), hstart, hlead⟩
      have huid : o.event.uid = o'.event.uid := congrArg Identity.uid heq
      rcases h with h | h
      · exact uid_ne_of_readsAsOverride h huid
      · exact uid_ne_of_readsAsOverride h huid.symm
    · refine ⟨fun heq => ?_, .inr (.inr (.inr h)), hstart, hlead⟩
      have hsource : o.event.source = o'.event.source := congrArg Identity.source heq
      rcases h with h | h
      · exact ne_of_overruns h hsource
      · exact ne_of_overruns h hsource.symm
    · refine ⟨fun heq => hne ?_, .inr (.inr (.inl ⟨hsource, huid, time, time', hid, hid', halike⟩)),
        hstart, hlead⟩
      have hrec : o.event.recurrenceId.map (instanceOf zones home) =
        o'.event.recurrenceId.map (instanceOf zones home) := congrArg Identity.recurrence heq
      rw [hid, hid'] at hrec
      exact Option.some.inj hrec
  · rintro ⟨hne, h, hstart, hlead⟩
    refine ⟨hstart, hlead, ?_⟩
    rcases h with ⟨hsource, huid, hnone, hnone'⟩ | h
      | ⟨hsource, huid, time, time', hid, hid', halike⟩ | h
    · -- nothing is left that tells them apart
      refine absurd ?_ hne
      rw [Occasion.identity, Occasion.identity, hsource, huid, hnone, hnone', hstart, hlead]
    · exact .inl h
    · by_cases hinst : instanceOf zones home time = instanceOf zones home time'
      · refine absurd ?_ hne
        rw [Occasion.identity, Occasion.identity, hsource, huid, hid, hid', Option.map_some,
          Option.map_some, hinst, hstart, hlead]
      · exact .inr (.inr ⟨hsource, huid, time, time', hid, hid', hinst, halike⟩)
    · exact .inr (.inl h)

/-- **Exactly when each reminder fires once.** -/
theorem firesEachOnce_iff (law : zones.Lawful) (hrun : IsRun first checks) :
    FiresEachOnce zones events home defaults first checks ↔
      ∀ o ∈ owed zones events home defaults first checks,
        ∀ o' ∈ owed zones events home defaults first checks, ¬ Confused zones home o o' := by
  constructor
  · intro h o ho o' ho' hconf
    obtain ⟨hne, href⟩ := (confused_iff law o o' first first).mp hconf
    exact h.apart o ho o' ho' hne first first href
  · intro h
    refine ⟨fired_perm law hrun, fun o ho o' ho' hne now now' href => ?_⟩
    exact h o ho o' ho' ((confused_iff law o o' now now').mpr ⟨hne, href⟩)

/-! ## A series and its namesake -/

/-- Nine o'clock on the second of January 2026. -/
def nine : DateTime := ⟨⟨739618, by decide⟩, 32400, 0, by decide, midnight.frac_lt⟩

def standup (uid : Text) (recurrenceId : Option EventTime) : CalEvent :=
  ⟨uid, "Standup".toList, .instant nine, "ics:work".toList, [], [], .confirmed,
    recurrenceId, [⟨10⟩]⟩

/-- A series with one changed occurrence, and another series. -/
def twoSeries : List CalEvent :=
  [standup "x".toList (some (.instant nine)), standup "y".toList none]

/-- An event whose UID is what an override of the first series is called. -/
def namesakes : List CalEvent :=
  [standup "x".toList (some (.instant nine)),
    standup "x;RECURRENCE-ID=20260102T090000Z".toList none]

/-- Two checks around ten to nine. -/
theorem isRun_tenToNine : IsRun 1767343740000 [1767343860000] where
  range := by decide
  gaps := by decide

theorem firesEachOnce_twoSeries :
    FiresEachOnce utcOnly twoSeries () [] 1767343740000 [1767343860000] := by
  have hrefs : ∀ o ∈ owed utcOnly twoSeries () [] 1767343740000 [1767343860000],
      ∀ o' ∈ owed utcOnly twoSeries () [] 1767343740000 [1767343860000],
        o.identity utcOnly () ≠ o'.identity utcOnly () →
          (o.entry utcOnly 0).sourceRef ≠ (o'.entry utcOnly 0).sourceRef := by
    decide
  refine (firesEachOnce_iff chrono_lawful isRun_tenToNine).mpr fun o ho o' ho' hconf => ?_
  obtain ⟨hne, href⟩ := (confused_iff chrono_lawful o o' 0 0).mp hconf
  exact hrefs o ho o' ho' hne href

/-- **One claim for two reminders.** -/
theorem namesakes_confused :
    ¬ FiresEachOnce utcOnly namesakes () [] 1767343740000 [1767343860000] := by
  intro h
  have howed : owed utcOnly namesakes () [] 1767343740000 [1767343860000] = namesakes.map fun e =>
    ⟨e, 1767344400000, 10⟩ := by
    decide
  have hmem : ∀ e ∈ namesakes, (⟨e, 1767344400000, 10⟩ : Occasion) ∈
      owed utcOnly namesakes () [] 1767343740000 [1767343860000] := by
    intro e he
    rw [howed]
    exact mem_map_of_mem he
  have href := h.apart _ (hmem (standup "x".toList (some (.instant nine))) (.head _)) _
    (hmem (standup "x;RECURRENCE-ID=20260102T090000Z".toList none) (.tail _ (.head _)))
    (by decide) 0 0
  exact href (by decide)

end Thegn.Reminders
