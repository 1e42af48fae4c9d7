import Thegn.Ics.Builder

set_option autoImplicit false

/-! # The zones of a feed

`prescan_timezones` of `thegn-core/src/calendar/ics.rs` reads the `VTIMEZONE` definitions of a
document before its events, with a stack of components of its own. Where no component of the
document is a `VTIMEZONE`, it binds nothing and says nothing (`prescan_idle`).
-/

namespace Thegn.Ics

open Thegn.Text Instant List

def maxLineBytes : Nat := 1048576

def maxComponentDepth : Nat := 16

def maxTimezoneBindings : Nat := 64

def maxTzidBytes : Nat := 128

/-- The index of the last component of a name. -/
def lastMatch (components : List ComponentName) (name : Text) : Option Nat :=
  (components.reverse.findIdx? fun c => c.matches name).map fun i => components.length - 1 - i

structure RawObservance where
  dtstart : Option Text := none
  offsetFrom : Option Text := none
  offsetTo : Option Text := none
  rrule : Option Text := none
  hasRdate : Bool := false
  duplicate : Bool := false

structure Definition (env : Env) where
  tzid : Text := []
  location : Option Text := none
  rules : List env.Observance := []
  invalid : Bool := false

def Definition.invalidate {env : Env} (d : Definition env) : Definition env :=
  { d with invalid := true }

/-- The variables of the loop. -/
structure Prescan (env : Env) where
  bindings : Bindings env := []
  stack : List ComponentName := []
  timezoneDepth : Option Nat := none
  definition : Option (Definition env) := none
  observanceDepth : Option Nat := none
  observance : Option RawObservance := none

namespace Prescan

variable {env : Env}

def begins (p : Prescan env) (value : Text) : Prescan env :=
  let component := ComponentName.parse value
  if maxComponentDepth ≤ p.stack.length then p
  else
    let stack := p.stack ++ [component]
    if component = .timezone then { p with
      stack, timezoneDepth := some stack.length, definition := some {} }
    else if p.timezoneDepth = some (stack.length - 1)
        ∧ (Recur.upper value = "STANDARD".toList ∨ Recur.upper value = "DAYLIGHT".toList) then
      { p with stack, observanceDepth := some stack.length, observance := some {} }
    else { p with stack }

/-- What a finished definition binds its name to. -/
def bindingOf (d : Definition env) : TimezoneBinding env × List Effect :=
  match (resolveTzid env.toZones d.tzid).or (d.location.bind (resolveTzid env.toZones)) with
  | some zone => (.iana (env.name zone), [])
  | none =>
    match if d.invalid then none else env.rules d.rules with
    | some rules => (.rules rules, [])
    | none => (.unmapped, [.record .unmappedTimeZone])

/-- The end of a `VTIMEZONE`. -/
def endsTimezone (p : Prescan env) : Prescan env × List Effect :=
  let p' := { p with
    timezoneDepth := none, definition := none, observanceDepth := none, observance := none }
  match p.timezoneDepth, p.definition with
  | some _, some d =>
    let d := if p.observance.isSome then d.invalidate else d
    if d.tzid ≠ [] ∧ byteLen d.tzid ≤ maxTzidBytes ∧ p.bindings.length < maxTimezoneBindings then
      let binding := bindingOf d
      -- the first definition of a name stands
      if p.bindings.any fun entry => entry.1 == d.tzid then (p', binding.2)
      else ({ p' with bindings := p.bindings ++ [(d.tzid, binding.1)] }, binding.2)
    else (p', [.record .unmappedTimeZone])
  | _, _ => (p', [])

/-- A definition with one more observance. -/
def observed (d : Definition env) (raw : RawObservance) : Definition env :=
  match raw.dtstart, raw.offsetFrom, raw.offsetTo with
  | some start, some offsetFrom, some offsetTo =>
    match if raw.duplicate then none else env.observance start offsetFrom offsetTo raw.rrule
      raw.hasRdate with
    | some rule =>
      if d.rules.length < 8 then { d with rules := d.rules ++ [rule] } else d.invalidate
    | none => d.invalidate
  | _, _, _ => d.invalidate

/-- The end of an observance, if one ends there. -/
def endsObservance (p : Prescan env) : Prescan env :=
  if p.observanceDepth = some p.stack.length then
    let definition :=
      match p.observance, p.definition with
      | some raw, some d => some (observed d raw)
      | _, definition => definition
    { p with definition, observance := none, observanceDepth := none }
  else p

def ends (p : Prescan env) (value : Text) : Prescan env × List Effect :=
  let ended :=
    if eqIgnoreAsciiCase value "VTIMEZONE".toList then p.endsTimezone else (p.endsObservance, [])
  let p := ended.1
  (match lastMatch p.stack value with
    | some depth => { p with stack := p.stack.take depth }
    | none => p, ended.2)

/-- A `TZID` or an `X-LIC-LOCATION`. -/
def names (p : Prescan env) (line : ContentLine) : Prescan env × List Effect :=
  match p.definition with
  | none => (p, [])
  | some d =>
    if p.timezoneDepth ≠ some p.stack.length then (p, [])
    else if maxTzidBytes < byteLen line.value then (p, [.record .unmappedTimeZone])
    else if line.name = "TZID".toList then
      (if d.tzid = [] then { p with definition := some { d with tzid := line.value } } else p, [])
    else (if d.location.isNone then { p with
      definition := some { d with location := some line.value } } else p, [])

/-- One more property of an observance. -/
def observes (raw : RawObservance) (line : ContentLine) : RawObservance :=
  if line.name = "DTSTART".toList then
    if raw.dtstart.isNone then { raw with dtstart := some line.value }
      else { raw with duplicate := true }
  else if line.name = "TZOFFSETFROM".toList then
    if raw.offsetFrom.isNone then { raw with offsetFrom := some line.value }
      else { raw with duplicate := true }
  else if line.name = "TZOFFSETTO".toList then
    if raw.offsetTo.isNone then { raw with offsetTo := some line.value }
      else { raw with duplicate := true }
  else if line.name = "RRULE".toList then
    if raw.rrule.isNone then { raw with rrule := some line.value }
      else { raw with duplicate := true }
  else { raw with hasRdate := true }

def isObserved (name : Text) : Bool :=
  name ∈ ["DTSTART".toList, "TZOFFSETFROM".toList, "TZOFFSETTO".toList, "RRULE".toList,
    "RDATE".toList]

/-- The body of the loop for a line that can be read. -/
def read (p : Prescan env) (line : ContentLine) : Prescan env × List Effect :=
  if line.name = "BEGIN".toList then (p.begins line.value, [])
  else if line.name = "END".toList then p.ends line.value
  else if line.name = "TZID".toList ∨ line.name = "X-LIC-LOCATION".toList then p.names line
  else if isObserved line.name then
    (if p.observanceDepth = some p.stack.length
      then { p with observance := p.observance.map fun raw => observes raw line }
      else p, [])
  else (p, [])

/-- The body of the loop. -/
def step (p : Prescan env) (raw : RawLine) : Prescan env × List Effect :=
  if maxLineBytes < raw.len then
    if p.timezoneDepth.isSome then
      ({ p with definition := p.definition.map Definition.invalidate },
        [.check, .record .unmappedTimeZone])
    else (p, [.check])
  else
    match raw.text with
    | none => (p, [.check, .panic])
    | some text =>
      match parseLine text with
      | none => (p, [.check])
      | some line =>
        let result := p.read line
        (result.1, .check :: result.2)

def run (p : Prescan env) : List RawLine → Prescan env × List Effect
  | [] => (p, [])
  | raw :: lines =>
    let first := p.step raw
    let rest := first.1.run lines
    (rest.1, first.2 ++ rest.2)

end Prescan

/-- `prescan_timezones`. -/
def prescanTimezones (env : Env) (lines : List RawLine) : Bindings env × List Effect :=
  let result := Prescan.run {} lines
  (result.1.bindings, result.2)

/-! ## Nothing to find -/

/-- The line begins a `VTIMEZONE`. -/
def beginsTimezone (raw : RawLine) : Prop :=
  ∃ text line, raw.text = some text ∧ parseLine text = some line ∧ line.name = "BEGIN".toList ∧
    ComponentName.parse line.value = .timezone

namespace Prescan

variable {env : Env}

/-- No definition has begun. -/
structure Idle (p : Prescan env) : Prop where
  bindings : p.bindings = []
  timezoneDepth : p.timezoneDepth = none
  definition : p.definition = none
  observanceDepth : p.observanceDepth = none
  observance : p.observance = none

theorem idle_start : Idle ({} : Prescan env) := ⟨rfl, rfl, rfl, rfl, rfl⟩

/-- The stack alone does not matter. -/
theorem Idle.withStack {p : Prescan env} (h : p.Idle) (stack : List ComponentName) :
    ({ p with stack } : Prescan env).Idle :=
  ⟨h.bindings, h.timezoneDepth, h.definition, h.observanceDepth, h.observance⟩

theorem Idle.begins {p : Prescan env} (h : p.Idle) {value : Text}
    (hvalue : ComponentName.parse value ≠ .timezone) : (p.begins value).Idle := by
  unfold Prescan.begins
  split
  · exact h
  · dsimp only
    rw [if_neg hvalue, if_neg (by rw [h.timezoneDepth]; simp)]
    exact h.withStack _

theorem Idle.ends {p : Prescan env} (h : p.Idle) (value : Text) :
    (p.ends value).1.Idle ∧ (p.ends value).2 = [] := by
  have htimezone : p.endsTimezone = (p, []) := by
    obtain ⟨bindings, stack, timezoneDepth, definition, observanceDepth, observance⟩ := p
    obtain ⟨rfl, rfl, rfl, rfl, rfl⟩ := h
    rfl
  have hobservance : p.endsObservance = p := by
    unfold endsObservance
    rw [h.observanceDepth, if_neg (by simp)]
  unfold Prescan.ends
  rw [htimezone, hobservance, ite_self]
  constructor
  · dsimp only
    split
    · exact h.withStack _
    · exact h
  · rfl

theorem Idle.read {p : Prescan env} (h : p.Idle) {line : ContentLine}
    (hline : line.name = "BEGIN".toList → ComponentName.parse line.value ≠ .timezone) :
    (p.read line).1.Idle ∧ (p.read line).2 = [] := by
  unfold Prescan.read
  split_ifs with hbegin hend hname hobserved hdepth
  · exact ⟨h.begins (hline hbegin), rfl⟩
  · exact h.ends line.value
  · rw [names, h.definition]
    exact ⟨h, rfl⟩
  · rw [h.observanceDepth] at hdepth
    cases hdepth
  · exact ⟨h, rfl⟩
  · exact ⟨h, rfl⟩

/-- A line that can be unfolded and begins no definition leaves the prescan idle. -/
theorem Idle.step {p : Prescan env} (h : p.Idle) {raw : RawLine} (hraw : ¬ beginsTimezone raw)
    (htext : raw.text.isSome = true) : (p.step raw).1.Idle ∧ (p.step raw).2 = [.check] := by
  unfold Prescan.step
  rw [h.timezoneDepth]
  split
  · exact ⟨h, rfl⟩
  · obtain ⟨text, htext⟩ := Option.isSome_iff_exists.mp htext
    rw [htext]
    dsimp only
    cases hline : parseLine text with
    | none => exact ⟨h, rfl⟩
    | some line =>
      have hother : line.name = "BEGIN".toList → ComponentName.parse line.value ≠ .timezone :=
        fun hname hparse =>
        hraw ⟨text, line, htext, hline, hname, hparse⟩
      obtain ⟨hidle, heffects⟩ := h.read hother
      exact ⟨hidle, congrArg (Effect.check :: ·) heffects⟩

theorem Idle.run {p : Prescan env} (h : p.Idle) {lines : List RawLine}
    (hlines : ∀ raw ∈ lines, ¬ beginsTimezone raw)
    (htexts : ∀ raw ∈ lines, raw.text.isSome = true) :
    (p.run lines).1.Idle ∧ ∀ e ∈ (p.run lines).2, e = .check := by
  induction lines generalizing p with
  | nil => exact ⟨h, fun e he => absurd he not_mem_nil⟩
  | cons raw lines ih =>
    obtain ⟨hidle, heffects⟩ := h.step (hlines raw (.head _)) (htexts raw (.head _))
    obtain ⟨hrest, hchecks⟩ := ih hidle (fun r hr => hlines r (mem_cons_of_mem raw hr))
      fun r hr => htexts r (mem_cons_of_mem raw hr)
    refine ⟨hrest, fun e he => ?_⟩
    rw [Prescan.run, heffects] at he
    rcases mem_append.mp he with he | he
    · exact mem_singleton.mp he
    · exact hchecks e he

end Prescan

/-- **A document without a `VTIMEZONE` binds no zones, and nothing is said about it.** -/
theorem prescan_idle (env : Env) {lines : List RawLine}
    (hlines : ∀ raw ∈ lines, ¬ beginsTimezone raw)
    (htexts : ∀ raw ∈ lines, raw.text.isSome = true) :
    (prescanTimezones env lines).1 = [] ∧ ∀ e ∈ (prescanTimezones env lines).2, e = .check := by
  obtain ⟨hidle, hchecks⟩ := Prescan.idle_start.run hlines htexts
  exact ⟨hidle.bindings, hchecks⟩

end Thegn.Ics
