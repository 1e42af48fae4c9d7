import Thegn.Calendar.Admission
import Thegn.Lib.Accumulate

set_option autoImplicit false

/-! # What an event weighs

`event_footprint` of `thegn-core/src/calendar/admission.rs` prices an event when it is admitted,
`source_cost` of `calendar/mod.rs` prices it again before it is expanded. Both count the same
children (`sourceCost_eq_ok`), but expansion adds two strings to the overhead of an extra entry and
a recurrence of its own, and admission counts the event twice. The sizes of structures in memory are
those of a `Layout`.
-/

namespace Thegn.Calendar

open Accumulate List

abbrev Str := List UInt8

/-- The sizes of structures in memory. -/
structure Layout where
  calEvent : Nat
  eventTime : Nat
  recurrence : Nat
  rrule : Nat
  byDay : Nat
  reminder : Nat
  string : Nat
  calEvent_lt : calEvent < 2 ^ 64
  recurrence_lt : recurrence < 2 ^ 64
  byDay_le : byDay ≤ 8
  reminder_le : reminder ≤ entryOverhead

/-- The zone is all that costs anything. -/
inductive EventTime
  | date
  | zoned (zone : Str)
  | instant
  deriving DecidableEq

structure ByDay where
  nth : Option Int
  weekday : Nat
  deriving DecidableEq

/-- The lists of a rule. -/
structure RRule where
  bySecond : List Nat
  byMinute : List Nat
  byHour : List Nat
  byDay : List ByDay
  byMonthDay : List Int
  byYearDay : List Int
  byWeekNo : List Int
  byMonth : List Nat
  bySetPos : List Int
  deriving DecidableEq

structure Recurrence where
  rules : List RRule
  rdates : List EventTime
  exdates : List EventTime
  deriving DecidableEq

/-- An event; the keys of its extras are different. -/
structure CalEvent where
  uid : Str
  title : Str
  start : EventTime
  finish : EventTime
  source : Str
  description : Str
  location : Str
  url : Str
  calendar : Str
  category : Str
  organizer : Str
  recurrence : Option Recurrence
  reminders : List Nat
  etag : Str
  extra : List (Str × Str)
  distinct : (extra.map Prod.fst).Nodup

/-! ## Admission -/

namespace CalEvent

/-- The strings; both prices add up the same ones. -/
def strings (e : CalEvent) : List Str :=
  [e.uid, e.title, e.source, e.description, e.location, e.url, e.calendar, e.category,
    e.organizer, e.etag]

end CalEvent

def tzBytes : EventTime → Nat
  | .zoned zone => zone.length
  | _ => 0

def RRule.parts (rule : RRule) : Nat :=
  rule.bySecond.length + rule.byMinute.length + rule.byHour.length + rule.byDay.length +
    rule.byMonthDay.length +
    rule.byYearDay.length + rule.byWeekNo.length + rule.byMonth.length + rule.bySetPos.length

namespace Footprint

/-- Bytes and children. -/
abbrev Acc := Nat × Nat

def add (a b : Nat) : Except AdmissionLimit Nat := addBelow (2 ^ 64) .arithmetic a b

def addBytes (acc : Acc) (n : Nat) : Except AdmissionLimit Acc :=
  add acc.1 n >>= fun x => .ok (x, acc.2)

def addChildren (acc : Acc) (n : Nat) : Except AdmissionLimit Acc :=
  add acc.2 n >>= fun x => .ok (acc.1, x)

def addProduct (acc : Acc) (n m : Nat) : Except AdmissionLimit Acc :=
  (mulBelow (2 ^ 64) .arithmetic n m >>= fun p => add acc.1 p) >>= fun x => .ok (x, acc.2)

def addExtra (acc : Acc) (kv : Str × Str) : Except AdmissionLimit Acc := do
  let acc ← addBytes acc kv.1.length
  let acc ← addBytes acc kv.2.length
  let acc ← addBytes acc entryOverhead
  addChildren acc 1

def addRule (lay : Layout) (acc : Acc) (rule : RRule) : Except AdmissionLimit Acc := do
  let acc ← addBytes acc lay.rrule
  let acc ← addProduct acc rule.parts 8
  let acc ← addChildren acc 1
  addChildren acc rule.parts

def addDate (lay : Layout) (acc : Acc) (t : EventTime) : Except AdmissionLimit Acc := do
  let acc ← addBytes acc lay.eventTime
  let acc ← addBytes acc (tzBytes t)
  addChildren acc 1

def addRecurrence (lay : Layout) (r : Option Recurrence) (acc : Acc) : Except AdmissionLimit Acc :=
  match r with
  | none => pure acc
  | some r => do
      let acc ← r.rules.foldlM (addRule lay) acc
      (r.rdates ++ r.exdates).foldlM (addDate lay) acc

end Footprint

open Footprint in
/-- The retained bytes and the children of an event. -/
def eventFootprint (lay : Layout) (e : CalEvent) : Except AdmissionLimit (Nat × Nat) := do
  let acc ← addBytes (0, 0) (2 * lay.calEvent)
  let acc ← e.strings.foldlM (fun acc s => addBytes acc s.length) acc
  let acc ← addBytes acc (tzBytes e.start)
  let acc ← addBytes acc (tzBytes e.finish)
  let acc ← e.extra.foldlM addExtra acc
  let acc ← addProduct acc e.reminders.length entryOverhead
  let acc ← addChildren acc e.reminders.length
  addRecurrence lay e.recurrence acc

/-! ## Expansion -/

inductive ExpansionError
  | arithmetic
  | eventChildren
  | eventPayload
  deriving DecidableEq

def maxEventPayloadBytes : Nat := 1024 * 1024
def maxEventChildEntries : Nat := 16384
def mapEntryOverhead : Nat := 64

namespace Cost

def add (a b : Nat) : Except ExpansionError Nat := addBelow (2 ^ 64) .arithmetic a b

def mul (a b : Nat) : Except ExpansionError Nat := mulBelow (2 ^ 64) .arithmetic a b

/-- The lengths of the lists of a rule, and the size of an entry of each. -/
def parts (lay : Layout) (rule : RRule) : List (Nat × Nat) :=
  [(rule.bySecond.length, 4), (rule.byMinute.length, 4), (rule.byHour.length, 4),
    (rule.byDay.length, lay.byDay),
    (rule.byMonthDay.length, 1), (rule.byYearDay.length, 2), (rule.byWeekNo.length, 1),
    (rule.byMonth.length, 4), (rule.bySetPos.length, 4)]

/-- The children that are counted before any list is walked. -/
def topChildren (e : CalEvent) : Except ExpansionError Nat := do
  let children ← add e.reminders.length e.extra.length
  match e.recurrence with
  | none => pure children
  | some r => do
      let children ← add children r.rules.length
      let children ← add children r.rdates.length
      add children r.exdates.length

/-- Children and recurrence bytes. -/
def addPart (acc : Nat × Nat) (part : Nat × Nat) : Except ExpansionError (Nat × Nat) := do
  let acc ← (add acc.1 part.1 >>= fun x => .ok (x, acc.2))
  (mul part.1 part.2 >>= fun p => add acc.2 p) >>= fun x => .ok (acc.1, x)

def addDate (lay : Layout) (bytes : Nat) (t : EventTime) : Except ExpansionError Nat := do
  let bytes ← add bytes lay.eventTime
  add bytes (tzBytes t)

/-- The bytes of a recurrence, after its children are counted. -/
def recurrenceBytes (lay : Layout) (children : Nat) (r : Recurrence) :
    Except ExpansionError Nat := do
  let bytes ← (mul r.rules.length lay.rrule >>= fun p => add lay.recurrence p)
  let acc ← r.rules.foldlM (fun acc rule => (parts lay rule).foldlM addPart acc) (children, bytes)
  if maxEventChildEntries < acc.1 then throw .eventChildren
  else (r.rdates ++ r.exdates).foldlM (addDate lay) acc.2

def recurrencePart (lay : Layout) (children : Nat) : Option Recurrence → Except ExpansionError Nat
  | none => pure 0
  | some r => recurrenceBytes lay children r

def addExtra (lay : Layout) (bytes : Nat) (kv : Str × Str) : Except ExpansionError Nat := do
  let bytes ← add bytes kv.1.length
  let bytes ← add bytes kv.2.length
  add bytes (2 * lay.string + mapEntryOverhead)

def materialized (lay : Layout) (e : CalEvent) : Except ExpansionError Nat := do
  let bytes ← e.strings.foldlM (fun bytes s => add bytes s.length) lay.calEvent
  let bytes ← add bytes (tzBytes e.start)
  let bytes ← add bytes (tzBytes e.finish)
  let bytes ← (mul e.reminders.length lay.reminder >>= fun p => add bytes p)
  e.extra.foldlM (addExtra lay) bytes

end Cost

open Cost in
/-- The bytes of a materialized copy, of an event that is within the limits of expansion. -/
def sourceCost (lay : Layout) (e : CalEvent) : Except ExpansionError Nat := do
  let children ← topChildren e
  if maxEventChildEntries < children then throw .eventChildren
  else do
    let recurrenceBytes ← recurrencePart lay children e.recurrence
    let materialized ← materialized lay e
    let total ← add materialized recurrenceBytes
    if maxEventPayloadBytes < total then throw .eventPayload
    else pure materialized

/-! ## What the two prices add up to -/

section Totals

variable (lay : Layout)

def dateBytes (r : Recurrence) : Nat :=
  ((r.rdates ++ r.exdates).map fun t => lay.eventTime + tzBytes t).sum

/-- The lengths of the lists of all rules, each with the size of its entries. -/
def allParts (r : Recurrence) : List (Nat × Nat) := r.rules.flatMap (Cost.parts lay)

def childCount (e : CalEvent) : Nat :=
  e.reminders.length + e.extra.length + e.recurrence.elim 0 fun r =>
    r.rules.length + r.rdates.length + r.exdates.length + (r.rules.map RRule.parts).sum

/-- The bytes that both prices count for each event. -/
def commonBytes (e : CalEvent) : Nat :=
  (e.strings.map List.length).sum + tzBytes e.start + tzBytes e.finish +
    (e.extra.map fun kv => kv.1.length + kv.2.length).sum

def footprintBytes (e : CalEvent) : Nat :=
  2 * lay.calEvent + commonBytes e + e.extra.length * entryOverhead +
    e.reminders.length * entryOverhead + e.recurrence.elim 0 fun r =>
      r.rules.length * lay.rrule + (r.rules.map RRule.parts).sum * 8 + dateBytes lay r

def materializedBytes (e : CalEvent) : Nat :=
  lay.calEvent + commonBytes e + e.extra.length * (2 * lay.string + mapEntryOverhead) +
    e.reminders.length * lay.reminder

def recurrenceCost (r : Recurrence) : Nat :=
  lay.recurrence + r.rules.length * lay.rrule + ((allParts lay r).map fun p => p.1 * p.2).sum +
    dateBytes lay r

end Totals

section Admission

variable {lay : Layout} {e : CalEvent}

theorem adds_congr {A ε : Type} [AddCommMonoid A] {P : A → Prop} {f : A → Except ε A} {n m : A}
    (h : Adds P f n) (heq : n = m) : Adds P f m := heq ▸ h

open Footprint

theorem adds_addBytes (n : Nat) : Adds (Below (2 ^ 64)) (addBytes · n) (n, 0) :=
  Adds.fst (Adds.addBelow _ n)

theorem adds_addChildren (n : Nat) : Adds (Below (2 ^ 64)) (addChildren · n) (0, n) :=
  Adds.snd (Adds.addBelow _ n)

theorem adds_addProduct (n m : Nat) : Adds (Below (2 ^ 64)) (addProduct · n m) (n * m, 0) :=
  Adds.fst (Adds.mulBelow _ n m)

theorem adds_addExtra (kv : Str × Str) :
    Adds (Below (2 ^ 64)) (addExtra · kv) (kv.1.length + kv.2.length + entryOverhead, 1) := by
  refine adds_congr (Adds.bind Below.of_add (adds_addBytes kv.1.length)
    (Adds.bind Below.of_add (adds_addBytes kv.2.length)
      (Adds.bind Below.of_add (adds_addBytes entryOverhead) (adds_addChildren 1)))) ?_
  ext <;> simp [Nat.add_assoc]

theorem adds_addRule (rule : RRule) :
    Adds (Below (2 ^ 64)) (addRule lay · rule) (lay.rrule + rule.parts * 8, 1 + rule.parts) := by
  refine adds_congr (Adds.bind Below.of_add (adds_addBytes lay.rrule)
    (Adds.bind Below.of_add (adds_addProduct rule.parts 8)
      (Adds.bind Below.of_add (adds_addChildren 1) (adds_addChildren rule.parts)))) ?_
  ext <;> simp

theorem adds_addDate (t : EventTime) :
    Adds (Below (2 ^ 64)) (Footprint.addDate lay · t) (lay.eventTime + tzBytes t, 1) := by
  refine adds_congr (Adds.bind Below.of_add (adds_addBytes lay.eventTime)
    (Adds.bind Below.of_add (adds_addBytes (tzBytes t)) (adds_addChildren 1))) ?_
  ext <;> simp

theorem sum_map_fst {α : Type} (f g : α → Nat) (l : List α) :
    (l.map fun x => ((f x, g x) : Nat × Nat)).sum = ((l.map f).sum, (l.map g).sum) := by
  induction l with
  | nil => rfl
  | cons x l ih => rw [map_cons, sum_cons, ih, map_cons, sum_cons, map_cons, sum_cons]; rfl

theorem sum_map_one {α : Type} (l : List α) : (l.map fun _ => 1).sum = l.length := by simp

/-- A share that every entry has. -/
theorem sum_map_share {α : Type} (f : α → Nat) (share : Nat) (l : List α) :
    (l.map fun x => f x + share).sum = (l.map f).sum + l.length * share := by
  rw [sum_map_add, map_const', sum_replicate, smul_eq_mul]

theorem adds_addRecurrence (r : Recurrence) :
    Adds (Below (2 ^ 64)) (addRecurrence lay (some r))
      (r.rules.length * lay.rrule + (r.rules.map RRule.parts).sum * 8 + dateBytes lay r,
        r.rules.length + r.rdates.length + r.exdates.length + (r.rules.map RRule.parts).sum) := by
  refine adds_congr (Adds.bind Below.of_add (Adds.foldlM Below.of_add fun rule _ =>
    adds_addRule rule)
    (Adds.foldlM Below.of_add fun t _ => adds_addDate t)) ?_
  have hrules : (r.rules.map fun rule => lay.rrule + rule.parts * 8).sum =
      r.rules.length * lay.rrule + (r.rules.map RRule.parts).sum * 8 := by
    rw [sum_map_add, map_const', sum_replicate, smul_eq_mul,
      sum_map_mul_right r.rules RRule.parts 8]
  have hchildren : (r.rules.map fun rule => 1 + rule.parts).sum =
    r.rules.length + (r.rules.map RRule.parts).sum := by
    rw [sum_map_add, sum_map_one]
  rw [sum_map_fst, sum_map_fst, sum_map_one, length_append, hrules, hchildren]
  ext
  · rfl
  · dsimp only [Prod.snd_add]
    omega

/-- **What admission counts.** -/
theorem eventFootprint_eq_ok {size : Nat × Nat} :
    eventFootprint lay e = .ok size ↔
      (footprintBytes lay e < 2 ^ 64 ∧ childCount e < 2 ^ 64) ∧
      size = (footprintBytes lay e, childCount e) := by
  have hrec : Adds (Below (2 ^ 64)) (addRecurrence lay e.recurrence)
      (e.recurrence.elim 0 fun r =>
        r.rules.length * lay.rrule + (r.rules.map RRule.parts).sum * 8 + dateBytes lay r,
        e.recurrence.elim 0 fun r =>
          r.rules.length + r.rdates.length + r.exdates.length + (r.rules.map RRule.parts).sum) := by
    cases e.recurrence with
    | none => exact Adds.pure
    | some r => exact adds_addRecurrence r
  have h := Adds.bind Below.of_add (adds_addBytes (2 * lay.calEvent))
    (Adds.bind Below.of_add (Adds.foldlM Below.of_add fun s (_ : s ∈ e.strings) =>
      adds_addBytes s.length)
      (Adds.bind Below.of_add (adds_addBytes (tzBytes e.start))
        (Adds.bind Below.of_add (adds_addBytes (tzBytes e.finish))
          (Adds.bind Below.of_add (Adds.foldlM Below.of_add fun kv (_ : kv ∈ e.extra) =>
            adds_addExtra kv)
            (Adds.bind Below.of_add (adds_addProduct e.reminders.length entryOverhead)
              (Adds.bind Below.of_add (adds_addChildren e.reminders.length) hrec))))))
  have htotal := h (0, 0) size ⟨by decide, by decide⟩
  refine htotal.trans ?_
  rw [sum_map_fst, sum_map_fst, sum_map_one,
    sum_map_share (fun kv : Str × Str => kv.1.length + kv.2.length)]
  have hsum : ∀ x y : Nat × Nat, x = y → (Below (2 ^ 64) x ∧ size = x ↔
    Below (2 ^ 64) y ∧ size = y) := fun x y h => h ▸ Iff.rfl
  refine hsum _ (footprintBytes lay e, childCount e) ?_
  ext
  · simp [footprintBytes, commonBytes]
    omega
  · simp [childCount]
    omega

end Admission

section Expansion

variable {lay : Layout} {e : CalEvent}

open Cost

theorem adds_cost (n : Nat) : Adds (· < 2 ^ 64) (Cost.add · n) n := Adds.addBelow _ n

theorem adds_costProduct (n m : Nat) :
    Adds (· < 2 ^ 64) (fun a => Cost.mul n m >>= fun p => Cost.add a p) (n * m) :=
  Adds.mulBelow _ n m

/-- The children without the entries of the rules. -/
def topCount (e : CalEvent) : Nat :=
  e.reminders.length + e.extra.length +
    e.recurrence.elim 0 fun r => r.rules.length + r.rdates.length + r.exdates.length

theorem topChildren_eq (h : topCount e < 2 ^ 64) : topChildren e = .ok (topCount e) := by
  unfold topCount at h ⊢
  unfold topChildren
  have hreminders : e.reminders.length < 2 ^ 64 := by omega
  cases hr : e.recurrence with
  | none =>
    rw [hr] at h
    exact ((Adds.bind below_of_add (adds_cost e.extra.length) Adds.pure).ok hreminders).mpr ⟨h, rfl⟩
  | some r =>
    rw [hr] at h
    have hadds := adds_congr (Adds.bind below_of_add (adds_cost e.extra.length)
      (Adds.bind below_of_add (adds_cost r.rules.length)
        (Adds.bind below_of_add (adds_cost r.rdates.length) (adds_cost r.exdates.length)))) rfl
    refine (hadds.ok hreminders).mpr ?_
    dsimp only [Option.elim] at h ⊢
    constructor
    · omega
    · omega

theorem adds_addPart (part : Nat × Nat) :
    Adds (Below (2 ^ 64)) (Cost.addPart · part) (part.1, part.1 * part.2) := by
  refine adds_congr (Adds.bind Below.of_add (Adds.fst (adds_cost part.1))
    (Adds.snd (adds_costProduct part.1 part.2))) ?_
  ext <;> simp

theorem sum_parts (lay : Layout) (rule : RRule) :
    ((parts lay rule).map Prod.fst).sum = rule.parts := by
  simp only [parts, RRule.parts, map_cons, map_nil, sum_cons, sum_nil]
  omega

theorem adds_addParts (rule : RRule) :
    Adds (Below (2 ^ 64)) (fun acc => (parts lay rule).foldlM addPart acc)
      (rule.parts, ((parts lay rule).map fun p => p.1 * p.2).sum) := by
  refine adds_congr (Adds.foldlM Below.of_add fun part _ => adds_addPart part) ?_
  rw [sum_map_fst, sum_parts lay rule]

theorem adds_addRules (r : Recurrence) :
    Adds (Below (2 ^ 64)) (fun acc => r.rules.foldlM (fun acc rule =>
      (parts lay rule).foldlM addPart acc) acc)
      ((r.rules.map RRule.parts).sum, ((allParts lay r).map fun p => p.1 * p.2).sum) := by
  refine adds_congr (Adds.foldlM Below.of_add fun rule _ => adds_addParts rule) ?_
  rw [sum_map_fst, allParts, map_flatMap, List.flatMap, sum_flatten, map_map]
  rfl

theorem adds_addDates (r : Recurrence) :
    Adds (· < 2 ^ 64) (fun bytes => (r.rdates ++ r.exdates).foldlM (Cost.addDate lay) bytes)
      (dateBytes lay r) :=
  Adds.foldlM below_of_add fun t _ =>
    Adds.bind below_of_add (adds_cost lay.eventTime) (adds_cost (tzBytes t))

theorem recurrenceBytes_eq_ok {r : Recurrence} {children n : Nat}
    (hchildren : children + (r.rules.map RRule.parts).sum ≤ maxEventChildEntries) :
    recurrenceBytes lay children r = .ok n ↔ recurrenceCost lay r < 2 ^ 64 ∧
    n = recurrenceCost lay r := by
  have hsmall : children + (r.rules.map RRule.parts).sum < 2 ^ 64 :=
    Nat.lt_of_le_of_lt hchildren (by decide)
  unfold recurrenceBytes
  rw [bind_eq_ok]
  constructor
  · rintro ⟨bytes, hbytes, h⟩
    obtain ⟨hlt, rfl⟩ := ((adds_costProduct _ _).ok lay.recurrence_lt).mp hbytes
    obtain ⟨acc, hacc, h⟩ := bind_eq_ok.mp h
    obtain ⟨hbelow, rfl⟩ := ((adds_addRules r).ok (a := (children, _)) ⟨by omega, hlt⟩).mp hacc
    have hwithin : ¬ maxEventChildEntries < children + (r.rules.map RRule.parts).sum :=
      Nat.not_lt.mpr hchildren
    dsimp only [Prod.fst_add, Prod.snd_add] at h hbelow
    rw [if_neg hwithin] at h
    obtain ⟨hlt', rfl⟩ := ((adds_addDates r).ok hbelow.2).mp h
    exact ⟨hlt', rfl⟩
  · rintro ⟨hlt, rfl⟩
    rw [recurrenceCost] at hlt
    refine ⟨lay.recurrence + r.rules.length * lay.rrule,
      ((adds_costProduct _ _).ok lay.recurrence_lt).mpr ⟨by omega, rfl⟩, ?_⟩
    refine bind_eq_ok.mpr ⟨(children + (r.rules.map RRule.parts).sum,
      lay.recurrence + r.rules.length * lay.rrule +
      ((allParts lay r).map fun p => p.1 * p.2).sum), ?_, ?_⟩
    · refine ((adds_addRules r).ok (a := (children, _)) ⟨by omega, by omega⟩).mpr
        ⟨⟨hsmall, ?_⟩, rfl⟩
      dsimp only [Prod.snd_add]
      omega
    · rw [if_neg (Nat.not_lt.mpr hchildren)]
      exact ((adds_addDates r).ok (by omega)).mpr ⟨hlt, rfl⟩

theorem materialized_eq_ok {n : Nat} :
    Cost.materialized lay e = .ok n ↔ materializedBytes lay e < 2 ^ 64 ∧
    n = materializedBytes lay e := by
  have hextra : ∀ kv ∈ e.extra, Adds (· < 2 ^ 64) (Cost.addExtra lay · kv)
      (kv.1.length + kv.2.length + (2 * lay.string + mapEntryOverhead)) := by
    intro kv _
    refine adds_congr (Adds.bind below_of_add (adds_cost kv.1.length)
      (Adds.bind below_of_add (adds_cost kv.2.length) (adds_cost _))) ?_
    omega
  have h := Adds.bind below_of_add (Adds.foldlM below_of_add fun s (_ : s ∈ e.strings) =>
    adds_cost s.length)
    (Adds.bind below_of_add (adds_cost (tzBytes e.start))
      (Adds.bind below_of_add (adds_cost (tzBytes e.finish))
        (Adds.bind below_of_add (adds_costProduct e.reminders.length lay.reminder)
          (Adds.foldlM below_of_add hextra))))
  have hle : lay.calEvent ≤ materializedBytes lay e := by
    rw [materializedBytes]
    omega
  have hrest :=
    (adds_congr h (m := materializedBytes lay e - lay.calEvent) ?_).ok (r := n) lay.calEvent_lt
  · rw [Nat.add_sub_cancel' hle] at hrest
    exact hrest
  · rw [sum_map_share (fun kv : Str × Str => kv.1.length + kv.2.length), materializedBytes,
      commonBytes]
    omega

/-- **When expansion accepts an event** whose children are within its limit. -/
theorem sourceCost_isOk (hchildren : childCount e ≤ maxEventChildEntries) :
    (∃ c, sourceCost lay e = .ok c) ↔
      materializedBytes lay e + e.recurrence.elim 0 (recurrenceCost lay) ≤
        maxEventPayloadBytes := by
  have htop : topCount e ≤ maxEventChildEntries := by
    refine Nat.le_trans ?_ hchildren
    unfold topCount childCount
    cases e.recurrence with
    | none => exact le_rfl
    | some r => exact Nat.add_le_add_left (Nat.le_add_right _ _) _
  have hbytes : ∀ n, recurrencePart lay (topCount e) e.recurrence = .ok n ↔
      e.recurrence.elim 0 (recurrenceCost lay) < 2 ^ 64 ∧
        n = e.recurrence.elim 0 (recurrenceCost lay) := by
    intro n
    unfold topCount childCount at *
    cases hr : e.recurrence with
    | none =>
      constructor
      · intro h
        cases h
        exact ⟨Nat.two_pow_pos 64, rfl⟩
      · rintro ⟨-, rfl⟩
        rfl
    | some r =>
      rw [hr] at hchildren
      refine recurrenceBytes_eq_ok ?_
      dsimp only [Option.elim] at hchildren ⊢
      omega
  unfold sourceCost
  rw [topChildren_eq (Nat.lt_of_le_of_lt htop (by decide))]
  constructor
  · rintro ⟨c, h⟩
    obtain ⟨children, hc, h⟩ := bind_eq_ok.mp h
    cases hc
    rw [if_neg (Nat.not_lt.mpr htop)] at h
    obtain ⟨rb, hrb, h⟩ := bind_eq_ok.mp h
    obtain ⟨-, rfl⟩ := (hbytes rb).mp hrb
    obtain ⟨mat, hmat, h⟩ := bind_eq_ok.mp h
    obtain ⟨-, rfl⟩ := (materialized_eq_ok).mp hmat
    obtain ⟨total, htotal, h⟩ := bind_eq_ok.mp h
    obtain ⟨-, rfl⟩ := addBelow_eq_ok.mp htotal
    refine Nat.not_lt.mp fun hover => ?_
    rw [if_pos hover] at h
    cases h
  · intro hle
    have hpay : maxEventPayloadBytes < 2 ^ 64 := by decide
    refine ⟨materializedBytes lay e, bind_eq_ok.mpr ⟨topCount e, rfl, ?_⟩⟩
    rw [if_neg (Nat.not_lt.mpr htop)]
    refine bind_eq_ok.mpr ⟨_, (hbytes _).mpr ⟨by omega, rfl⟩, ?_⟩
    refine bind_eq_ok.mpr ⟨_, (materialized_eq_ok).mpr ⟨by omega, rfl⟩, ?_⟩
    refine bind_eq_ok.mpr ⟨_, addBelow_eq_ok.mpr ⟨by omega, rfl⟩, ?_⟩
    rw [if_neg (Nat.not_lt.mpr hle)]
    rfl

end Expansion

/-! ## Admission against expansion -/

section Accepted

variable (lay : Layout) (e : CalEvent)

/-- What expansion counts and admission does not: two strings for each extra entry, and the
recurrence. -/
def surcharge : Nat :=
  e.extra.length * (2 * lay.string) + e.recurrence.elim 0 fun _ => lay.recurrence

/-- What admission counts and expansion does not: the event a second time, and the rest of what it
takes for a reminder and for an entry of a rule. -/
def saving : Nat :=
  lay.calEvent + e.reminders.length * (entryOverhead - lay.reminder) +
    e.recurrence.elim 0 fun r => ((allParts lay r).map fun p => p.1 * (8 - p.2)).sum

variable {lay : Layout} {e : CalEvent}

theorem parts_le {rule : RRule} {part : Nat × Nat} (h : part ∈ Cost.parts lay rule) :
    part.2 ≤ 8 := by
  simp only [Cost.parts, mem_cons, not_mem_nil, or_false] at h
  rcases h with rfl | rfl | rfl | rfl | rfl | rfl | rfl | rfl | rfl
  case inr.inr.inr.inl => exact lay.byDay_le
  all_goals
    dsimp only
    omega

/-- Eight bytes for each entry are its size and what is left of them. -/
theorem sum_allParts (r : Recurrence) :
    ((allParts lay r).map fun p => p.1 * p.2).sum +
      ((allParts lay r).map fun p => p.1 * (8 - p.2)).sum = (r.rules.map RRule.parts).sum * 8 := by
  have hparts : (r.rules.map RRule.parts).sum = ((allParts lay r).map Prod.fst).sum := by
    rw [allParts, map_flatMap, List.flatMap, sum_flatten, map_map]
    refine congrArg List.sum (map_congr_left fun rule _ => ?_)
    exact (sum_parts lay rule).symm
  rw [hparts, ← sum_map_mul_right, ← sum_map_add]
  refine congrArg List.sum (map_congr_left fun p hp => ?_)
  obtain ⟨rule, -, hrule⟩ := mem_flatMap.mp hp
  rw [← Nat.mul_add, Nat.add_sub_cancel' (parts_le hrule)]

/-- The two prices differ by the surcharge and the saving. -/
theorem footprint_add_surcharge :
    footprintBytes lay e + surcharge lay e =
      materializedBytes lay e + e.recurrence.elim 0 (recurrenceCost lay) + saving lay e := by
  have hreminders : e.reminders.length * (entryOverhead - lay.reminder) +
    e.reminders.length * lay.reminder = e.reminders.length * entryOverhead := by
    rw [← Nat.mul_add, Nat.sub_add_cancel lay.reminder_le]
  have hextra : e.extra.length * (2 * lay.string + mapEntryOverhead) =
      e.extra.length * (2 * lay.string) + e.extra.length * entryOverhead := Nat.mul_add _ _ _
  unfold footprintBytes surcharge materializedBytes saving
  cases e.recurrence with
  | none =>
    dsimp only [Option.elim]
    omega
  | some r =>
    have hparts := @sum_allParts lay r
    dsimp only [Option.elim, recurrenceCost]
    omega

/-- **What admission accepts is accepted by expansion**, exactly when the surcharge fits into what
the admitted bytes leave, with the saving. -/
theorem admitted_expands {size : Nat × Nat} (hsize : eventFootprint lay e = .ok size)
    (hbytes : size.1 ≤ maxEventBytes) (hchildren : size.2 ≤ maxEventChildren) :
    (∃ c, sourceCost lay e = .ok c) ↔ surcharge lay e ≤ (maxEventBytes - size.1) +
      saving lay e := by
  obtain ⟨-, rfl⟩ := eventFootprint_eq_ok.mp hsize
  have heq := @footprint_add_surcharge lay e
  have hmax : maxEventPayloadBytes = maxEventBytes := rfl
  rw [sourceCost_isOk hchildren, hmax]
  dsimp only at hbytes
  omega

end Accepted

/-- The sizes on a 64-bit machine. -/
def wideLayout : Layout where
  calEvent := 496
  eventTime := 40
  recurrence := 72
  rrule := 248
  byDay := 3
  reminder := 4
  string := 24
  calEvent_lt := by decide
  recurrence_lt := by decide
  byDay_le := by decide
  reminder_le := by decide

theorem nodup_byteKeys :
    (((List.range 64).map fun i => (([UInt8.ofNat i], []) : Str × Str)).map Prod.fst).Nodup := by
  rw [map_map]
  apply List.Nodup.map_on _ nodup_range
  intro i hi j hj h
  simp only [Function.comp_apply, List.cons.injEq, and_true] at h
  rw [mem_range] at hi hj
  have hbyte := congrArg UInt8.toNat h
  rw [UInt8.toNat_ofNat', UInt8.toNat_ofNat'] at hbyte
  omega

/-- An event with a description and 64 extra entries under keys of one byte. -/
def extraEvent (description : Nat) : CalEvent where
  uid := []
  title := []
  start := .date
  finish := .date
  source := []
  description := List.replicate description 120
  location := []
  url := []
  calendar := []
  category := []
  organizer := []
  recurrence := none
  reminders := []
  etag := []
  extra := (List.range 64).map fun i => ([UInt8.ofNat i], [])
  distinct := nodup_byteKeys

theorem extraEvent_footprint {description : Nat} (h : description ≤ maxEventBytes) :
    eventFootprint wideLayout (extraEvent description) = .ok (description + 5152, 64) := by
  have hbytes : footprintBytes wideLayout (extraEvent description) = description + 5152 := by
    simp [footprintBytes, commonBytes, CalEvent.strings, extraEvent, wideLayout, tzBytes,
      entryOverhead, map_map, Function.comp_def]
    omega
  have hchildren : childCount (extraEvent description) = 64 := by
    simp [childCount, extraEvent]
  rw [maxEventBytes] at h
  refine eventFootprint_eq_ok.mpr ⟨⟨?_, ?_⟩, ?_⟩
  · rw [hbytes]
    omega
  · rw [hchildren]
    decide
  · rw [hbytes, hchildren]

theorem extraEvent_margins (description : Nat) :
    surcharge wideLayout (extraEvent description) = 3072 ∧
    saving wideLayout (extraEvent description) = 496 := by
  constructor
  · simp [surcharge, extraEvent, wideLayout]
  · simp [saving, extraEvent, wideLayout]

theorem admitted_expands_small :
    (∃ c, sourceCost wideLayout (extraEvent 100) = .ok c) ↔
      surcharge wideLayout (extraEvent 100) ≤ (maxEventBytes - 5252) +
        saving wideLayout (extraEvent 100) :=
  admitted_expands (extraEvent_footprint (by decide)) (by decide) (by decide)

/-- An event that is admitted with exactly the allowed bytes, and that expansion refuses. -/
theorem admitted_refused :
    eventFootprint wideLayout (extraEvent 1043424) = .ok (maxEventBytes, 64) ∧
    64 ≤ maxEventChildren ∧ ¬ ∃ c, sourceCost wideLayout (extraEvent 1043424) = .ok c := by
  have hfootprint : eventFootprint wideLayout (extraEvent 1043424) = .ok (maxEventBytes, 64) :=
    extraEvent_footprint (by decide)
  refine ⟨hfootprint, by decide, fun h => ?_⟩
  obtain ⟨-, hsize⟩ := eventFootprint_eq_ok.mp hfootprint
  obtain ⟨hbytes, hchildren⟩ := Prod.mk.injEq .. ▸ hsize
  have hprice := (sourceCost_isOk (by rw [← hchildren]; decide)).mp h
  have heq := @footprint_add_surcharge wideLayout (extraEvent 1043424)
  obtain ⟨hsurcharge, hsaving⟩ := extraEvent_margins 1043424
  rw [← hbytes, hsurcharge, hsaving] at heq
  rw [maxEventPayloadBytes] at hprice
  rw [maxEventBytes] at heq
  omega

end Thegn.Calendar
