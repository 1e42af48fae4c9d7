import Thegn.Lib.Utf8
import Thegn.Lib.Words

set_option autoImplicit false

/-! # Recurrence rules

The `RRULE` value of `thegn-core/src/calendar/recur.rs`: what `RRule::parse` reads and `to_rrule`
writes. Dates and times are those of `chrono`, taken as a parameter with their `%Y%m%d` and `%H%M%S`
texts.
-/

namespace Thegn.Recur

open Text

/-! ## Parts of a rule -/

inductive Freq
  | secondly
  | minutely
  | hourly
  | daily
  | weekly
  | monthly
  | yearly
  deriving DecidableEq

/-- `to_ascii_uppercase`. -/
def upper (s : Text) : Text := s.map Char.toUpper

def Freq.parse (s : Text) : Option Freq :=
  let t := upper (trim s)
  if t = "SECONDLY".toList then some .secondly
  else if t = "MINUTELY".toList then some .minutely
  else if t = "HOURLY".toList then some .hourly
  else if t = "DAILY".toList then some .daily
  else if t = "WEEKLY".toList then some .weekly
  else if t = "MONTHLY".toList then some .monthly
  else if t = "YEARLY".toList then some .yearly
  else none

def Freq.asStr : Freq → Text
  | .secondly => "SECONDLY".toList
  | .minutely => "MINUTELY".toList
  | .hourly => "HOURLY".toList
  | .daily => "DAILY".toList
  | .weekly => "WEEKLY".toList
  | .monthly => "MONTHLY".toList
  | .yearly => "YEARLY".toList

inductive Weekday
  | mon
  | tue
  | wed
  | thu
  | fri
  | sat
  | sun
  deriving DecidableEq

def weekday (s : Text) : Option Weekday :=
  let t := upper (trim s)
  if t = "MO".toList then some .mon
  else if t = "TU".toList then some .tue
  else if t = "WE".toList then some .wed
  else if t = "TH".toList then some .thu
  else if t = "FR".toList then some .fri
  else if t = "SA".toList then some .sat
  else if t = "SU".toList then some .sun
  else none

def wdStr : Weekday → Text
  | .mon => "MO".toList
  | .tue => "TU".toList
  | .wed => "WE".toList
  | .thu => "TH".toList
  | .fri => "FR".toList
  | .sat => "SA".toList
  | .sun => "SU".toList

structure ByDay where
  nth : Option Int
  weekday : Weekday
  deriving DecidableEq

inductive UntilForm
  | date
  | floating
  | utc
  deriving DecidableEq

/-- Dates and times of day with their texts: `%Y%m%d`, `%H%M%S`, and both with a `T` between
them. -/
structure Chrono (D T : Type) where
  parseDate : Text → Option D
  parseDateTime : Text → Option (D × T)
  formatDate : D → Text
  formatTime : T → Text
  midnight : T

structure RRule (D T : Type) where
  freq : Freq
  interval : Nat
  count : Option Nat
  until_ : Option (D × T)
  untilForm : UntilForm
  bySecond : List Nat
  byMinute : List Nat
  byHour : List Nat
  byDay : List ByDay
  byMonthDay : List Int
  byYearDay : List Int
  byWeekNo : List Int
  byMonth : List Nat
  bySetPos : List Int
  wkst : Weekday
  deriving DecidableEq

variable {D T : Type}

def RRule.default : RRule D T where
  freq := .weekly
  interval := 1
  count := none
  until_ := none
  untilForm := .utc
  bySecond := []
  byMinute := []
  byHour := []
  byDay := []
  byMonthDay := []
  byYearDay := []
  byWeekNo := []
  byMonth := []
  bySetPos := []
  wkst := .mon

inductive RecurError
  | badFreq (s : Text)
  | badValue (s : Text)
  | outOfRange (s : Text)
  deriving DecidableEq

/-! ## Values -/

def maxByList : Nat := 400

/-- The entries of a list value. -/
def tokens (v : Text) : List Text := ((v.splitOn ',').map trim).filter (· ≠ [])

/-- `TryFrom<i64>` of the unsigned and signed types, with the bound of the type. -/
def tryUnsigned (bound : Nat) (n : Int) : Option Nat :=
  if 0 ≤ n ∧ n < bound then some n.toNat else none

def trySigned (bound : Nat) (n : Int) : Option Int :=
  if -(bound : Int) ≤ n ∧ n < bound then some n else none

/-- `ok` of `checked_list`. -/
def inDomain (lo hi : Int) (signed : Bool) (n : Int) : Bool :=
  if signed then n ≠ 0 && n.natAbs ≤ hi.toNat else lo ≤ n && n ≤ hi

def checkedToken {α : Type} (tryFrom : Int → Option α) (part : Text) (lo hi : Int) (signed : Bool)
    (t : Text) : Except RecurError α :=
  match parseSigned (2 ^ 63) t with
  | none => .error (.badValue t)
  | some n =>
    if inDomain lo hi signed n then
      match tryFrom n with
      | some x => .ok x
      | none => .error (.outOfRange (part ++ '=' :: t))
    else .error (.outOfRange (part ++ '=' :: t))

def checkedList {α : Type} (tryFrom : Int → Option α) (part v : Text) (lo hi : Int)
    (signed : Bool) : Except RecurError (List α) :=
  if (tokens v).length > maxByList then
    .error (.outOfRange (part ++ ": more than ".toList ++ ofNat maxByList ++ " values".toList))
  else (tokens v).mapM (checkedToken tryFrom part lo hi signed)

/-- The bytes of a token before its last two, and these. -/
def splitLastTwo (t : Text) : Option (Text × Text) :=
  if byteLen t < 2 then none else cut t (byteLen t - 2)

def parseByDay (s : Text) : Option ByDay := do
  let (num, day) ← splitLastTwo (trim s)
  let weekday ← weekday day
  let nth ← if num = [] then some none else (parseSigned (2 ^ 7) num).map some
  some { nth, weekday }

def checkedDay (t : Text) : Except RecurError ByDay :=
  match parseByDay t with
  | none => .error (.badValue t)
  | some d =>
    match d.nth with
    | some n => if n = 0 ∨ n.natAbs > 53 then .error (.outOfRange ("BYDAY=".toList ++ t)) else .ok d
    | none => .ok d

def checkedByDay (v : Text) : Except RecurError (List ByDay) :=
  if (tokens v).length > maxByList then
    .error (.outOfRange ("BYDAY: more than ".toList ++ ofNat maxByList ++ " values".toList))
  else (tokens v).mapM checkedDay

def untilFormOf (v : Text) : UntilForm :=
  let t := trim v
  if 'T' ∉ t then .date else if t.getLast? = some 'Z' then .utc else .floating

def parseIcsDatetime (c : Chrono D T) (s : Text) : Option (D × T) :=
  let t := trimEndMatches (· == 'Z') (trim s)
  match c.parseDateTime t with
  | some d => some d
  | none => (c.parseDate t).map fun d => (d, c.midnight)

/-! ## Reading -/

/-- The names of `is_rule_part`. -/
inductive Part
  | freq
  | count
  | until_
  | interval
  | bySecond
  | byMinute
  | byHour
  | byDay
  | byMonthDay
  | byYearDay
  | byWeekNo
  | byMonth
  | bySetPos
  | wkst
  deriving DecidableEq

def Part.text : Part → Text
  | .freq => "FREQ".toList
  | .count => "COUNT".toList
  | .until_ => "UNTIL".toList
  | .interval => "INTERVAL".toList
  | .bySecond => "BYSECOND".toList
  | .byMinute => "BYMINUTE".toList
  | .byHour => "BYHOUR".toList
  | .byDay => "BYDAY".toList
  | .byMonthDay => "BYMONTHDAY".toList
  | .byYearDay => "BYYEARDAY".toList
  | .byWeekNo => "BYWEEKNO".toList
  | .byMonth => "BYMONTH".toList
  | .bySetPos => "BYSETPOS".toList
  | .wkst => "WKST".toList

def Part.all : List Part :=
  [.freq, .count, .until_, .interval, .bySecond, .byMinute, .byHour, .byDay, .byMonthDay,
    .byYearDay, .byWeekNo, .byMonth, .bySetPos, .wkst]

/-- The part of a name, if it is the name of one. -/
def Part.ofText (name : Text) : Option Part := Part.all.find? fun part => part.text == name

def orElse {α : Type} (o : Option α) (e : RecurError) : Except RecurError α :=
  match o with
  | some x => .ok x
  | none => .error e

/-- The arms of the match on the name of a part. -/
def RRule.applyPart (c : Chrono D T) (r : RRule D T) (part : Part) (v : Text) :
    Except RecurError (RRule D T) :=
  match part with
  | .freq => do
      let freq ← orElse (Freq.parse v) (.badFreq v)
      .ok { r with freq }
  | .interval => do
      let interval ← orElse (parseUnsigned (2 ^ 32) v) (.badValue v)
      if interval = 0 then .error (.outOfRange ("INTERVAL=".toList ++ v))
        else .ok { r with interval }
  | .count => do
      let count ← orElse (parseUnsigned (2 ^ 32) v) (.badValue v)
      .ok { r with count := some count }
  | .until_ => do
      let u ← orElse (parseIcsDatetime c v) (.badValue v)
      .ok { r with until_ := some u, untilForm := untilFormOf v }
  | .bySecond => do
      let bySecond ← checkedList (tryUnsigned (2 ^ 32)) "BYSECOND".toList v 0 60 false
      .ok { r with bySecond }
  | .byMinute => do
      let byMinute ← checkedList (tryUnsigned (2 ^ 32)) "BYMINUTE".toList v 0 59 false
      .ok { r with byMinute }
  | .byHour => do
      let byHour ← checkedList (tryUnsigned (2 ^ 32)) "BYHOUR".toList v 0 23 false
      .ok { r with byHour }
  | .byDay => do
      let byDay ← checkedByDay v
      .ok { r with byDay }
  | .byMonthDay => do
      let byMonthDay ← checkedList (trySigned (2 ^ 7)) "BYMONTHDAY".toList v 1 31 true
      .ok { r with byMonthDay }
  | .byYearDay => do
      let byYearDay ← checkedList (trySigned (2 ^ 15)) "BYYEARDAY".toList v 1 366 true
      .ok { r with byYearDay }
  | .byWeekNo => do
      let byWeekNo ← checkedList (trySigned (2 ^ 7)) "BYWEEKNO".toList v 1 53 true
      .ok { r with byWeekNo }
  | .byMonth => do
      let byMonth ← checkedList (tryUnsigned (2 ^ 32)) "BYMONTH".toList v 1 12 false
      .ok { r with byMonth }
  | .bySetPos => do
      let bySetPos ← checkedList (trySigned (2 ^ 31)) "BYSETPOS".toList v 1 366 true
      .ok { r with bySetPos }
  | .wkst => do
      let wkst ← orElse (weekday v) (.badValue v)
      .ok { r with wkst }

/-- The rule so far, whether `FREQ` was there, and the parts that were. -/
structure Parsing (D T : Type) where
  rule : RRule D T
  sawFreq : Bool
  seen : List Part

/-- The body of the loop over the parts. -/
def Parsing.next (c : Chrono D T) (p : Parsing D T) (text : Text) :
    Except RecurError (Parsing D T) :=
  match splitOnceP (· == '=') text with
  | none =>
    let name := upper (trim text)
    if (Part.ofText name).isSome then .error (.badValue name) else .ok p
  | some (k, v) =>
    match Part.ofText (upper (trim k)) with
    | some part =>
      if part ∈ p.seen then .error (.badValue ("duplicate ".toList ++ part.text))
      else do
        let rule ← p.rule.applyPart c part (trim v)
        .ok ⟨rule, p.sawFreq || part == .freq, part :: p.seen⟩
    -- a part that is not known changes nothing
    | none => .ok p

def RRule.parse (c : Chrono D T) (input : Text) : Except RecurError (RRule D T) := do
  let body := (stripPrefix "RRULE:".toList (trim input)).getD (trim input)
  let p ← (body.splitOn ';').foldlM (Parsing.next c) ⟨.default, false, []⟩
  if p.sawFreq = false then .error (.badFreq body)
  else if p.rule.count.isSome ∧ p.rule.until_.isSome
    then .error (.badValue "COUNT with UNTIL".toList)
  else .ok p.rule

/-! ## Writing -/

/-- The value of a list part, if there is one. -/
def listValue {α : Type} (write : α → Text) (v : List α) : Option Text :=
  if v = [] then none else some (join [','] (v.map write))

def ByDay.toText (d : ByDay) : Text := (d.nth.map ofInt).getD [] ++ wdStr d.weekday

def untilValue (c : Chrono D T) (form : UntilForm) (u : D × T) : Text :=
  match form with
  | .date => c.formatDate u.1
  | .floating => c.formatDate u.1 ++ 'T' :: c.formatTime u.2
  | .utc => c.formatDate u.1 ++ 'T' :: c.formatTime u.2 ++ ['Z']

/-- The parts of a rule behind `FREQ`, in their order; a part with its default value is not
written. -/
def RRule.parts (c : Chrono D T) (r : RRule D T) : List (Part × Option Text) :=
  [(.interval, if r.interval ≠ 1 then some (ofNat r.interval) else none),
    (.count, r.count.map ofNat), (.until_, r.until_.map (untilValue c r.untilForm)),
    (.bySecond, listValue ofNat r.bySecond), (.byMinute, listValue ofNat r.byMinute),
    (.byHour, listValue ofNat r.byHour), (.byDay, listValue ByDay.toText r.byDay),
    (.byMonthDay, listValue ofInt r.byMonthDay), (.byYearDay, listValue ofInt r.byYearDay),
    (.byWeekNo, listValue ofInt r.byWeekNo), (.byMonth, listValue ofNat r.byMonth),
    (.bySetPos, listValue ofInt r.bySetPos),
    (.wkst, if r.wkst ≠ .mon then some (wdStr r.wkst) else none)]

/-- A part as it is written. -/
def partText (part : Part) (value : Text) : Text := part.text ++ '=' :: value

def RRule.toRrule (c : Chrono D T) (r : RRule D T) : Text :=
  join [';'] (partText .freq r.freq.asStr :: (r.parts c).filterMap fun p => p.2.map (partText p.1))

end Thegn.Recur
