import Thegn.Lib.Text
import Thegn.Lib.Checked

set_option autoImplicit false

/-! # The two readers of a duration

`thegn-core/src/calendar/ics.rs` reads the durations of a feed twice: `parse_duration` checks what
it computes and takes nothing but a duration, `parse_trigger_minutes` computes the lead of an alarm
unchecked and skips what it does not know. What `parse_duration` accepts is the text of components
(`parseDuration_eq_some`).
-/

namespace Thegn.Ics

open Thegn.Text Unchecked List Option

/-! ## The lead of an alarm -/

/-- The variables of the two loops of `parse_trigger_minutes`. -/
structure Tally where
  mins : Word 32
  num : Text

/-- `num.parse::<u32>().unwrap_or(0)`. -/
def readNumber (num : Text) : BitVec 32 := BitVec.ofNat 32 ((parseUnsigned (2 ^ 32) num).getD 0)

/-- What the number before a letter is multiplied with, factor by factor, if the letter counts. -/
def dateFactors : Char → Option (List (BitVec 32))
  | 'W' => some [7, 24, 60]
  | 'D' => some [24, 60]
  | _ => none

def timeFactors : Char → Option (List (BitVec 32))
  | 'H' => some [60]
  | 'M' => some []
  | _ => none

/-- The body of either loop. -/
def tally (factors : Char → Option (List (BitVec 32))) (t : Tally) (c : Char) : Tally :=
  if c.isDigit then { t with num := t.num ++ [c] }
  else
    match factors c with
    | some ks => ⟨t.mins.add (ks.foldl Word.mul (.const (readNumber t.num))), []⟩
    | none => ⟨t.mins, []⟩

/-- `trim` and `to_ascii_uppercase`. -/
def normalized (v : Text) : Text := (trim v).map Char.toUpper

/-- What is left when the sign and the `P` are gone, cut at the first `T`. -/
def triggerParts (v : Text) : Text × Text :=
  let body := ((normalized v).dropWhile (fun c => c == '-' || c == '+')).dropWhile (· == 'P')
  (splitOnceP (· == 'T') body).getD (body, [])

/-- The minutes are a word: where it overflowed, a checked build panics and another returns its
value. -/
def parseTriggerMinutes (v : Text) : Option (Word 32) :=
  if startsWith (normalized v) ['-'] then
    let date := (triggerParts v).1.foldl (tally dateFactors) ⟨.const 0, []⟩
    some ((triggerParts v).2.foldl (tally timeFactors) ⟨date.mins, []⟩).mins
  else none

/-! ## Durations -/

/-- The variables of the loop of `parse_duration`. Its numbers are `i64`s and never negative. -/
structure Scan where
  inTime : Bool
  sawComponent : Bool
  sawTimeComponent : Bool
  weekComponent : Bool
  lastRank : Option Nat
  totalSeconds : Nat
  number : Nat
  hasNumber : Bool

def Scan.init : Scan where
  inTime := false
  sawComponent := false
  sawTimeComponent := false
  weekComponent := false
  lastRank := none
  totalSeconds := 0
  number := 0
  hasNumber := false

/-- What a checked operation on `i64`s yields. -/
def checked (n : Nat) : Option Nat := if n < 2 ^ 63 then some n else none

/-- The rank and the scale of a component, where it may stand. -/
def Scan.component (s : Scan) (c : Char) : Option (Nat × Nat) :=
  match s.inTime, c with
  | false, 'W' => if !s.sawComponent && s.lastRank.isNone then some (0, 604800) else none
  | false, 'D' => if !s.weekComponent then some (1, 86400) else none
  | true, 'H' => if !s.weekComponent then some (2, 3600) else none
  | true, 'M' => if !s.weekComponent then some (3, 60) else none
  | true, 'S' => if !s.weekComponent then some (4, 1) else none
  | _, _ => none

/-- One character of the loop; `none` where the function returns. -/
def Scan.step (s : Scan) (c : Char) : Option Scan :=
  if c.isDigit then do
    let number ← checked (s.number * 10)
    let number ← checked (number + (c.toNat - '0'.toNat))
    return { s with number, hasNumber := true }
  else if c = 'T' then
    if s.inTime || s.weekComponent || s.hasNumber then none else some { s with inTime := true }
  else if !s.hasNumber then none
  else do
    let (rank, scale) ← s.component c
    if s.lastRank.any (rank ≤ ·) then none
    else
      let seconds ← checked (s.number * scale)
      let totalSeconds ← checked (s.totalSeconds + seconds)
      return { s with
        weekComponent := s.weekComponent || (!s.inTime && c == 'W')
        totalSeconds
        lastRank := some rank
        sawComponent := true
        sawTimeComponent := s.sawTimeComponent || s.inTime
        number := 0
        hasNumber := false }

/-- The sign, if there is one, and the text behind it. -/
def signOf : Text → Bool × Text
  | '-' :: t => (true, t)
  | '+' :: t => (false, t)
  | t => (false, t)

/-- The seconds of the duration, as `chrono::Duration::try_seconds` takes them. -/
def parseDuration (trySeconds : Int → Option Int) (v : Text) : Option Int :=
  match signOf (normalized v) with
  | (negative, 'P' :: cs) => do
      let s ← cs.foldlM Scan.step Scan.init
      if s.hasNumber || !s.sawComponent || (s.inTime && !s.sawTimeComponent) then none
      else trySeconds (if negative then -s.totalSeconds else s.totalSeconds)
  | _ => none

/-! ## The text of a duration -/

inductive DurationUnit
  | week
  | day
  | hour
  | minute
  | second
  deriving DecidableEq

namespace DurationUnit

def letter : DurationUnit → Char
  | week => 'W'
  | day => 'D'
  | hour => 'H'
  | minute => 'M'
  | second => 'S'

def seconds : DurationUnit → Nat
  | week => 604800
  | day => 86400
  | hour => 3600
  | minute => 60
  | second => 1

/-- The minutes of a unit; seconds count none. -/
def minutes (u : DurationUnit) : Nat := u.seconds / 60

/-- The unit stands behind the `T`. -/
def inTime : DurationUnit → Bool
  | week | day => false
  | _ => true

end DurationUnit

structure Component where
  digits : Text
  unit : DurationUnit
  deriving DecidableEq

namespace Component

structure Valid (inTime : Bool) (c : Component) : Prop where
  nonempty : c.digits ≠ []
  digits : ∀ d ∈ c.digits, d.isDigit = true
  unit : c.unit.inTime = inTime

def value (c : Component) : Nat := Nat.ofDigitChars 10 c.digits 0

def text (c : Component) : Text := c.digits ++ [c.unit.letter]

end Component

/-- The seconds of components, and their minutes without the seconds. -/
def seconds (cs : List Component) : Nat := (cs.map fun c => c.value * c.unit.seconds).sum

def minutes (cs : List Component) : Nat := (cs.map fun c => c.value * c.unit.minutes).sum

/-- Components one after the other. -/
def componentsText (cs : List Component) : Text := cs.flatMap Component.text

/-- `t` is the text of the date components and the time components of a duration, behind its `P`. -/
structure Written (date time : List Component) (t : Text) : Prop where
  text : t = componentsText date ++ if time = [] then [] else 'T' :: componentsText time
  dates : ∀ c ∈ date, c.Valid false
  times : ∀ c ∈ time, c.Valid true

/-! ## What is accepted -/

/-- What the loop knows of the text it has read: the components behind it, and the digits of the
next one. -/
structure Scan.Read (s : Scan) (t : Text) (date time : List Component) (pending : Text) : Prop where
  text : t = componentsText date ++ (if s.inTime then 'T' :: componentsText time else []) ++ pending
  dates : ∀ c ∈ date, c.Valid false
  times : ∀ c ∈ time, c.Valid true
  no_time : s.inTime = false → time = []
  digits : ∀ d ∈ pending, d.isDigit = true
  number : s.number = Nat.ofDigitChars 10 pending 0
  has_number : s.hasNumber = !pending.isEmpty
  total : s.totalSeconds = seconds date + seconds time
  saw_time : s.sawTimeComponent = !time.isEmpty

theorem Scan.read_init : Scan.init.Read [] [] [] [] where
  text := rfl
  dates := by simp
  times := by simp
  no_time := fun _ => rfl
  digits := by simp
  number := rfl
  has_number := rfl
  total := rfl
  saw_time := rfl

theorem checked_eq_some {n m : Nat} (h : checked n = some m) : m = n := by
  unfold checked at h
  split at h
  · exact (Option.some.inj h).symm
  · cases h

/-- The unit whose letter stands where it may. -/
theorem Scan.component_eq_some {s : Scan} {c : Char} {rank scale : Nat}
    (h : s.component c = some (rank, scale)) :
    ∃ u : DurationUnit, c = u.letter ∧ scale = u.seconds ∧ u.inTime = s.inTime := by
  unfold Scan.component at h
  split at h
  · rename_i hin
    split at h
    · cases h
      exact ⟨.week, rfl, rfl, hin.symm⟩
    · cases h
  · rename_i hin
    split at h
    · cases h
      exact ⟨.day, rfl, rfl, hin.symm⟩
    · cases h
  · rename_i hin
    split at h
    · cases h
      exact ⟨.hour, rfl, rfl, hin.symm⟩
    · cases h
  · rename_i hin
    split at h
    · cases h
      exact ⟨.minute, rfl, rfl, hin.symm⟩
    · cases h
  · rename_i hin
    split at h
    · cases h
      exact ⟨.second, rfl, rfl, hin.symm⟩
    · cases h
  · cases h

theorem componentsText_concat (cs : List Component) (c : Component) :
    componentsText (cs ++ [c]) = componentsText cs ++ (c.digits ++ [c.unit.letter]) := by
  simp [componentsText, Component.text]

theorem seconds_concat (cs : List Component) (c : Component) :
    seconds (cs ++ [c]) = seconds cs + c.value * c.unit.seconds := by
  simp [seconds]

section Read

variable {s s' : Scan} {t pending : Text} {date time : List Component} {c : Char}

theorem Scan.Read.pending_eq_nil (h : s.Read t date time pending) (hnum : s.hasNumber = false) :
    pending = [] := by
  have hhas := h.has_number
  rw [hnum] at hhas
  simpa using hhas

theorem Scan.Read.digit (h : s.Read t date time pending) (hc : c.isDigit = true) :
    Scan.Read { s with
      number := s.number * 10 + (c.toNat - '0'.toNat), hasNumber := true } (t ++ [c]) date time
      (pending ++ [c]) where
  text := by rw [h.text]; simp
  dates := h.dates
  times := h.times
  no_time := h.no_time
  digits := by
    intro d hd
    rcases mem_append.mp hd with hd | hd
    · exact h.digits d hd
    · rw [mem_singleton.mp hd]
      exact hc
  number := by
    show s.number * 10 + _ = _
    rw [h.number, Nat.ofDigitChars_append, Nat.ofDigitChars_cons, Nat.ofDigitChars_nil,
      Nat.mul_comm]
  has_number := by simp
  total := h.total
  saw_time := h.saw_time

theorem Scan.Read.enterTime (h : s.Read t date time pending) (hin : s.inTime = false)
    (hnum : s.hasNumber = false) :
    Scan.Read { s with inTime := true } (t ++ ['T']) date [] [] where
  text := by
    rw [h.text, hin, h.pending_eq_nil hnum]
    simp [componentsText]
  dates := h.dates
  times := by simp
  no_time := fun _ => rfl
  digits := by simp
  number := by
    rw [← h.pending_eq_nil hnum]
    exact h.number
  has_number := hnum
  total := by rw [← h.no_time hin]; exact h.total
  saw_time := by rw [← h.no_time hin]; exact h.saw_time

/-- A unit closes a component, which is the last one of its part. -/
theorem Scan.Read.close (h : s.Read t date time pending) {u : DurationUnit}
    (hu : u.inTime = s.inTime) (hnum : s.hasNumber = true) (rank : Option Nat) (week : Bool) :
    ∃ date' time', Scan.Read
      { s with
        weekComponent := week
        totalSeconds := s.totalSeconds + s.number * u.seconds
        lastRank := rank
        sawComponent := true
        sawTimeComponent := s.sawTimeComponent || s.inTime
        number := 0
        hasNumber := false } (t ++ [u.letter]) date' time' [] := by
  have hne : pending ≠ [] := by
    have hhas := h.has_number
    rintro rfl
    rw [hnum] at hhas
    cases hhas
  have hvalid : Component.Valid s.inTime ⟨pending, u⟩ := ⟨hne, h.digits, hu⟩
  have hmem : ∀ {b : Bool} {cs : List Component}, (∀ c ∈ cs, c.Valid b) →
    Component.Valid b ⟨pending, u⟩ → ∀ c ∈ cs ++ [⟨pending, u⟩], c.Valid b := by
    intro b cs hcs hlast c hc
    rcases mem_append.mp hc with hc | hc
    · exact hcs c hc
    · rw [mem_singleton.mp hc]
      exact hlast
  cases hin : s.inTime with
  | false =>
    rw [hin] at hvalid
    have htime := h.no_time hin
    refine ⟨date ++ [⟨pending, u⟩], [], ?_⟩
    exact {
      text := by rw [h.text, componentsText_concat]; simp [hin]
      dates := hmem h.dates hvalid
      times := by simp
      no_time := fun _ => rfl
      digits := by simp
      number := rfl
      has_number := rfl
      total := by
        show s.totalSeconds + s.number * u.seconds = _
        rw [h.total, htime, seconds_concat, h.number]
        rfl
      saw_time := by
        show (s.sawTimeComponent || false) = _
        rw [h.saw_time, htime]
        rfl }
  | true =>
    rw [hin] at hvalid
    refine ⟨date, time ++ [⟨pending, u⟩], ?_⟩
    exact {
      text := by rw [h.text, componentsText_concat]; simp [hin]
      dates := h.dates
      times := hmem h.times hvalid
      no_time := fun hno => by cases hno
      digits := by simp
      number := rfl
      has_number := rfl
      total := by
        show s.totalSeconds + s.number * u.seconds = _
        rw [h.total, seconds_concat, h.number, Nat.add_assoc]
        rfl
      saw_time := by simp }

/-- One character more. -/
theorem Scan.read_step (h : s.Read t date time pending) (hstep : s.step c = some s') :
    ∃ date' time' pending', s'.Read (t ++ [c]) date' time' pending' := by
  unfold Scan.step at hstep
  split at hstep
  · rename_i hdigit
    obtain ⟨n, hn, hstep⟩ := bind_eq_some_iff.mp hstep
    obtain ⟨m, hm, hstep⟩ := bind_eq_some_iff.mp hstep
    obtain rfl := checked_eq_some hn
    obtain rfl := checked_eq_some hm
    cases hstep
    exact ⟨date, time, pending ++ [c], h.digit hdigit⟩
  · split at hstep
    · rename_i hT
      split at hstep
      · cases hstep
      · rename_i hflags
        simp only [Bool.or_eq_true, not_or, Bool.not_eq_true] at hflags
        cases hstep
        rw [hT]
        exact ⟨date, [], [], h.enterTime hflags.1.1 hflags.2⟩
    · split at hstep
      · cases hstep
      · rename_i hnum
        obtain ⟨⟨rank, scale⟩, hcomp, hstep⟩ := bind_eq_some_iff.mp hstep
        dsimp only at hstep
        split at hstep
        · cases hstep
        · obtain ⟨a, ha, hstep⟩ := bind_eq_some_iff.mp hstep
          obtain ⟨b, hb, hstep⟩ := bind_eq_some_iff.mp hstep
          obtain rfl := checked_eq_some ha
          obtain rfl := checked_eq_some hb
          cases hstep
          obtain ⟨u, rfl, rfl, hu⟩ := Scan.component_eq_some hcomp
          obtain ⟨date', time', h'⟩ := h.close hu (by simpa using hnum) (some rank)
            (s.weekComponent || (!s.inTime && u.letter == 'W'))
          exact ⟨date', time', [], h'⟩

end Read

theorem Scan.read_run {s s' : Scan} {t pending cs : Text} {date time : List Component}
    (h : s.Read t date time pending) (hrun : cs.foldlM Scan.step s = some s') :
    ∃ date' time' pending', s'.Read (t ++ cs) date' time' pending' := by
  induction cs generalizing s t date time pending with
  | nil =>
    cases hrun
    rw [append_nil]
    exact ⟨date, time, pending, h⟩
  | cons c cs ih =>
    rw [foldlM_cons] at hrun
    obtain ⟨u, hu, hrun⟩ := bind_eq_some_iff.mp hrun
    obtain ⟨date', time', pending', h'⟩ := Scan.read_step h hu
    rw [append_cons]
    exact ih h' hrun

/-- **What `parse_duration` accepts is the text of components**, and it returns their seconds. -/
theorem parseDuration_eq_some {trySeconds : Int → Option Int} {v : Text} {d : Int}
    (h : parseDuration trySeconds v = some d) :
    ∃ negative t date time, signOf (normalized v) = (negative, 'P' :: t) ∧ Written date time t ∧
      trySeconds (if negative then -((seconds date + seconds time : Nat) : Int)
        else (seconds date + seconds time : Nat)) = some d := by
  unfold parseDuration at h
  split at h
  · rename_i negative cs hsign
    obtain ⟨s, hs, h⟩ := bind_eq_some_iff.mp h
    obtain ⟨date, time, pending, hread⟩ := Scan.read_run Scan.read_init hs
    split at h
    · cases h
    · rename_i hend
      have hpending : pending = [] := by
        have hhas := hread.has_number
        simp_all
      refine ⟨negative, cs, date, time, hsign, ⟨?_, hread.dates, hread.times⟩, ?_⟩
      · have htext := hread.text
        rw [nil_append, hpending, append_nil] at htext
        rw [htext]
        cases hin : s.inTime with
        | false =>
          rw [hread.no_time hin]
          rfl
        | true =>
          have hne : time ≠ [] := by
            have hsaw := hread.saw_time
            intro hnil
            rw [hnil] at hsaw
            simp_all
          rw [if_neg hne]
          rfl
      · rw [← hread.total, h]
  · cases h

end Thegn.Ics
