import Thegn.Calendar.Instant
import Thegn.Ics.Lines

set_option autoImplicit false

/-! # Content lines

`parse_line` of `thegn-core/src/calendar/ics.rs` splits an unfolded line into its name, its
parameters and its value, and `parse_time` reads a date or a time from it. A line is refused where a
quote is open or a parameter makes no sense; the caller decides what becomes of it.
-/

namespace Thegn.Ics

open Thegn.Text Instant List

/-! ## Lines -/

/-- An unfolded content line; the parameters are a map. -/
structure ContentLine where
  name : Text
  params : List (Text × List Text)
  value : Text
  deriving DecidableEq

namespace ContentLine

/-- The members of a parameter. -/
def paramValues (l : ContentLine) (key : Text) : List Text :=
  ((l.params.find? fun p => p.1 == Recur.upper key).map (·.2)).getD []

/-- A parameter with exactly one member. -/
def param (l : ContentLine) (key : Text) : Option Text :=
  match l.paramValues key with
  | [value] => some value
  | _ => none

def setParam (l : ContentLine) (key value : Text) : ContentLine :=
  let rest := l.params.filter fun p => !(p.1 == Recur.upper key)
  { l with params := rest ++ [(Recur.upper key, [value])] }

end ContentLine

/-! ## Quotes -/

/-- The text before the first colon outside quotes, and the text after it. -/
def splitValue (inQuotes : Bool) : Text → Option (Text × Text)
  | [] => none
  | c :: s =>
    if c = ':' ∧ inQuotes = false then some ([], s)
    else (splitValue (if c = '"' then !inQuotes else inQuotes) s).map fun p => (c :: p.1, p.2)

/-- The loop of `split_outside_quotes`, after `piece`. -/
def splitFrom (delimiter : Char) (inQuotes : Bool) (piece : Text) : Text → Option (List Text)
  | [] => if inQuotes then none else some [piece]
  | c :: s =>
    if c = '"' then splitFrom delimiter (!inQuotes) (piece ++ [c]) s
    else if c = delimiter ∧ inQuotes = false
      then (splitFrom delimiter inQuotes [] s).map (piece :: ·)
    else splitFrom delimiter inQuotes (piece ++ [c]) s

def splitOutsideQuotes (s : Text) (delimiter : Char) : Option (List Text) :=
  splitFrom delimiter false [] s

/-- The caret escapes of a parameter. -/
def decodeCarets : Text → Text
  | [] => []
  | '^' :: 'n' :: s => '\n' :: decodeCarets s
  | '^' :: 'N' :: s => '\n' :: decodeCarets s
  | '^' :: '\'' :: s => '"' :: decodeCarets s
  | '^' :: '^' :: s => '^' :: decodeCarets s
  | c :: s => c :: decodeCarets s

def decodeParamValue (value : Text) : Option Text :=
  match stripPrefix ['"'] value with
  | some inner => (stripSuffix ['"'] inner).map decodeCarets
  | none => if '"' ∈ value then none else some (decodeCarets value)

/-- The escapes of a text value. -/
def unescape : Text → Text
  | [] => []
  | '\\' :: 'n' :: s => '\n' :: unescape s
  | '\\' :: 'N' :: s => '\n' :: unescape s
  | '\\' :: 't' :: s => '\t' :: unescape s
  | '\\' :: c :: s => c :: unescape s
  | c :: s => c :: unescape s

/-! ## Names -/

/-- The parameters that are no lists. -/
def paramIsList (key : Text) : Bool :=
  key ∉ ["ALTREP".toList, "CN".toList, "CUTYPE".toList, "DIR".toList, "ENCODING".toList,
    "FMTTYPE".toList,
    "FBTYPE".toList, "LANGUAGE".toList, "PARTSTAT".toList, "RANGE".toList, "RELATED".toList,
    "RELTYPE".toList,
    "ROLE".toList, "RSVP".toList, "SENT-BY".toList, "TZID".toList, "VALUE".toList, "EMAIL".toList,
    "LABEL".toList]

def isTextProperty (name : Text) : Bool :=
  name ∈ ["UID".toList, "SUMMARY".toList, "DESCRIPTION".toList, "LOCATION".toList,
    "CATEGORIES".toList,
    "COMMENT".toList, "CONTACT".toList, "RESOURCES".toList, "TZNAME".toList, "X-WR-CALNAME".toList,
    "X-WR-CALDESC".toList]

/-! ## Reading a line -/

/-- One more parameter, by `param_is_list` with those before it. -/
def addParam (params : List (Text × List Text)) (key : Text) (decoded : List Text) :
    Option (List (Text × List Text)) :=
  match params.find? fun p => p.1 == key with
  | none => some (params ++ [(key, decoded)])
  | some previous =>
    if paramIsList key then
      some (params.map fun p => if p.1 == key then (p.1, p.2 ++ decoded) else p)
    else if previous.2 = decoded then some params
    else none

/-- The body of the loop over the parameters. -/
def readParam (params : List (Text × List Text)) (p : Text) : Option (List (Text × List Text)) := do
  let (k, v) ← splitOnceP (· == '=') p
  let key := Recur.upper (trim k)
  if key = [] ∨ key.any (fun c => c == ';' || c == ':' || c == '"' || c == ',') then none
  else
    let values ← splitOutsideQuotes (trim v) ','
    let decoded ← values.mapM fun value => decodeParamValue (trim value)
    if (key = "TZID".toList ∨ key = "VALUE".toList ∨ key = "RELATED".toList) ∧
      decoded.length ≠ 1 then none
    else addParam params key decoded

def parseLine (line : Text) : Option ContentLine := do
  let (head, value) ← splitValue false line
  let parts ← splitOutsideQuotes head ';'
  match parts with
  | [] => none
  | name :: parts =>
    let name := Recur.upper (trim name)
    if name = [] then none
    else
      let params ← parts.foldlM readParam []
      some { name, params, value := if isTextProperty name then unescape value else value }

/-! ## The name of a line -/

/-- What comes before the colon has no part in finding it. -/
theorem splitValue_append {w : Text} (hw : ∀ c ∈ w, c ≠ '"' ∧ c ≠ ':') (s : Text) :
    splitValue false (w ++ s) = (splitValue false s).map fun p => (w ++ p.1, p.2) := by
  induction w with
  | nil => simp
  | cons c w ih =>
    obtain ⟨hquote, hcolon⟩ := hw c (.head _)
    rw [cons_append, splitValue, if_neg (by simp [hcolon]), if_neg hquote,
      ih fun d hd => hw d (mem_cons_of_mem c hd), Option.map_map]
    rfl

theorem splitFrom_append {delimiter : Char} {w : Text} (hw : ∀ c ∈ w, c ≠ '"' ∧ c ≠ delimiter)
    (piece s : Text) :
    splitFrom delimiter false piece (w ++ s) = splitFrom delimiter false (piece ++ w) s := by
  induction w generalizing piece with
  | nil => simp
  | cons c w ih =>
    obtain ⟨hquote, hdelimiter⟩ := hw c (.head _)
    rw [cons_append, splitFrom, if_neg hquote, if_neg (by simp [hdelimiter]),
      ih fun d hd => hw d (mem_cons_of_mem c hd), append_assoc, singleton_append]

/-- The piece that is begun becomes the first one. -/
theorem prefix_of_splitFrom {delimiter : Char} {q : Bool} {piece s p : Text} {ps : List Text}
    (h : splitFrom delimiter q piece s = some (p :: ps)) : piece <+: p := by
  induction s generalizing q piece with
  | nil =>
    unfold splitFrom at h
    split at h
    · cases h
    · cases h
      exact prefix_rfl
  | cons c s ih =>
    unfold splitFrom at h
    split at h
    · exact (prefix_append piece [c]).trans (ih h)
    · split at h
      · obtain ⟨rest, -, hrest⟩ := Option.map_eq_some_iff.mp h
        cases hrest
        exact prefix_rfl
      · exact (prefix_append piece [c]).trans (ih h)

theorem of_parseLine {text : Text} {line : ContentLine} (h : parseLine text = some line) :
    ∃ head value name parts, splitValue false text = some (head, value) ∧
      splitOutsideQuotes head ';' = some (name :: parts) ∧ line.name = Recur.upper (trim name) := by
  unfold parseLine at h
  obtain ⟨⟨head, value⟩, hvalue, h⟩ := Option.bind_eq_some_iff.mp h
  obtain ⟨parts, hparts, h⟩ := Option.bind_eq_some_iff.mp h
  cases parts with
  | nil => cases h
  | cons name parts =>
    refine ⟨head, value, name, parts, hvalue, hparts, ?_⟩
    dsimp only at h
    split at h
    · cases h
    · obtain ⟨params, -, hline⟩ := Option.bind_eq_some_iff.mp h
      cases hline
      rfl

/-- **What stands before the first delimiter is the name**, unless the name has a quote in it. -/
theorem name_of_parseLine {w r : Text} {d : Char} {line : ContentLine}
    (hw : ∀ c ∈ w, c ≠ ';' ∧ c ≠ ':')
    (hd : d = ';' ∨ d = ':') (h : parseLine (w ++ d :: r) = some line) :
    Recur.upper (trim w) = line.name ∨ '"' ∈ line.name := by
  obtain ⟨head, value, name, parts, hvalue, hparts, hname⟩ := of_parseLine h
  unfold splitOutsideQuotes at hparts
  have hdquote : d ≠ '"' := by
    rcases hd with rfl | rfl
    · decide
    · decide
  by_cases hquote : '"' ∈ w
  · -- the quote is in the first piece
    right
    obtain ⟨a, b, rfl, ha⟩ := eq_append_cons_of_mem hquote
    have hbefore : ∀ c ∈ a, c ≠ '"' ∧ c ≠ ';' ∧ c ≠ ':' := fun c hc =>
      ⟨fun he => ha (he ▸ hc), hw c (mem_append_left _ hc)⟩
    rw [append_assoc, splitValue_append fun c hc => ⟨(hbefore c hc).1, (hbefore c hc).2.2⟩]
      at hvalue
    obtain ⟨⟨head', value'⟩, hrest, hhead⟩ := Option.map_eq_some_iff.mp hvalue
    rw [cons_append, splitValue, if_neg (by decide)] at hrest
    obtain ⟨⟨head'', value''⟩, -, hhead'⟩ := Option.map_eq_some_iff.mp hrest
    cases hhead'
    cases hhead
    rw [splitFrom_append fun c hc => ⟨(hbefore c hc).1, (hbefore c hc).2.1⟩, nil_append, splitFrom,
      if_pos rfl] at hparts
    have hmem : '"' ∈ name := (prefix_of_splitFrom hparts).subset (mem_append_right _ (.head _))
    rw [hname]
    exact mem_map.mpr ⟨'"', (mem_trim (by decide)).mpr hmem, by decide⟩
  · left
    have hplain : ∀ c ∈ w, c ≠ '"' ∧ c ≠ ';' ∧ c ≠ ':' :=
      fun c hc => ⟨fun he => hquote (he ▸ hc), hw c hc⟩
    rw [splitValue_append fun c hc => ⟨(hplain c hc).1, (hplain c hc).2.2⟩] at hvalue
    obtain ⟨⟨head', value'⟩, hrest, hhead⟩ := Option.map_eq_some_iff.mp hvalue
    cases hhead
    rw [splitFrom_append fun c hc => ⟨(hplain c hc).1, (hplain c hc).2.1⟩, nil_append] at hparts
    have hpiece : name = w := by
      rcases hd with rfl | rfl
      · -- the name ends at the semicolon
        rw [splitValue, if_neg (by decide), if_neg (by decide)] at hrest
        obtain ⟨⟨head'', value''⟩, -, hhead'⟩ := Option.map_eq_some_iff.mp hrest
        cases hhead'
        rw [splitFrom, if_neg (by decide), if_pos ⟨rfl, rfl⟩] at hparts
        obtain ⟨rest, -, hpiece⟩ := Option.map_eq_some_iff.mp hparts
        cases hpiece
        rfl
      · rw [splitValue, if_pos ⟨rfl, rfl⟩] at hrest
        cases hrest
        cases hparts
        rfl
    rw [hname, hpiece]

/-- A line that can be read is not blank: it has a colon. -/
theorem trim_ne_nil_of_parseLine {text : Text} {line : ContentLine}
    (h : parseLine text = some line) : trim text ≠ [] := by
  obtain ⟨head, value, -, -, hvalue, -⟩ := of_parseLine h
  have hcolon : ∀ (q : Bool) (s : Text) (p : Text × Text), splitValue q s = some p → ':' ∈ s := by
    intro q s
    induction s generalizing q with
    | nil =>
      intro p hp
      cases hp
    | cons c s ih =>
      intro p hp
      unfold splitValue at hp
      split at hp
      · rename_i hc
        rw [hc.1]
        exact .head _
      · obtain ⟨p', hp', -⟩ := Option.map_eq_some_iff.mp hp
        exact mem_cons_of_mem c (ih _ p' hp')
  exact ne_nil_of_mem ((mem_trim (by decide)).mpr (hcolon _ _ _ hvalue))

/-! ## Times -/

/-- The dates and times of `chrono` with their texts. -/
abbrev Dates := Recur.Chrono Recur.Gregorian.Day NaiveTime

/-- `recur::parse_ics_datetime`. -/
def parseIcsDatetime (dates : Dates) (v : Text) : Option NaiveDateTime :=
  (Recur.parseIcsDatetime dates v).map fun p => ⟨p.1, p.2⟩

def parseTime (dates : Dates) (line : ContentLine) (defaultZone : Text) : Option EventTime :=
  let v := trim line.value
  if line.param "VALUE".toList = some "DATE".toList ∨ 'T' ∉ v then (dates.parseDate v).map .date
  else do
    let wall ← parseIcsDatetime dates v
    if v.getLast? = some 'Z' then some (.instant wall)
    else some (.zoned wall ((line.param "TZID".toList).getD defaultZone))

/-- The times of an `RDATE` or an `EXDATE`. -/
def multiTime (dates : Dates) (line : ContentLine) : Option (List EventTime) :=
  (((line.value.splitOn ',').map trim).filter (· ≠ [])).mapM fun v =>
    parseTime dates { line with value := v } []

example : parseLine "dtstart;tzid=\"Europe/Berlin\":20260101T090000".toList =
    some ⟨"DTSTART".toList, [("TZID".toList, ["Europe/Berlin".toList])],
      "20260101T090000".toList⟩ := by decide

end Thegn.Ics
