import Thegn.Config.Redact
import Thegn.Lib.Splice
import Thegn.Lib.Utf8
import Thegn.Lib.Words

set_option autoImplicit false

/-! # Redacting arguments and fields

`thegn-core/src/log_redact.rs`: what reaches a log line or a crash report passes through here. The
arguments of a command are redacted word by word, and what is left of a line field by field, where a
field is a name before a colon or an equals sign. Positions in a line are bytes, and a slice that
breaks a character stops the program.

The redaction of fields follows the fields of the line, and it stops exactly when a name that it
comes to begins right behind a white space of several bytes (`redactDelimitedFields_eq`).
-/

namespace Thegn.Log

open Text Splice Option
open List hiding contains

def redacted : Text := Config.placeholder

/-! ## What is sensitive -/

def logExtraSensitive : List Text := ["bearer".toList, "auth".toList, "cookie".toList]

def isSensitiveKey (key : Text) : Bool :=
  let k := (key.map Char.toLower).map fun c => if c = '-' then '_' else c
  Config.isSensitive k || logExtraSensitive.any fun s => contains k s

/-- `trim_start_matches('-')`. -/
def trimDashes (s : Text) : Text := s.dropWhile (· == '-')

/-! ## Arguments -/

/-- The characters that make an assignment a URL. -/
def urlChars : List Char := [':', '/', '?', '&', '#', ';']

/-- A round of the loop of `redact_argv`: the token as it is logged, and whether the next one is its
value. -/
def redactToken (redactNext : Bool) (tok : Text) : Text × Bool :=
  if redactNext && !startsWith tok ['-'] then (redacted, false)
  else
    match splitOnce ['='] tok with
    | some (lhs, _) =>
      let key := trimDashes lhs
      if isSensitiveKey key && !key.any (· ∈ urlChars) then (lhs ++ '=' :: redacted, false)
        else (tok, false)
    | none => (tok, startsWith tok ['-'] && isSensitiveKey (trimDashes tok))

def redactTokens (redactNext : Bool) : List Text → List Text
  | [] => []
  | tok :: toks =>
    (redactToken redactNext tok).1 :: redactTokens (redactToken redactNext tok).2 toks

/-- The first argument is the program. -/
def redactArgv : List Text → List Text
  | [] => []
  | program :: toks => program :: redactTokens false toks

/-! ## Slices and positions -/

/-- `&line[start..]`. -/
def sliceFrom (line : Text) (start : Nat) : Option Text := (cut line start).map Prod.snd

/-- `&line[..stop]`. -/
def sliceTo (line : Text) (stop : Nat) : Option Text := (cut line stop).map Prod.fst

/-- `char_indices().find`. -/
def findChar (f : Char → Bool) : Text → Option (Nat × Char)
  | [] => none
  | c :: t => if f c then some (0, c) else (findChar f t).map fun (i, d) => (charLen c + i, d)

/-- `rfind`. -/
def rfind (f : Char → Bool) : Text → Option Nat
  | [] => none
  | c :: t =>
    match rfind f t with
    | some i => some (charLen c + i)
    | none => if f c then some 0 else none

theorem byteLen_of_sliceFrom {line rest : Text} {start : Nat}
    (h : sliceFrom line start = some rest) : byteLen line = start + byteLen rest := by
  obtain ⟨⟨a, b⟩, hcut, rfl⟩ := map_eq_some_iff.mp h
  obtain ⟨rfl, rfl⟩ := cut_eq_some hcut
  exact byteLen_append a b

def skipWhitespace (line : Text) (start : Nat) : Option Nat :=
  match _h : sliceFrom line start with
  | some (c :: _) => if isWhitespace c then skipWhitespace line (start + charLen c) else some start
  | some [] => some start
  | none => none
termination_by byteLen line - start
decreasing_by
  have hlen := byteLen_of_sliceFrom _h
  have hpos := charLen_pos c
  rw [byteLen_cons] at hlen
  omega

/-! ## Fields -/

def isDelimiter (c : Char) : Bool := c == ':' || c == '='

/-- A name begins behind such a character. -/
def isSeparator (c : Char) : Bool :=
  isWhitespace c || decide (c ∈ ['{', '[', '(', ',', '?', '&', '#', ';'])

/-- A value ends before such a character. -/
def endsValue (c : Char) : Bool := isWhitespace c || decide (c ∈ [',', '}', ']', '&', '#', ';'])

def isQuote (c : Char) : Bool := c == '"' || c == '\''

/-- `trim_matches`. -/
def trimMatches (f : Char → Bool) (s : Text) : Text := trimEndMatches f (s.dropWhile f)

def valueToken (line : Text) (start : Nat) : Option (Nat × Nat) := do
  let rest ← sliceFrom line start
  return (start, (findChar endsValue rest).elim (byteLen line) fun (idx, _) => start + idx)

/-- The closing quote of a string. -/
def closingQuote (escaped : Bool) : Text → Option Nat
  | [] => none
  | c :: t =>
    if escaped then (closingQuote false t).map (charLen c + ·)
    else if c = '\\' then (closingQuote true t).map (charLen c + ·)
    else if c = '"' then some 0
    else (closingQuote false t).map (charLen c + ·)

def isCookie (key : Text) : Bool := contains (key.map Char.toLower) "cookie".toList

def isScheme (first : Text) : Bool :=
  decide (first.map Char.toLower ∈ ["bearer".toList, "basic".toList])

/-- The value at `start`; `some none` when there is none. -/
def valueRange (line key : Text) (start : Nat) : Option (Option (Nat × Nat)) := do
  let value ← sliceFrom line start
  if startsWith value ['"'] then
    let content ← sliceFrom line (start + 1)
    return some (start + 1, (closingQuote false content).elim (byteLen line) (start + 1 + ·))
  else if isCookie key then return some (start, byteLen (trimEnd line))
  else
    let first ← valueToken line start
    if first.1 = first.2 then return none
    else
      let firstText ← slice line first.1 first.2
      if isScheme firstText then
        let second ← valueToken line (← skipWhitespace line first.2)
        return some (if second.1 ≠ second.2 then second else first)
      else return some first

/-- A round of the loop of `redact_delimited_fields`: where to search on and what is to be replaced,
`some none` when there is no delimiter left. -/
def nextField (line : Text) (searchFrom : Nat) : Option (Option (Nat × Option (Nat × Nat))) := do
  let rest ← sliceFrom line searchFrom
  match findChar isDelimiter rest with
  | none => return none
  | some (relative, delimiter) =>
    let delimiterStart := searchFrom + relative
    let behind := delimiterStart + charLen delimiter
    let before ← sliceTo line delimiterStart
    let fieldStart := (rfind isSeparator before).elim 0 (· + 1)
    let key := trimMatches isQuote (trim (← sliceFrom before fieldStart))
    if !isSensitiveKey key then return some (behind, none)
    else
      let valueStart ← skipWhitespace line behind
      if valueStart = byteLen line then return some (valueStart, none)
      else
        match ← valueRange line key valueStart with
        | none => return some (valueStart, none)
        | some range =>
          return some (if range.1 ≠ range.2 then (range.2, some range) else (behind, none))

/-! ## Fields, character by character -/

/-- The name of a field: what stands behind the last separator. -/
def fieldName (before : Text) : Text := (before.reverse.takeWhile (!isSeparator ·)).reverse

def keyOf (before : Text) : Text := trimMatches isQuote (trim (fieldName before))

/-- What is in a string, up to its closing quote. -/
def stringBody (escaped : Bool) : Text → Text
  | [] => []
  | c :: t =>
    if escaped then c :: stringBody false t
    else if c = '\\' then c :: stringBody true t
    else if c = '"' then []
    else c :: stringBody false t

/-- Of a value: what is kept before the secret, the secret, and what comes behind it. -/
def valueParts (key value : Text) : Text × Text × Text :=
  if startsWith value ['"'] then
    let body := stringBody false value.tail
    (['"'], body, value.tail.drop body.length)
  else if isCookie key then ([], trimEnd value, value.drop (trimEnd value).length)
  else
    let first := value.takeWhile (!endsValue ·)
    let behind := value.dropWhile (!endsValue ·)
    let gap := behind.takeWhile isWhitespace
    let second := (behind.dropWhile isWhitespace).takeWhile (!endsValue ·)
    if isScheme first ∧ second ≠ [] then (first ++ gap, second,
      (behind.dropWhile isWhitespace).dropWhile (!endsValue ·))
    else ([], first, behind)

/-- A field in the part of a line that is still to be searched. -/
structure Field where
  /-- what stands before its delimiter, from the beginning of the line -/
  before : Text
  kept : Text
  secret : Text
  rest : Text

def splitField (before rest : Text) : Option Field :=
  match rest.dropWhile (!isDelimiter ·) with
  | [] => none
  | d :: tail =>
    let gap := rest.takeWhile (!isDelimiter ·)
    let key := keyOf (before ++ gap)
    let space := tail.takeWhile isWhitespace
    let value := tail.dropWhile isWhitespace
    let (kept, secret, behind) := valueParts key value
    if isSensitiveKey key ∧ (startsWith value ['"'] = true → secret ≠ []) then
      some ⟨before ++ gap, gap ++ d :: space ++ kept, secret, behind⟩
    else some ⟨before ++ gap, gap ++ [d], [], tail⟩

/-- The name begins right behind a white space of several bytes. -/
def BreaksCharacter (before : Text) : Prop := ∃ c ∈ before.reverse.find? isSeparator, charLen c ≠ 1

instance (before : Text) : Decidable (BreaksCharacter before) := by
  unfold BreaksCharacter
  cases before.reverse.find? isSeparator with
  | none => exact isFalse (by simp)
  | some c => exact decidable_of_iff (charLen c ≠ 1) (by simp)

/-! ## Positions of characters -/

section

variable (a b : Text)

theorem sliceFrom_append : sliceFrom (a ++ b) (byteLen a) = some b := by
  rw [sliceFrom, cut_append]; rfl

theorem sliceTo_append : sliceTo (a ++ b) (byteLen a) = some a := by rw [sliceTo, cut_append]; rfl

theorem slice_append (c : Text) : slice (a ++ (b ++ c)) (byteLen a) (byteLen (a ++ b)) =
    some b := by
  unfold slice
  rw [if_pos (by rw [byteLen_append]; omega), cut_append]
  rw [byteLen_append, Nat.add_sub_cancel_left, bind_eq_bind, bind_some]
  dsimp only
  rw [cut_append]
  rfl

end

theorem rfind_eq_none {f : Char → Bool} {w : Text} (hw : ∀ c ∈ w, f c = false) :
    rfind f w = none := by
  induction w with
  | nil => rfl
  | cons c w ih =>
    rw [rfind, ih fun x hx => hw x (mem_cons_of_mem c hx)]
    exact if_neg (by simp [hw c mem_cons_self])

theorem rfind_append {f : Char → Bool} (x : Text) {d : Char} (hd : f d = true) {w : Text}
    (hw : ∀ c ∈ w, f c = false) : rfind f (x ++ d :: w) = some (byteLen x) := by
  induction x with
  | nil =>
    rw [nil_append, rfind, rfind_eq_none hw]
    exact if_pos hd
  | cons c x ih =>
    rw [cons_append, rfind, ih, byteLen_cons]

/-- One byte behind the beginning of a character there is a boundary exactly when the character has
one byte. -/
theorem sliceFrom_succ (x : Text) (d : Char) (w : Text) :
    sliceFrom (x ++ d :: w) (byteLen x + 1) = if charLen d = 1 then some w else none := by
  split_ifs with hd
  · have hlen : byteLen x + 1 = byteLen (x ++ [d]) := by simp [byteLen_cons, hd]
    rw [hlen, ← singleton_append, ← append_assoc]
    exact sliceFrom_append _ _
  · rw [sliceFrom, map_eq_none_iff]
    by_contra hcut
    have hboundary : isCharBoundary (x ++ d :: w) (byteLen x + 1) = true :=
      isSome_iff_ne_none.mpr hcut
    obtain ⟨g, b, hg, hlen⟩ := exists_cut_of_boundary hboundary (Nat.le_succ _)
    cases g with
    | nil =>
      rw [byteLen_nil] at hlen
      omega
    | cons c g =>
      obtain ⟨rfl, -⟩ := List.cons.inj hg
      have hpos := charLen_pos d
      rw [byteLen_cons] at hlen
      omega

theorem skipWhitespace_nil {line : Text} {start : Nat} (h : sliceFrom line start = some []) :
    skipWhitespace line start = some start := by
  rw [skipWhitespace]
  split
  case h_1 heq => cases heq.symm.trans h
  case h_2 => rfl
  case h_3 heq => cases heq.symm.trans h

theorem skipWhitespace_cons {line rest : Text} {c : Char} {start : Nat}
    (h : sliceFrom line start = some (c :: rest)) :
    skipWhitespace line start = if isWhitespace c then skipWhitespace line (start + charLen c)
      else some start := by
  rw [skipWhitespace]
  split
  case h_1 heq =>
    cases heq.symm.trans h
    rfl
  case h_2 heq => cases heq.symm.trans h
  case h_3 heq => cases heq.symm.trans h

theorem skipWhitespace_append (a t : Text) :
    skipWhitespace (a ++ t) (byteLen a) = some (byteLen (a ++ t.takeWhile isWhitespace)) := by
  induction t generalizing a with
  | nil => rw [skipWhitespace_nil (sliceFrom_append a []), takeWhile_nil, append_nil]
  | cons c t ih =>
    rw [skipWhitespace_cons (sliceFrom_append a (c :: t)), takeWhile_cons]
    split_ifs with hc
    · have hstart : byteLen a + charLen c = byteLen (a ++ [c]) := by simp [byteLen_cons]
      have hnext := ih (a ++ [c])
      rw [append_assoc, singleton_append, ← hstart, append_assoc, singleton_append] at hnext
      exact hnext
    · rw [append_nil]

/-- The first character that satisfies `f`, and how much stands before it. -/
theorem findChar_eq (f : Char → Bool) (t : Text) :
    findChar f t = (t.dropWhile (!f ·)).head?.map fun d => (byteLen (t.takeWhile (!f ·)), d) := by
  induction t with
  | nil => rfl
  | cons c t ih =>
    rw [findChar, dropWhile_cons, takeWhile_cons, ih]
    by_cases hc : f c = true
    · have hnot : ¬ (!f c) = true := by simp [hc]
      rw [if_pos hc, if_neg hnot, if_neg hnot]
      rfl
    · have hnot : (!f c) = true := by simp [hc]
      rw [if_neg hc, if_pos hnot, if_pos hnot, Option.map_map]
      simp only [byteLen_cons]
      rfl

theorem valueToken_append (a t : Text) :
    valueToken (a ++ t) (byteLen a) = some (byteLen a,
      byteLen (a ++ t.takeWhile (!endsValue ·))) := by
  rw [valueToken, sliceFrom_append, bind_eq_bind, bind_some, findChar_eq]
  cases hd : t.dropWhile (!endsValue ·) with
  | nil =>
    have htake := takeWhile_append_dropWhile (p := (!endsValue ·)) (l := t)
    rw [hd, append_nil] at htake
    rw [htake]
    rfl
  | cons d rest => simp

/-- Where the content of a string ends. -/
theorem closingQuote_elim (a t : Text) (escaped : Bool) :
    (closingQuote escaped t).elim (byteLen (a ++ t)) (byteLen a + ·) =
      byteLen (a ++ stringBody escaped t) := by
  induction t generalizing a escaped with
  | nil => rfl
  | cons c t ih =>
    have hnext : ∀ e, ((closingQuote e t).map (charLen c + ·)).elim (byteLen (a ++ c :: t))
      (byteLen a + ·) = byteLen (a ++ c :: stringBody e t) := by
      intro e
      have := ih (a ++ [c]) e
      cases hq : closingQuote e t with
      | none => simpa [hq] using this
      | some i =>
        rw [hq] at this
        simp only [elim_some, byteLen_append, byteLen_cons, byteLen_nil] at this
        simp only [map_some, elim_some, byteLen_append, byteLen_cons]
        omega
    unfold closingQuote stringBody
    split_ifs
    · exact hnext false
    · exact hnext true
    · simp
    · exact hnext false

/-- What stands before the last separator, and behind it. -/
theorem separator_cases (before : Text) :
    (before.reverse.find? isSeparator = none ∧ (∀ c ∈ before, isSeparator c = false) ∧
      fieldName before = before) ∨
      ∃ x d, before.reverse.find? isSeparator = some d ∧ isSeparator d = true ∧
      before = x ++ d :: fieldName before ∧ ∀ c ∈ fieldName before, isSeparator c = false := by
  have hsplit := takeWhile_append_dropWhile (p := (!isSeparator ·)) (l := before.reverse)
  have hname : ∀ c ∈ fieldName before, isSeparator c = false := fun c hc => by
    simpa using mem_takeWhile_imp (mem_reverse.mp hc)
  have hfind : before.reverse.find? isSeparator =
    (before.reverse.dropWhile (!isSeparator ·)).head? := by
    rw [List.find?_eq_head?_dropWhile_not]
  cases hdrop : before.reverse.dropWhile (!isSeparator ·) with
  | nil =>
    rw [hdrop, append_nil] at hsplit
    have hwhole : fieldName before = before := by rw [fieldName, hsplit, reverse_reverse]
    exact .inl ⟨by rw [hfind, hdrop]; rfl, hwhole ▸ hname, hwhole⟩
  | cons d rest =>
    have hd : isSeparator d = true := by
      have := head_dropWhile_not (!isSeparator ·) (l := before.reverse) (by simp [hdrop])
      simpa [hdrop] using this
    refine .inr ⟨rest.reverse, d, by rw [hfind, hdrop]; rfl, hd, ?_, hname⟩
    have hbefore := congrArg List.reverse hsplit
    rw [hdrop, reverse_append, reverse_cons, reverse_reverse] at hbefore
    simpa [fieldName] using hbefore.symm

/-- The name of the field, or a slice that breaks a character. -/
theorem sliceFrom_fieldName (before : Text) :
    sliceFrom before ((rfind isSeparator before).elim 0 (· + 1)) =
      if BreaksCharacter before then none else some (fieldName before) := by
  rcases separator_cases before with ⟨hfind, hall, hname⟩ | ⟨x, d, hfind, hd, hbefore, hall⟩
  · have hwhole : ¬ BreaksCharacter before := by simp [BreaksCharacter, hfind]
    rw [rfind_eq_none hall, if_neg hwhole, hname]
    exact sliceFrom_append [] before
  · have hbreaks : BreaksCharacter before ↔ ¬ charLen d = 1 := by simp [BreaksCharacter, hfind]
    have hrfind : rfind isSeparator before = some (byteLen x) := by
      rw [hbefore]
      exact rfind_append x hd hall
    have hslice : sliceFrom before (byteLen x + 1) = if charLen d = 1 then some (fieldName before)
      else none := by
      rw [← sliceFrom_succ x d, ← hbefore]
    rw [hrfind, elim_some, hslice]
    by_cases hlen : charLen d = 1
    · rw [if_pos hlen, if_neg fun h => hbreaks.mp h hlen]
    · rw [if_neg hlen, if_pos (hbreaks.mpr hlen)]

/-! ## The scan follows the fields -/

theorem trimEnd_append {v : Text} (h : ∃ c ∈ v, isWhitespace c = false) (a : Text) :
    trimEnd (a ++ v) = a ++ trimEnd v := by
  have hdrop : (v.reverse.dropWhile isWhitespace) ≠ [] := by
    rw [Ne, dropWhile_eq_nil_iff]
    push Not
    obtain ⟨c, hc, hspace⟩ := h
    exact ⟨c, mem_reverse.mpr hc, by simp [hspace]⟩
  unfold trimEnd trimEndMatches
  rw [reverse_append, dropWhile_append, if_neg (by simpa using hdrop), reverse_append,
    reverse_reverse]

theorem trimEnd_ne_nil {v : Text} (h : ∃ c ∈ v, isWhitespace c = false) : trimEnd v ≠ [] := by
  obtain ⟨c, hc, hspace⟩ := h
  intro hnil
  have hall := dropWhile_eq_nil_iff.mp (reverse_eq_nil_iff.mp hnil)
  have := hall c (mem_reverse.mpr hc)
  rw [hspace] at this
  cases this

section

variable {value : Text} (a key : Text)

theorem valueRange_string (h : startsWith value ['"'] = true) :
    valueRange (a ++ value) key (byteLen a) = some (some
      (byteLen (a ++ (valueParts key value).1),
        byteLen (a ++ (valueParts key value).1 ++ (valueParts key value).2.1))) := by
  obtain ⟨content, rfl⟩ := startsWith_iff.mp h
  have hlen : byteLen a + 1 = byteLen (a ++ ['"']) := by
    rw [byteLen_append]
    rfl
  have hline : a ++ (['"'] ++ content) = a ++ ['"'] ++ content := (append_assoc _ _ _).symm
  rw [valueRange, sliceFrom_append, bind_eq_bind, bind_some, if_pos h, hline, hlen,
    sliceFrom_append, bind_some, closingQuote_elim, valueParts, if_pos h]
  rfl

theorem valueRange_cookie (h : startsWith value ['"'] = false) (hkey : isCookie key = true)
    (hvalue : ∃ c ∈ value, isWhitespace c = false) :
    valueRange (a ++ value) key (byteLen a) = some (some
      (byteLen (a ++ (valueParts key value).1),
        byteLen (a ++ (valueParts key value).1 ++ (valueParts key value).2.1))) := by
  rw [valueRange, sliceFrom_append, bind_eq_bind, bind_some, if_neg (by simp [h]), if_pos hkey,
    valueParts, if_neg (by simp [h]), if_pos hkey, trimEnd_append hvalue, append_nil]
  rfl

theorem byteLen_append_eq_iff (w : Text) : byteLen a = byteLen (a ++ w) ↔ w = [] := by
  constructor
  · intro h
    rw [byteLen_append] at h
    exact eq_nil_of_byteLen (by omega)
  · rintro rfl
    rw [append_nil]

theorem valueRange_token (h : startsWith value ['"'] = false) (hkey : isCookie key = false) :
    valueRange (a ++ value) key (byteLen a) =
      some (if (valueParts key value).2.1 = [] then none else some
        (byteLen (a ++ (valueParts key value).1),
          byteLen (a ++ (valueParts key value).1 ++ (valueParts key value).2.1))) := by
  rw [valueRange, sliceFrom_append, bind_eq_bind, bind_some, if_neg (by simp [h]),
    if_neg (by simp [hkey]), valueToken_append, bind_eq_bind, bind_some]
  dsimp only
  generalize hfirst : value.takeWhile (!endsValue ·) = first
  generalize hbehind : value.dropWhile (!endsValue ·) = behind
  have hvalue : value = first ++ behind := by rw [← hfirst, ← hbehind, takeWhile_append_dropWhile]
  have hsplit := takeWhile_append_dropWhile (p := isWhitespace) (l := behind)
  generalize hgap : behind.takeWhile isWhitespace = gap at hsplit
  generalize htail : behind.dropWhile isWhitespace = tail at hsplit
  generalize hsecond : tail.takeWhile (!endsValue ·) = second
  have hparts : valueParts key value =
      if isScheme first = true ∧ second ≠ []
        then (first ++ gap, second, tail.dropWhile (!endsValue ·))
      else ([], first, behind) := by
    rw [valueParts, if_neg (by simp [h]), if_neg (by simp [hkey]), hfirst, hbehind]
    dsimp only
    rw [hgap, htail, hsecond]
  by_cases hnil : first = []
  · have hscheme : ¬ isScheme first = true := by rw [hnil]; decide
    rw [if_neg fun hc => hscheme hc.1] at hparts
    rw [if_pos ((byteLen_append_eq_iff a first).mpr hnil), hparts]
    exact congrArg some (if_pos hnil).symm
  · rw [if_neg fun heq => hnil ((byteLen_append_eq_iff a first).mp heq)]
    have hslice : slice (a ++ value) (byteLen a) (byteLen (a ++ first)) = some first := by
      rw [hvalue]
      exact slice_append a first behind
    have hskip : skipWhitespace (a ++ value) (byteLen (a ++ first)) =
      some (byteLen (a ++ first ++ gap)) := by
      rw [hvalue, ← append_assoc, skipWhitespace_append, hgap]
    have htoken : valueToken (a ++ value) (byteLen (a ++ first ++ gap)) =
        some (byteLen (a ++ first ++ gap), byteLen (a ++ first ++ gap ++ second)) := by
      have hline : a ++ value = a ++ first ++ gap ++ tail := by
        rw [hvalue, ← hsplit, append_assoc, append_assoc]
      rw [hline, valueToken_append, hsecond]
    rw [hslice, bind_some]
    by_cases hscheme : isScheme first = true
    · rw [if_pos hscheme, hskip, bind_eq_bind, bind_some, htoken, bind_some]
      by_cases hempty : second = []
      · rw [if_neg fun hc => hc.2 hempty] at hparts
        rw [hparts, if_neg (by simp [hempty])]
        simp [hnil]
      · have hne := fun heq => hempty ((byteLen_append_eq_iff (a ++ first ++ gap) second).mp heq)
        rw [if_pos ⟨hscheme, hempty⟩] at hparts
        rw [hparts, if_pos hne]
        simp [hempty]
    · rw [if_neg fun hc => hscheme hc.1] at hparts
      rw [if_neg hscheme, hparts]
      simp [hnil]

/-- The value at `a`, as it is said character by character. -/
theorem valueRange_append (hvalue : ∃ c, value.head? = some c ∧ isWhitespace c = false) :
    valueRange (a ++ value) key (byteLen a) =
      some (if startsWith value ['"'] = false ∧ (valueParts key value).2.1 = [] then none else some
        (byteLen (a ++ (valueParts key value).1),
          byteLen (a ++ (valueParts key value).1 ++ (valueParts key value).2.1))) := by
  cases hstart : startsWith value ['"'] with
  | true =>
    rw [valueRange_string a key hstart]
    exact congrArg some (if_neg (by simp)).symm
  | false =>
    cases hkey : isCookie key with
    | true =>
      obtain ⟨c, hc, hspace⟩ := hvalue
      have hvalue : ∃ c ∈ value, isWhitespace c = false := ⟨c, mem_of_mem_head? hc, hspace⟩
      have hsecret : (valueParts key value).2.1 ≠ [] := by
        rw [valueParts, if_neg (by simp [hstart]), if_pos hkey]
        exact trimEnd_ne_nil hvalue
      rw [valueRange_cookie a key hstart hkey hvalue]
      exact congrArg some (if_neg fun hc => hsecret hc.2).symm
    | false => simpa using valueRange_token a key hstart hkey

end

theorem valueParts_nil (key : Text) : valueParts key [] = ([], [], []) := by
  unfold valueParts
  have hstart : startsWith [] ['"'] = false := rfl
  have hscheme : isScheme [] = false := by decide
  simp [hstart, hscheme, trimEnd, trimEndMatches]

/-- Without a secret nothing is kept of a value that is not quoted. -/
theorem kept_eq_nil {key value : Text} (hstart : startsWith value ['"'] = false)
    (hsecret : (valueParts key value).2.1 = []) : (valueParts key value).1 = [] := by
  unfold valueParts at hsecret ⊢
  rw [if_neg (by simp [hstart])] at hsecret ⊢
  by_cases hkey : isCookie key = true
  · rw [if_pos hkey]
  · rw [if_neg hkey] at hsecret ⊢
    dsimp only at hsecret ⊢
    split_ifs at hsecret ⊢ with hscheme
    · exact absurd hsecret hscheme.2
    · rfl

/-- **A round of the scan takes the next field.** -/
theorem nextField_append (before rest : Text) :
    nextField (before ++ rest) (byteLen before) =
      match splitField before rest with
      | none => some none
      | some f =>
        if BreaksCharacter f.before then none
        else some (some (byteLen (before ++ f.kept ++ f.secret),
          if f.secret = [] then none else some (byteLen (before ++ f.kept),
            byteLen (before ++ f.kept ++ f.secret)))) := by
  have hsplit := takeWhile_append_dropWhile (p := (!isDelimiter ·)) (l := rest)
  rw [nextField, sliceFrom_append, bind_eq_bind, bind_some, findChar_eq, splitField]
  generalize hgap : rest.takeWhile (!isDelimiter ·) = gap at hsplit
  cases hdrop : rest.dropWhile (!isDelimiter ·) with
  | nil => rfl
  | cons d tail =>
    rw [hdrop] at hsplit
    have hstart : byteLen before + byteLen gap = byteLen (before ++ gap) :=
      (byteLen_append _ _).symm
    have hbehind : byteLen (before ++ gap) + charLen d = byteLen (before ++ (gap ++ [d])) := by
      simp [byteLen_cons, Nat.add_assoc]
    have hbefore : sliceTo (before ++ rest) (byteLen (before ++ gap)) = some (before ++ gap) := by
      rw [← hsplit, ← append_assoc, sliceTo_append]
    have htail : before ++ rest = before ++ (gap ++ [d]) ++ tail := by simp [← hsplit]
    have hspace := takeWhile_append_dropWhile (p := isWhitespace) (l := tail)
    have hvalue : ∀ c ∈ (tail.dropWhile isWhitespace).head?, isWhitespace c = false := by
      intro c hc
      have := List.head?_dropWhile_not isWhitespace tail
      rw [mem_def.mp hc] at this
      simpa using this
    have hskip := skipWhitespace_append (before ++ (gap ++ [d])) tail
    rw [← htail] at hskip
    dsimp only [List.head?_cons, map_some]
    generalize tail.takeWhile isWhitespace = space at hspace hskip ⊢
    generalize tail.dropWhile isWhitespace = value at hspace hvalue ⊢
    rw [hstart, hbefore, bind_some, sliceFrom_fieldName, hbehind]
    by_cases hbreaks : BreaksCharacter (before ++ gap)
    · rw [if_pos hbreaks]
      split_ifs <;> exact (if_pos hbreaks).symm
    rw [if_neg hbreaks, bind_some, show trimMatches isQuote (trim (fieldName (before ++ gap))) =
      keyOf (before ++ gap) from rfl]
    generalize keyOf (before ++ gap) = key
    cases hkey : isSensitiveKey key with
    | false => simp [hbreaks]
    | true =>
      rw [if_neg (by simp), hskip, bind_eq_bind, bind_some]
      have hline : before ++ rest = before ++ (gap ++ [d]) ++ space ++ value := by
        rw [htail, ← hspace, append_assoc _ space value]
      cases value with
      | nil =>
        rw [if_pos (by rw [hline, append_nil]), valueParts_nil]
        simp [hbreaks, startsWith, List.isPrefixOf]
      | cons c value =>
        have hne : byteLen (before ++ (gap ++ [d]) ++ space) ≠ byteLen (before ++ rest) := by
          rw [hline, Ne, byteLen_append_eq_iff]
          exact cons_ne_nil c value
        rw [if_neg hne, hline, valueRange_append _ _ ⟨c, rfl, hvalue c rfl⟩, bind_eq_bind,
          bind_some]
        have hkept := @kept_eq_nil key (c :: value)
        generalize valueParts key (c :: value) = parts at hkept ⊢
        obtain ⟨kept, secret, behind⟩ := parts
        by_cases hsecret : secret = []
        · cases hquote : startsWith (c :: value) ['"'] with
          | true => simp [hbreaks, hsecret]
          | false =>
            have hnil : kept = [] := hkept hquote hsecret
            simp [hbreaks, hsecret, hnil]
        · have hlen : byteLen (before ++ (gap ++ [d]) ++ space ++ kept) ≠
              byteLen (before ++ (gap ++ [d]) ++ space ++ kept ++ secret) := fun heq =>
            hsecret ((byteLen_append_eq_iff _ _).mp heq)
          rw [if_neg fun h => hsecret h.2]
          dsimp only
          rw [if_pos hlen, if_pos ⟨rfl, fun _ => hsecret⟩]
          simp [hbreaks, hsecret]

/-! ## All fields -/

theorem stringBody_isPrefix (escaped : Bool) (t : Text) : stringBody escaped t <+: t := by
  induction t generalizing escaped with
  | nil => exact prefix_rfl
  | cons c t ih =>
    unfold stringBody
    split_ifs
    · exact cons_prefix_cons.mpr ⟨rfl, ih false⟩
    · exact cons_prefix_cons.mpr ⟨rfl, ih true⟩
    · exact nil_prefix
    · exact cons_prefix_cons.mpr ⟨rfl, ih false⟩

theorem append_drop_length {a t : Text} (h : a <+: t) : a ++ t.drop a.length = t := by
  obtain ⟨b, rfl⟩ := h
  rw [drop_left]

/-- The parts of a value make the value. -/
theorem valueParts_append (key value : Text) :
    (valueParts key value).1 ++ ((valueParts key value).2.1 ++ (valueParts key value).2.2) =
      value := by
  unfold valueParts
  by_cases hstart : startsWith value ['"'] = true
  · obtain ⟨content, rfl⟩ := startsWith_iff.mp hstart
    rw [if_pos hstart]
    exact congrArg ('"' :: ·) (append_drop_length (stringBody_isPrefix false content))
  rw [if_neg hstart]
  by_cases hkey : isCookie key = true
  · rw [if_pos hkey]
    exact append_drop_length (trimEndMatches_isPrefix isWhitespace value)
  rw [if_neg hkey]
  dsimp only
  split_ifs
  · dsimp only
    rw [append_assoc, takeWhile_append_dropWhile, takeWhile_append_dropWhile,
      takeWhile_append_dropWhile]
  · exact takeWhile_append_dropWhile

/-- A field is the beginning of what was to be searched, and it has its delimiter. -/
theorem splitField_append {before rest : Text} {f : Field} (h : splitField before rest = some f) :
    f.kept ++ (f.secret ++ f.rest) = rest ∧ f.kept ≠ [] := by
  have hsplit := takeWhile_append_dropWhile (p := (!isDelimiter ·)) (l := rest)
  unfold splitField at h
  cases hdrop : rest.dropWhile (!isDelimiter ·) with
  | nil =>
    rw [hdrop] at h
    cases h
  | cons d tail =>
    rw [hdrop] at h hsplit
    dsimp only at h
    have hspace := takeWhile_append_dropWhile (p := isWhitespace) (l := tail)
    have hparts := valueParts_append (keyOf (before ++ rest.takeWhile (!isDelimiter ·)))
      (tail.dropWhile isWhitespace)
    split_ifs at h
    · cases h
      constructor
      · simpa [hparts, hspace] using hsplit
      · simp
    · cases h
      constructor
      · simpa using hsplit
      · simp

theorem before_of_splitField {before rest : Text} {f : Field}
    (h : splitField before rest = some f) : ∃ gap, f.before = before ++ gap ∧ gap ⊆ rest := by
  refine ⟨rest.takeWhile (!isDelimiter ·), ?_, (List.takeWhile_prefix _).subset⟩
  unfold splitField at h
  cases hdrop : rest.dropWhile (!isDelimiter ·) with
  | nil =>
    rw [hdrop] at h
    cases h
  | cons d tail =>
    rw [hdrop] at h
    dsimp only at h
    split_ifs at h
    · cases h
      rfl
    · cases h
      rfl

theorem rest_length_lt {before rest : Text} {f : Field} (h : splitField before rest = some f) :
    f.rest.length < rest.length := by
  obtain ⟨happend, hkept⟩ := splitField_append h
  have hpos := length_pos_of_ne_nil hkept
  rw [← happend, length_append, length_append]
  omega

/-- The scan goes on inside the line. -/
theorem nextField_bounds {line : Text} {searchFrom next : Nat} {range : Option (Nat × Nat)}
    (h : nextField line searchFrom = some (some (next, range))) :
    searchFrom < next ∧ next ≤ byteLen line := by
  cases hcut : cut line searchFrom with
  | none =>
    rw [nextField, sliceFrom, hcut] at h
    cases h
  | some p =>
    obtain ⟨before, rest⟩ := p
    obtain ⟨rfl, rfl⟩ := cut_eq_some hcut
    rw [nextField_append] at h
    cases hfield : splitField before rest with
    | none =>
      rw [hfield] at h
      cases h
    | some f =>
      obtain ⟨happend, hkept⟩ := splitField_append hfield
      have hpos : byteLen f.kept ≠ 0 := fun hzero => hkept (eq_nil_of_byteLen hzero)
      rw [hfield] at h
      dsimp only at h
      split_ifs at h
      all_goals
        obtain ⟨rfl, -⟩ := Prod.mk.inj (Option.some.inj (Option.some.inj h))
        rw [← happend]
        simp only [byteLen_append]
        omega

/-- The loop of `redact_delimited_fields`. -/
def replacements (line : Text) (searchFrom : Nat) : Option (List (Nat × Nat)) :=
  match _h : nextField line searchFrom with
  | none => none
  | some none => some []
  | some (some (next, range)) => (replacements line next).map (range.toList ++ ·)
termination_by byteLen line - searchFrom
decreasing_by
  have hbounds := nextField_bounds _h
  omega

/-- The last range is replaced first. -/
def replaceRanges (line : Text) : List (Nat × Nat) → Option Text
  | [] => some line
  | (start, stop) :: ranges => do replaceRange (← replaceRanges line ranges) start stop redacted

def redactDelimitedFields (line : Text) : Option Text :=
  do replaceRanges line (← replacements line 0)

/-- The names before the delimiters that the scan comes to, each from the beginning of the line. -/
def visits (before rest : Text) : List Text :=
  match _h : splitField before rest with
  | none => []
  | some f => f.before :: visits (before ++ f.kept ++ f.secret) f.rest
termination_by rest.length
decreasing_by exact rest_length_lt _h

/-- The secrets of the fields are swapped for the placeholder. -/
def fields (before rest : Text) : List (Piece Char) :=
  match _h : splitField before rest with
  | none => [.keep rest]
  | some f =>
    .keep f.kept :: ((if f.secret = [] then [] else [.swap f.secret redacted]) ++
      fields (before ++ f.kept ++ f.secret) f.rest)
termination_by rest.length
decreasing_by exact rest_length_lt _h

section

variable {before rest : Text}

theorem visits_none (h : splitField before rest = none) : visits before rest = [] := by
  rw [visits]
  split
  case h_1 => rfl
  case h_2 heq => cases h.symm.trans heq

theorem visits_some {f : Field} (h : splitField before rest = some f) :
    visits before rest = f.before :: visits (before ++ f.kept ++ f.secret) f.rest := by
  rw [visits]
  split
  case h_1 heq => cases h.symm.trans heq
  case h_2 heq =>
    cases h.symm.trans heq
    rfl

theorem fields_none (h : splitField before rest = none) : fields before rest = [.keep rest] := by
  rw [fields]
  split
  case h_1 => rfl
  case h_2 heq => cases h.symm.trans heq

theorem fields_some {f : Field} (h : splitField before rest = some f) :
    fields before rest = .keep f.kept ::
      ((if f.secret = [] then [] else [.swap f.secret redacted]) ++
      fields (before ++ f.kept ++ f.secret) f.rest) := by
  rw [fields]
  split
  case h_1 heq => cases h.symm.trans heq
  case h_2 heq =>
    cases h.symm.trans heq
    rfl

end

/-- All that is swapped is swapped for the placeholder. -/
def Masked (ps : List (Piece Char)) : Prop := ∀ old new, Piece.swap old new ∈ ps → new = redacted

theorem oldOf_fields (before rest : Text) : oldOf (fields before rest) = rest := by
  induction before, rest using fields.induct with
  | case1 before rest h => rw [fields_none h, oldOf_cons, oldOf_nil, Piece.old, append_nil]
  | case2 before rest f h ih =>
    obtain ⟨happend, -⟩ := splitField_append h
    rw [fields_some h, oldOf_cons, oldOf_append, ih, Piece.old, ← happend]
    split_ifs with hsecret
    · rw [hsecret]
      rfl
    · rw [oldOf_cons, oldOf_nil, append_nil]
      rfl

theorem masked_fields (before rest : Text) : Masked (fields before rest) := by
  induction before, rest using fields.induct with
  | case1 before rest h =>
    rw [fields_none h]
    intro old new hmem
    simp at hmem
  | case2 before rest f h ih =>
    rw [fields_some h]
    intro old new hmem
    rcases mem_cons.mp hmem with hkeep | hmem
    · cases hkeep
    rcases mem_append.mp hmem with hswap | hmem
    · split_ifs at hswap
      · cases hswap
      · rw [mem_singleton] at hswap
        cases hswap
        rfl
    · exact ih old new hmem

/-- The ranges of what is swapped. -/
def rangesOf (pos : Nat) (ps : List (Piece Char)) : List (Nat × Nat) :=
  (splices byteLen pos ps).map fun r => (r.start, r.stop)

theorem rangesOf_keep (pos : Nat) (xs : Text) (ps : List (Piece Char)) :
    rangesOf pos (.keep xs :: ps) = rangesOf (pos + byteLen xs) ps := rfl

theorem rangesOf_swap (pos : Nat) (old new : Text) (ps : List (Piece Char)) :
    rangesOf pos (.swap old new :: ps) = (pos, pos + byteLen old) ::
      rangesOf (pos + byteLen old) ps := rfl

/-- **Replacing from the last range to the first swaps the pieces.** The induction is on the pieces;
those before have been left alone. -/
theorem replaceRanges_rangesOf {ps : List (Piece Char)} (hps : Masked ps) (a : Text) :
    replaceRanges (a ++ oldOf ps) (rangesOf (byteLen a) ps) = some (a ++ newOf ps) := by
  induction ps generalizing a with
  | nil => rfl
  | cons p ps ih =>
    have hrest := ih fun old new hmem => hps old new (mem_cons_of_mem p hmem)
    cases p with
    | keep xs =>
      rw [rangesOf_keep, ← byteLen_append, oldOf_cons, newOf_cons, ← append_assoc, ← append_assoc]
      exact hrest (a ++ xs)
    | swap old new =>
      have hnew : new = redacted := hps old new (.head _)
      have hbehind := hrest (a ++ old)
      rw [byteLen_append, append_assoc, append_assoc] at hbehind
      rw [rangesOf_swap, replaceRanges, oldOf_cons, newOf_cons, Piece.old, Piece.new, hbehind, hnew]
      exact replaceRange_append a old (newOf ps) redacted

/-- **The scan finds the fields, unless a name breaks a character.** -/
theorem replacements_append (before rest : Text) :
    replacements (before ++ rest) (byteLen before) =
      if ∀ name ∈ visits before rest, ¬ BreaksCharacter name
        then some (rangesOf (byteLen before) (fields before rest)) else none := by
  induction before, rest using fields.induct with
  | case1 before rest h =>
    have hnext := nextField_append before rest
    rw [h] at hnext
    rw [replacements, visits_none h, fields_none h, if_pos (by simp)]
    split
    case h_1 heq => cases hnext.symm.trans heq
    case h_2 => rfl
    case h_3 heq => cases hnext.symm.trans heq
  | case2 before rest f h ih =>
    have hnext := nextField_append before rest
    obtain ⟨happend, -⟩ := splitField_append h
    have hline : before ++ f.kept ++ f.secret ++ f.rest = before ++ rest := by
      rw [← happend, append_assoc, append_assoc]
    rw [h] at hnext
    dsimp only at hnext
    have hcons := forall_mem_cons (p := (¬ BreaksCharacter ·)) (a := f.before)
      (l := visits (before ++ f.kept ++ f.secret) f.rest)
    rw [hline] at ih
    rw [replacements, visits_some h, fields_some h]
    by_cases hbreaks : BreaksCharacter f.before
    · rw [if_pos hbreaks] at hnext
      rw [if_neg fun hall => (hcons.mp hall).1 hbreaks]
      split
      case h_1 => rfl
      case h_2 heq => cases hnext.symm.trans heq
      case h_3 heq => cases hnext.symm.trans heq
    rw [if_neg hbreaks] at hnext
    split
    case h_1 heq => cases hnext.symm.trans heq
    case h_2 heq => cases hnext.symm.trans heq
    case h_3 next range heq =>
      obtain ⟨rfl, rfl⟩ := Prod.mk.inj (Option.some.inj (Option.some.inj (heq.symm.trans hnext)))
      rw [ih]
      by_cases hall : ∀ name ∈ visits (before ++ f.kept ++ f.secret) f.rest, ¬ BreaksCharacter name
      · rw [if_pos hall, if_pos (hcons.mpr ⟨hbreaks, hall⟩), map_some, rangesOf_keep,
          ← byteLen_append]
        by_cases hsecret : f.secret = []
        · rw [if_pos hsecret, if_pos hsecret, hsecret, append_nil]
          rfl
        · rw [if_neg hsecret, if_neg hsecret, singleton_append, rangesOf_swap, ← byteLen_append]
          rfl
      · rw [if_neg hall, if_neg fun hboth => hall (hcons.mp hboth).2]
        rfl

/-- The names that are visited are in the line. -/
theorem visits_subset {before rest name : Text} (h : name ∈ visits before rest) :
    ∀ c ∈ name, c ∈ before ++ rest := by
  induction before, rest using visits.induct with
  | case1 before rest hnone =>
    rw [visits_none hnone] at h
    cases h
  | case2 before rest f hsome ih =>
    obtain ⟨happend, -⟩ := splitField_append hsome
    rw [visits_some hsome] at h
    intro c hc
    rcases mem_cons.mp h with rfl | h
    · obtain ⟨gap, hgap, hsub⟩ := before_of_splitField hsome
      rw [hgap] at hc
      rcases mem_append.mp hc with hc | hc
      · exact mem_append_left _ hc
      · exact mem_append_right _ (hsub hc)
    · have hmem := ih h c hc
      rw [append_assoc, append_assoc, happend] at hmem
      exact hmem

/-- No name breaks a character in a line of one-byte characters. -/
theorem not_breaks_of_charLen {line : Text} (h : ∀ c ∈ line, charLen c = 1) :
    ∀ name ∈ visits [] line, ¬ BreaksCharacter name := by
  rintro name hname ⟨c, hfind, hlen⟩
  have hmem := mem_reverse.mp (mem_of_find?_eq_some hfind)
  exact hlen (h c (visits_subset hname c hmem))

/-- The second pass swaps the secrets of the fields. -/
theorem redactDelimitedFields_eq (line : Text) :
    redactDelimitedFields line =
      if ∀ name ∈ visits [] line, ¬ BreaksCharacter name then some (newOf (fields [] line))
        else none := by
  have hscan := replacements_append [] line
  rw [nil_append, byteLen_nil] at hscan
  rw [redactDelimitedFields, hscan]
  split_ifs with hall
  · have hreplace := replaceRanges_rangesOf (masked_fields [] line) []
    rw [oldOf_fields] at hreplace
    exact hreplace
  · rfl

end Thegn.Log
