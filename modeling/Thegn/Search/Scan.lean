import Thegn.Lib.Utf8
import Thegn.Lib.Words

set_option autoImplicit false

/-! # Finding matches

The scanning half of search and replace (`thegn-core/src/search_replace.rs`): the matcher, the
matches of one line and of a file, and the replacement rendered for a match. A compiled regex of the
`regex` crate is the function that gives, for each match in a line, the byte spans of its groups.
-/

namespace Thegn.Search

open Text

/-- 64-bit FNV-1a. -/
def fnv1a64 (bytes : List UInt8) : UInt64 :=
  bytes.foldl (fun h b => (h ^^^ b.toUInt64) * 0x00000100000001b3) 0xcbf29ce484222325

inductive SearchMode
  | literal
  | regex
  deriving DecidableEq

/-- A match on one line: its byte span, and the texts of its groups. -/
structure LineMatch where
  start : Nat
  stop : Nat
  captures : List Text
  deriving DecidableEq

/-- The spans of the groups of one match; a group that did not take part has none. -/
abbrev Captures := List (Option (Nat × Nat))

/-- `caps.get(0)`: the span of the whole match. -/
def wholeSpan (caps : Captures) : Option (Nat × Nat) := (caps[0]?).join

/-- A compiled regex: its matches in a line (`captures_iter`). -/
structure Regex where
  capturesIter : Text → List Captures

inductive Matcher
  | literal (needle : Text) (caseSensitive wholeWord : Bool)
  | regex (re : Regex)

/-! ## Scanning a line -/

/-- ASCII `\w`. -/
def isWordByte (b : UInt8) : Bool :=
  (48 ≤ b && b ≤ 57) || (65 ≤ b && b ≤ 90) || (97 ≤ b && b ≤ 122) || b == 95

def toAsciiLowercase (b : UInt8) : UInt8 := if 65 ≤ b && b ≤ 90 then b + 32 else b

/-- Neither neighbour of the span is a word byte. -/
def onWord (bytes : List UInt8) (start stop : Nat) : Bool :=
  (start == 0 || !(bytes[start - 1]?.any isWordByte)) && !(bytes[stop]?.any isWordByte)

section

variable (line : Text) (hayCmp needleCmp : List UInt8) (wholeWord : Bool)

/-- Whether the needle is found at byte `i`, on character boundaries and as a word if asked for. -/
def foundAt (i : Nat) : Bool :=
  byteSlice hayCmp i (i + needleCmp.length) == needleCmp
    && (isCharBoundary line i && isCharBoundary line (i + needleCmp.length))
    && (!wholeWord || onWord (utf8 line) i (i + needleCmp.length))

/-- The loop of `literal_scan` from byte `i` on, for at most `fuel` rounds. -/
def literalLoop : Nat → Nat → List LineMatch
  | 0, _ => []
  | fuel + 1, i =>
    if i + needleCmp.length ≤ hayCmp.length then
      if foundAt line hayCmp needleCmp wholeWord i then
        { start := i
          stop := i + needleCmp.length
          captures := [(slice line i (i + needleCmp.length)).getD []] }
        :: literalLoop fuel (i + needleCmp.length)
      else literalLoop fuel (i + 1)
    else []

/-- Every round moves forward, so the rounds are bounded by the bytes that are left. -/
theorem literalLoop_fuel (hne : needleCmp ≠ []) {fuel fuel' i : Nat}
    (h : hayCmp.length < i + fuel) (h' : hayCmp.length < i + fuel') :
    literalLoop line hayCmp needleCmp wholeWord fuel i
      = literalLoop line hayCmp needleCmp wholeWord fuel' i := by
  have hpos : 0 < needleCmp.length := List.length_pos_iff.mpr hne
  induction fuel generalizing fuel' i with
  | zero =>
    cases fuel' with
    | zero => rfl
    | succ fuel' => rw [literalLoop, literalLoop, if_neg (by omega)]
  | succ fuel ih =>
    cases fuel' with
    | zero => rw [literalLoop, literalLoop, if_neg (by omega)]
    | succ fuel' =>
      have hnext := @ih fuel' (i + 1) (by omega) (by omega)
      have hbehind := @ih fuel' (i + needleCmp.length) (by omega) (by omega)
      rw [literalLoop, literalLoop, hnext, hbehind]

end

/-- Literal substring scan, by bytes. -/
def literalScan (line needle : Text) (caseSensitive wholeWord : Bool) : List LineMatch :=
  if needle = [] then []
  else
    let hayBytes := utf8 line
    let lower := fun bs : List UInt8 => if caseSensitive then bs else bs.map toAsciiLowercase
    literalLoop line (lower hayBytes) (lower (utf8 needle)) wholeWord (hayBytes.length + 1) 0

/-- One match of a regex; a match of no width is left out. -/
def regexMatch (line : Text) (caps : Captures) : Option LineMatch := do
  let (start, stop) ← wholeSpan caps
  if start = stop then none
  else some {
    start := start
    stop := stop
    captures := caps.map (fun g => (g.bind (fun span => slice line span.1 span.2)).getD []) }

/-- All matches on one line, left to right. -/
def Matcher.scanLine (m : Matcher) (line : Text) : List LineMatch :=
  match m with
  | .literal needle caseSensitive wholeWord => literalScan line needle caseSensitive wholeWord
  | .regex re => (re.capturesIter line).filterMap (regexMatch line)

/-! ## Scanning a file -/

/-- One hit of the search, with a snapshot of its line. -/
structure Match where
  path : Text
  line : Nat
  byteStart : Nat
  byteEnd : Nat
  lineText : Text
  contentHash : UInt64
  captures : List Text
  deriving DecidableEq

def splitLines (content : Text) : List Text := content.splitOn '\n'

/-- The matches of line `idx`, counted from 0. -/
def lineMatches (path : Text) (matcher : Matcher) (seg : Text) (idx : Nat) : List Match :=
  (matcher.scanLine seg).map (fun lm => {
    path := path
    line := idx + 1
    byteStart := lm.start
    byteEnd := lm.stop
    lineText := seg
    contentHash := fnv1a64 (utf8 seg)
    captures := lm.captures })

/-- The matches of a file, up to `limit` (0 for all). -/
def scanContent (path content : Text) (matcher : Matcher) (limit : Nat) : List Match :=
  let all := ((splitLines content).zipIdx).flatMap (fun p => lineMatches path matcher p.1 p.2)
  if limit = 0 then all else all.take limit

/-! ## Rendering the replacement -/

/-- `str::parse::<usize>`. -/
def parseUsize (s : Text) : Option Nat := parseUnsigned (2 ^ 64) s

/-- `$N`, `${N}` and `$$`; every step consumes at least one character, so the length of the template
is enough fuel. -/
def expandFrom (captures : List Text) : Nat → Text → Text
  | 0, _ => []
  | _ + 1, [] => []
  | fuel + 1, c :: rest =>
    if c ≠ '$' then c :: expandFrom captures fuel rest
    else
      match rest with
      | [] => ['$']
      | next :: after =>
        if next = '$' then '$' :: expandFrom captures fuel after
        else if next = '\x7b' then
          match splitOnce ['\x7d'] after with
          | some (inner, tail) =>
            match parseUsize (trim inner) with
            | some n => (captures[n]?).getD [] ++ expandFrom captures fuel tail
            | none => '$' :: expandFrom captures fuel rest
          | none => '$' :: expandFrom captures fuel rest
        else if next.isDigit then
          ((parseUsize (rest.takeWhile Char.isDigit)).bind (captures[·]?)).getD []
            ++ expandFrom captures fuel (rest.dropWhile Char.isDigit)
        else '$' :: expandFrom captures fuel rest

def expandTemplate (template : Text) (captures : List Text) : Text :=
  expandFrom captures template.length template

def renderReplacement (captures : List Text) (template : Text) (mode : SearchMode) : Text :=
  match mode with
  | .literal => template
  | .regex => expandTemplate template captures

end Thegn.Search

/-! ## Applying edits

The guarded application of edits to the content of a file (`apply_edits`), and the same for edits
addressed by file offsets (`apply_span_edits`). Both replace from right to left and refuse an edit
that does not fit what is left to edit. `none` stands for a panic.
-/

namespace Thegn.Search

open Text

/-- One edit, made from an accepted match and its rendered replacement. -/
structure Edit where
  line : Nat
  byteStart : Nat
  byteEnd : Nat
  contentHash : UInt64
  replacement : Text
  deriving DecidableEq

def Edit.fromMatch (m : Match) (template : Text) (mode : SearchMode) : Edit where
  line := m.line
  byteStart := m.byteStart
  byteEnd := m.byteEnd
  contentHash := m.contentHash
  replacement := renderReplacement m.captures template mode

structure AppliedContent where
  content : Text
  applied : Nat
  skippedDrift : Nat
  deriving DecidableEq

/-! ## Replacing from right to left -/

/-- The text being edited, the start of the last edit made, and the counts. -/
structure Progress where
  text : Text
  lastStart : Nat
  applied : Nat
  skipped : Nat

/-- Whether a span can be replaced: in range, in front of the last edit, on character boundaries. -/
def Progress.fits (st : Progress) (start stop : Nat) : Bool :=
  !(byteLen st.text < stop || stop < start || st.lastStart < stop
    || !isCharBoundary st.text start || !isCharBoundary st.text stop)

/-- One round of either loop; `fresh` is its check for drift. -/
def replaceStep (st : Progress) (start stop : Nat) (replacement : Text) (fresh : Text → Bool) :
    Option Progress :=
  if !st.fits start stop then some { st with skipped := st.skipped + 1 }
  else if !fresh st.text then some { st with skipped := st.skipped + 1 }
  else do
    let text ← replaceRange st.text start stop replacement
    return { text, lastStart := start, applied := st.applied + 1, skipped := st.skipped }

/-! ## Edits by line -/

/-- The drift of a line is checked before its edits are. -/
def editStep (st : Progress) (e : Edit) : Option Progress :=
  replaceStep st e.byteStart e.byteEnd e.replacement (fun _ => true)

/-- `sort_by_key` with `Reverse`. -/
def sortDown {ε : Type} (start : ε → Nat) (es : List ε) : List ε :=
  es.mergeSort (fun a b => decide (start b ≤ start a))

/-- The edits grouped by line, in the order of the lines. -/
def byLine (edits : List Edit) : List (Nat × List Edit) :=
  (((edits.map Edit.line).dedup).mergeSort (fun a b => decide (a ≤ b))).map
    (fun line => (line, edits.filter (fun e => e.line == line)))

/-- The lines, and the counts. -/
structure LineProgress where
  lines : List Text
  applied : Nat
  skipped : Nat

/-- Apply the edits of one line. -/
def applyGroup (st : LineProgress) (line : Nat) (group : List Edit) : Option LineProgress :=
  match st.lines[line - 1]? with
  | none => some { st with skipped := st.skipped + group.length }
  | some seg =>
    if group.any (fun e => e.contentHash != fnv1a64 (utf8 seg)) then
      some { st with skipped := st.skipped + group.length }
    else do
      let out ← (sortDown Edit.byteStart group).foldlM editStep
        { text := seg, lastStart := byteLen seg + 1, applied := st.applied, skipped := st.skipped }
      -- `lines[line - 1]` underflows for line 0
      if line = 0 then none
      else some { lines := st.lines.set (line - 1) out.text, applied := out.applied,
                  skipped := out.skipped }

def applyEdits (original : Text) (edits : List Edit) : Option AppliedContent := do
  let out ← (byLine edits).foldlM (fun st g => applyGroup st g.1 g.2)
    { lines := splitLines original, applied := 0, skipped := 0 }
  return { content := join ['\n'] out.lines, applied := out.applied, skippedDrift := out.skipped }

/-! ## Edits by file offset -/

structure SpanEdit where
  byteStart : Nat
  byteEnd : Nat
  contentHash : UInt64
  replacement : Text
  deriving DecidableEq

def spanStep (st : Progress) (e : SpanEdit) : Option Progress :=
  replaceStep st e.byteStart e.byteEnd e.replacement
    (fun text => fnv1a64 (byteSlice (utf8 text) e.byteStart e.byteEnd) == e.contentHash)

def applySpanEdits (original : Text) (edits : List SpanEdit) : Option AppliedContent := do
  let out ← (sortDown SpanEdit.byteStart edits).foldlM spanStep
    { text := original, lastStart := byteLen original + 1, applied := 0, skipped := 0 }
  return { content := out.text, applied := out.applied, skippedDrift := out.skipped }

end Thegn.Search
