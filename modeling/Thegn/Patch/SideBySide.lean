import Thegn.Lib.Words

set_option autoImplicit false

/-! # A diff side by side

`thegn-core/src/diff_sbs.rs`: the hunks of a unified diff become rows with an old and a new cell.
Context stands on both sides; removals and additions that follow each other are zipped.

The parser follows the sections of a diff: each line of a section comes to stand in its place, with
its number modulo 2^32 (`parseUnified_cases`). The header parser takes the first byte of a range for
its sign, and stops the program where that is no whole character.
-/

namespace Thegn.SideBySide

open Text List Option

/-! ## Cells, rows and hunks -/

inductive CellKind
  | context
  | removed
  | added
  deriving DecidableEq

structure SbsCell where
  lineNo : Nat
  text : Text
  kind : CellKind
  deriving DecidableEq

structure SbsRow where
  old : Option SbsCell
  new : Option SbsCell
  deriving DecidableEq

structure SbsHunk where
  oldStart : Nat
  newStart : Nat
  func : Text
  rows : List SbsRow
  deriving DecidableEq

structure SbsFile where
  hunks : List SbsHunk := []
  added : Nat := 0
  deleted : Nat := 0
  deriving DecidableEq

/-! ## The parser

Where the source stops the program, a function yields `none`. -/

def atAt : Text := ['@', '@']

/-- `split_at(1)`, which counts bytes. -/
def splitAt1 : Text → Option (Char × Text)
  | c :: nums => if c.utf8Size = 1 then some (c, nums) else none
  | [] => none

/-- The number at the beginning of a range, up to the comma. -/
def rangeStart (nums : Text) : Option Nat := (nums.splitOn ',').head?.bind (parseUnsigned (2 ^ 32))

/-- The loop of `parse_hunk_header`. -/
def parseRanges (oldStart newStart : Option Nat) : List Text →
    Option (Option (Option Nat × Option Nat))
  | [] => some (some (oldStart, newStart))
  | part :: parts => do
      let (sign, nums) ← splitAt1 part
      match rangeStart nums with
      | none => some none
      | some start =>
        if sign = '-' then parseRanges (some start) newStart parts
        else if sign = '+' then parseRanges oldStart (some start) parts
        else some none

def parseHunkHeader (line : Text) : Option (Option (Nat × Nat × Text)) :=
  match (stripPrefix atAt line).bind (splitOnce atAt) with
  | none => some none
  | some (range, func) => do
      match ← parseRanges none none (splitWhitespace (trim range)) with
      | some (some oldStart, some newStart) => some (some (oldStart, newStart, trim func))
      | _ => some none

def flushLoop : Nat → List SbsCell → List SbsCell → List SbsRow
  | 0, _, _ => []
  | n + 1, rem, add => ⟨rem.head?, add.head?⟩ :: flushLoop n rem.tail add.tail

def flushRun (removed added : List SbsCell) : List SbsRow :=
  flushLoop (max removed.length added.length) removed added

/-- `+= 1` on a `u32`, with or without overflow checks. -/
def bump (checked : Bool) (n : Nat) : Option Nat :=
  if n + 1 < 2 ^ 32 then some (n + 1) else if checked then none else some 0

/-- The variables of `parse_unified`. -/
structure Parse where
  file : SbsFile := {}
  cur : Option SbsHunk := none
  oldNo : Nat := 0
  newNo : Nat := 0
  removed : List SbsCell := []
  added : List SbsCell := []

/-- The closure `finish`. -/
def Parse.finish (p : Parse) : Parse :=
  match p.cur with
  | some h =>
    let h := { h with rows := h.rows ++ flushRun p.removed p.added }
    { p with file := { p.file with hunks := p.file.hunks ++ [h] }, cur := none, removed := [],
             added := [] }
  | none => p

/-- A line that begins with `@@`. -/
def Parse.header (p : Parse) (line : Text) : Option Parse := do
  match ← parseHunkHeader line with
  | some (o, n, func) =>
    some { p.finish with
      cur := some { oldStart := o, newStart := n, func, rows := [] }
      oldNo := o
      newNo := n }
  | none => some p.finish

/-- Another line, while the hunk `h` is open. -/
def Parse.body (checked : Bool) (p : Parse) (h : SbsHunk) : Text → Option Parse
  | ' ' :: text => do
      let row : SbsRow := ⟨some ⟨p.oldNo, text, .context⟩, some ⟨p.newNo, text, .context⟩⟩
      return { p with
        cur := some { h with rows := h.rows ++ flushRun p.removed p.added ++ [row] }
        removed := []
        added := []
        oldNo := ← bump checked p.oldNo
        newNo := ← bump checked p.newNo }
  | '-' :: text => do
      return { p with
        removed := p.removed ++ [⟨p.oldNo, text, .removed⟩]
        oldNo := ← bump checked p.oldNo
        file := { p.file with deleted := ← bump checked p.file.deleted } }
  | '+' :: text => do
      return { p with
        added := p.added ++ [⟨p.newNo, text, .added⟩]
        newNo := ← bump checked p.newNo
        file := { p.file with added := ← bump checked p.file.added } }
  | _ => some p

def Parse.line (checked : Bool) (p : Parse) (line : Text) : Option Parse :=
  if startsWith line atAt then p.header line
  else
    match p.cur with
    | some h => p.body checked h line
    | none => some p

def parseUnified (checked : Bool) (diff : Text) : Option SbsFile := do
  let p ← (lines diff).foldlM (Parse.line checked) {}
  return p.finish.file

/-! ## Headers -/

/-- A sign and a number. -/
def IsRange (part : Text) : Prop :=
  ∃ sign nums, part = sign :: nums ∧ (sign = '-' ∨ sign = '+') ∧ (rangeStart nums).isSome = true

/-- A part of the header that is looked at begins with a character of several bytes. -/
def SplitsCharacter (line : Text) : Prop :=
  ∃ rest range func pre c nums post, line = atAt ++ rest ∧
    splitOnce atAt rest = some (range, func) ∧
    splitWhitespace (trim range) = pre ++ (c :: nums) :: post ∧ (∀ part ∈ pre, IsRange part) ∧
      c.utf8Size ≠ 1

theorem utf8Size_sign {c : Char} (h : c = '-' ∨ c = '+') : c.utf8Size = 1 := by
  rcases h with rfl | rfl <;> rfl

theorem parseRanges_eq_none {parts : List Text} (hparts : ∀ part ∈ parts, part ≠ [])
    (o n : Option Nat) :
    parseRanges o n parts = none ↔
      ∃ pre c nums post, parts = pre ++ (c :: nums) :: post ∧ (∀ part ∈ pre, IsRange part) ∧
      c.utf8Size ≠ 1 := by
  induction parts generalizing o n with
  | nil => simp [parseRanges]
  | cons part parts ih =>
    obtain ⟨c, nums, rfl⟩ := exists_cons_of_ne_nil (hparts _ (.head _))
    have ih := ih fun part hpart => hparts part (.tail _ hpart)
    -- a later part can only be the one when this one is a range
    have hlater : (∃ pre d nums' post, (c :: nums) :: parts = pre ++ (d :: nums') :: post ∧
        (∀ part ∈ pre, IsRange part) ∧ d.utf8Size ≠ 1) ↔
        c.utf8Size ≠ 1 ∨ IsRange (c :: nums) ∧ ∃ pre d nums' post,
          parts = pre ++ (d :: nums') :: post ∧ (∀ part ∈ pre, IsRange part) ∧ d.utf8Size ≠ 1 := by
      constructor
      · rintro ⟨pre, d, nums', post, heq, hpre, hd⟩
        cases pre with
        | nil =>
          cases heq
          exact .inl hd
        | cons q pre =>
          cases heq
          exact .inr ⟨hpre _ (.head _), pre, d, nums', post, rfl,
            fun part hpart => hpre part (.tail _ hpart), hd⟩
      · rintro (hc | ⟨hrange, pre, d, nums', post, rfl, hpre, hd⟩)
        · exact ⟨[], c, nums, parts, rfl, by simp, hc⟩
        · exact ⟨(c :: nums) :: pre, d, nums', post, rfl, forall_mem_cons.mpr ⟨hrange, hpre⟩, hd⟩
    rw [hlater]
    by_cases hc : c.utf8Size = 1
    · have hrange : IsRange (c :: nums) ↔ (c = '-' ∨ c = '+') ∧
        (rangeStart nums).isSome = true := by
        constructor
        · rintro ⟨sign, nums', heq, h⟩
          cases heq
          exact h
        · exact fun h => ⟨c, nums, rfl, h⟩
      rw [hrange, parseRanges, splitAt1, if_pos hc]
      cases hstart : rangeStart nums with
      | none => simp [hc, hstart]
      | some start =>
        by_cases hminus : c = '-'
        · simp [hminus, hstart, ih, utf8Size_sign]
        · by_cases hplus : c = '+'
          · simp [hplus, hstart, ih, utf8Size_sign]
          · simp [hminus, hplus, hc, hstart]
    · simp [parseRanges, splitAt1, hc]

theorem ne_nil_of_mem_splitWhitespace {s w : Text} (h : w ∈ splitWhitespace s) : w ≠ [] := by
  simpa using (mem_filter.mp h).2

theorem parseHunkHeader_eq_none {line : Text} : parseHunkHeader line = none ↔
    SplitsCharacter line := by
  have hsplits : SplitsCharacter line ↔ ∃ range func,
    (stripPrefix atAt line).bind (splitOnce atAt) = some (range, func) ∧
      parseRanges none none (splitWhitespace (trim range)) = none := by
    simp only [parseRanges_eq_none fun _ => ne_nil_of_mem_splitWhitespace, bind_eq_some_iff,
      stripPrefix_eq_some]
    constructor
    · rintro ⟨rest, range, func, pre, c, nums, post, hline, hrest, hsplit⟩
      exact ⟨range, func, ⟨rest, hline, hrest⟩, pre, c, nums, post, hsplit⟩
    · rintro ⟨range, func, ⟨rest, hline, hrest⟩, pre, c, nums, post, hsplit⟩
      exact ⟨rest, range, func, pre, c, nums, post, hline, hrest, hsplit⟩
  rw [hsplits, parseHunkHeader]
  cases (stripPrefix atAt line).bind (splitOnce atAt) with
  | none => simp
  | some rf =>
    obtain ⟨range, func⟩ := rf
    simp only [Option.some.injEq, Prod.mk.injEq, ↓existsAndEq, true_and]
    cases parseRanges none none (splitWhitespace (trim range)) with
    | none => simp
    | some starts =>
      simp only [bind_eq_bind, bind_some, reduceCtorEq, iff_false]
      split <;> simp

/-! ## Sections

A header that can be read and the lines up to the next line that begins with `@@`. -/

structure Section where
  oldStart : Nat
  newStart : Nat
  func : Text
  body : List Text

/-- How many lines begin with one of the characters. -/
def countMarked (marks : List Char) (body : List Text) : Nat :=
  body.countP fun line => line.head?.any (· ∈ marks)

def Section.oldCount (s : Section) : Nat := countMarked [' ', '-'] s.body

def Section.newCount (s : Section) : Nat := countMarked [' ', '+'] s.body

/-- The sections before a line, and the one it is in. -/
structure Reading where
  done : List Section := []
  cur : Option Section := none

def Reading.all (r : Reading) : List Section := r.done ++ r.cur.toList

def Reading.line (r : Reading) (line : Text) : Reading :=
  if startsWith line atAt then
    ⟨r.all, (parseHunkHeader line).join.map fun (oldStart, newStart, func) =>
      ⟨oldStart, newStart, func, []⟩⟩
  else { r with cur := r.cur.map fun s => { s with body := s.body ++ [line] } }

def sections (ls : List Text) : List Section := (ls.foldl Reading.line {}).all

/-- The lines of a section on rows of their own, with their numbers. -/
def ownRows (oldNo newNo : Nat) : List Text → List SbsRow
  | (' ' :: text) :: ls => ⟨some ⟨oldNo, text, .context⟩, some ⟨newNo, text, .context⟩⟩ ::
    ownRows (oldNo + 1) (newNo + 1) ls
  | ('-' :: text) :: ls => ⟨some ⟨oldNo, text, .removed⟩, none⟩ :: ownRows (oldNo + 1) newNo ls
  | ('+' :: text) :: ls => ⟨none, some ⟨newNo, text, .added⟩⟩ :: ownRows oldNo (newNo + 1) ls
  | _ :: ls => ownRows oldNo newNo ls
  | [] => []

/-- A number of 32 bits. -/
def SbsCell.wrap (c : SbsCell) : SbsCell := { c with lineNo := c.lineNo % 2 ^ 32 }

def SbsRow.wrap (r : SbsRow) : SbsRow := ⟨r.old.map SbsCell.wrap, r.new.map SbsCell.wrap⟩

/-- A row that holds context on one of its sides. -/
def SbsRow.hasContext (r : SbsRow) : Bool :=
  (r.old.any (·.kind == .context)) || (r.new.any (·.kind == .context))

/-- Rows that say what the lines say that stand on the rows `own`: the same cells on each side, in
order, and the same rows with context. -/
structure Aligned (rows own : List SbsRow) : Prop where
  old : rows.filterMap SbsRow.old = own.filterMap SbsRow.old
  new : rows.filterMap SbsRow.new = own.filterMap SbsRow.new
  context : rows.filter SbsRow.hasContext = own.filter SbsRow.hasContext

/-- What the parser makes of a section. -/
structure Shown (s : Section) (h : SbsHunk) : Prop where
  oldStart : h.oldStart = s.oldStart
  newStart : h.newStart = s.newStart
  func : h.func = s.func
  rows : Aligned h.rows ((ownRows s.oldStart s.newStart s.body).map SbsRow.wrap)

/-- The counters of the sections, as long as they fit into 32 bits. -/
structure InRange (ss : List Section) : Prop where
  old : ∀ s ∈ ss, s.oldStart + s.oldCount < 2 ^ 32
  new : ∀ s ∈ ss, s.newStart + s.newCount < 2 ^ 32
  deleted : (ss.map fun s => countMarked ['-'] s.body).sum < 2 ^ 32
  added : (ss.map fun s => countMarked ['+'] s.body).sum < 2 ^ 32

/-! ## Rows of what is buffered -/

section

variable (removed added : List SbsCell)

theorem filterMap_old_flushLoop (n : Nat) (h : removed.length ≤ n) :
    (flushLoop n removed added).filterMap SbsRow.old = removed := by
  induction n generalizing removed added with
  | zero => simp_all [flushLoop]
  | succ n ih =>
    cases removed with
    | nil => simp [flushLoop, ih]
    | cons c removed => simp [flushLoop, ih removed _ (by simpa using h)]

theorem filterMap_new_flushLoop (n : Nat) (h : added.length ≤ n) :
    (flushLoop n removed added).filterMap SbsRow.new = added := by
  induction n generalizing removed added with
  | zero => simp_all [flushLoop]
  | succ n ih =>
    cases added with
    | nil => simp [flushLoop, ih]
    | cons c added => simp [flushLoop, ih _ added (by simpa using h)]

@[simp] theorem filterMap_old_flushRun : (flushRun removed added).filterMap SbsRow.old = removed :=
  filterMap_old_flushLoop removed added _ (le_max_left _ _)

@[simp] theorem filterMap_new_flushRun : (flushRun removed added).filterMap SbsRow.new = added :=
  filterMap_new_flushLoop removed added _ (le_max_right _ _)

end

/-- There is no context among what is buffered. -/
theorem filter_hasContext_flushRun {removed added : List SbsCell}
    (hremoved : ∀ c ∈ removed, c.kind = .removed)
    (hadded : ∀ c ∈ added, c.kind = .added) :
    (flushRun removed added).filter SbsRow.hasContext = [] := by
  rw [filter_eq_nil_iff]
  intro row hrow hcontext
  rcases Bool.or_eq_true_iff.mp hcontext with h | h
  · obtain ⟨c, hc, hkind⟩ := (Option.any_eq_true _ _).mp h
    have hmem : c ∈ removed := by
      rw [← filterMap_old_flushRun removed added]
      exact mem_filterMap.mpr ⟨row, hrow, hc⟩
    rw [hremoved c hmem] at hkind
    cases hkind
  · obtain ⟨c, hc, hkind⟩ := (Option.any_eq_true _ _).mp h
    have hmem : c ∈ added := by
      rw [← filterMap_new_flushRun removed added]
      exact mem_filterMap.mpr ⟨row, hrow, hc⟩
    rw [hadded c hmem] at hkind
    cases hkind

theorem countMarked_append (marks : List Char) (xs ys : List Text) :
    countMarked marks (xs ++ ys) = countMarked marks xs + countMarked marks ys := countP_append

theorem countMarked_singleton (marks : List Char) (c : Char) (text : Text) :
    countMarked marks [c :: text] = if c ∈ marks then 1 else 0 := by
  simp [countMarked, countP_cons]

theorem countMarked_other {marks : List Char} {line : Text}
    (h : ∀ c ∈ marks, ∀ text, line ≠ c :: text) (xs : List Text) :
    countMarked marks (line :: xs) = countMarked marks xs := by
  refine countP_cons_of_neg ?_
  cases line with
  | nil => simp
  | cons c text => simpa using fun hc => h c hc text rfl

/-- The numbers of the lines go on where those before them end. -/
theorem ownRows_append (o n : Nat) (xs ys : List Text) :
    ownRows o n (xs ++ ys) = ownRows o n xs ++ ownRows (o + countMarked [' ', '-'] xs)
        (n + countMarked [' ', '+'] xs) ys := by
  fun_induction ownRows o n xs with
  | case1 o n text xs ih | case2 o n text xs ih | case3 o n text xs ih =>
    rw [cons_append, ownRows, ih]
    simp [countMarked, Nat.add_assoc, Nat.add_comm 1]
  | case4 o n line xs hcontext hremoved hadded ih =>
    rw [cons_append, ownRows.eq_4 _ _ _ _ hcontext hremoved hadded, ih,
      countMarked_other (by simp_all), countMarked_other (by simp_all)]
  | case5 => simp [countMarked]

/-! ## The parser follows the sections -/

/-- The open hunk and what is buffered for it. -/
structure Open (s : Section) (p : Parse) (h : SbsHunk) : Prop where
  start : h.oldStart = s.oldStart ∧ h.newStart = s.newStart ∧ h.func = s.func
  rows : Aligned (h.rows ++ flushRun p.removed p.added)
    ((ownRows s.oldStart s.newStart s.body).map SbsRow.wrap)
  removed : ∀ c ∈ p.removed, c.kind = .removed
  added : ∀ c ∈ p.added, c.kind = .added
  oldNo : p.oldNo = (s.oldStart + s.oldCount) % 2 ^ 32
  newNo : p.newNo = (s.newStart + s.newCount) % 2 ^ 32

section

variable {s : Section} {p : Parse} {h : SbsHunk} {text : Text}

/-- The section with another line. -/
def Section.push (s : Section) (line : Text) : Section := { s with body := s.body ++ [line] }

/-- What a line adds to the rows and to what is buffered has to be what stands on its own row. -/
theorem Open.aligned_push (ho : Open s p h) {line : Text} {rows own : List SbsRow}
    {removed added : List SbsCell}
    (hline : (ownRows (s.oldStart + s.oldCount) (s.newStart + s.newCount) [line]).map
      SbsRow.wrap = own)
    (hremoved : ∀ c ∈ removed, c.kind = .removed) (hadded : ∀ c ∈ added, c.kind = .added)
    (hold : rows.filterMap SbsRow.old ++ removed = h.rows.filterMap SbsRow.old ++ p.removed ++
      own.filterMap SbsRow.old)
    (hnew : rows.filterMap SbsRow.new ++ added = h.rows.filterMap SbsRow.new ++ p.added ++
      own.filterMap SbsRow.new)
    (hcontext : rows.filter SbsRow.hasContext = h.rows.filter SbsRow.hasContext ++
      own.filter SbsRow.hasContext) :
    Aligned (rows ++ flushRun removed added)
      ((ownRows (s.push line).oldStart (s.push line).newStart (s.push line).body).map
        SbsRow.wrap) := by
  have hown : (ownRows (s.push line).oldStart (s.push line).newStart (s.push line).body).map
    SbsRow.wrap = (ownRows s.oldStart s.newStart s.body).map SbsRow.wrap ++ own := by
    rw [← hline, ← map_append, Section.oldCount, Section.newCount, ← ownRows_append]
    rfl
  have hbefore := ho.rows
  rw [hown]
  refine ⟨?_, ?_, ?_⟩
  · rw [filterMap_append, filterMap_append, filterMap_old_flushRun, hold, ← hbefore.old,
      filterMap_append, filterMap_old_flushRun]
  · rw [filterMap_append, filterMap_append, filterMap_new_flushRun, hnew, ← hbefore.new,
      filterMap_append, filterMap_new_flushRun]
  · rw [filter_append, filter_append, filter_hasContext_flushRun hremoved hadded, hcontext,
      ← hbefore.context,
      filter_append, filter_hasContext_flushRun ho.removed ho.added, append_nil, append_nil]

theorem oldCount_push (line : Text) : (s.push line).oldCount =
    s.oldCount + countMarked [' ', '-'] [line] :=
  countMarked_append _ _ _

theorem newCount_push (line : Text) : (s.push line).newCount =
    s.newCount + countMarked [' ', '+'] [line] :=
  countMarked_append _ _ _

theorem Open.context (ho : Open s p h) (file : SbsFile) (cur : Option SbsHunk) :
    Open (s.push (' ' :: text))
      { file, cur, oldNo := (s.oldStart + s.oldCount + 1) % 2 ^ 32,
        newNo := (s.newStart + s.newCount + 1) % 2 ^ 32, removed := [], added := [] }
      { h with rows := h.rows ++ flushRun p.removed p.added ++
          [⟨some ⟨p.oldNo, text, .context⟩, some ⟨p.newNo, text, .context⟩⟩] } where
  start := ho.start
  rows := by
    refine ho.aligned_push rfl (by simp) (by simp) ?_ ?_ ?_
    · simp [ownRows, SbsRow.wrap, SbsCell.wrap, ho.oldNo]
    · simp [ownRows, SbsRow.wrap, SbsCell.wrap, ho.newNo]
    · simp [ownRows, SbsRow.wrap, SbsCell.wrap, SbsRow.hasContext, ho.oldNo, ho.newNo,
        filter_hasContext_flushRun ho.removed ho.added]
  removed := by simp
  added := by simp
  oldNo := by rw [oldCount_push, countMarked_singleton]; rfl
  newNo := by rw [newCount_push, countMarked_singleton]; rfl

theorem Open.remove (ho : Open s p h) (file : SbsFile) (cur : Option SbsHunk) :
    Open (s.push ('-' :: text))
      { file, cur, oldNo := (s.oldStart + s.oldCount + 1) % 2 ^ 32, newNo := p.newNo,
        removed := p.removed ++ [⟨p.oldNo, text, .removed⟩], added := p.added } h where
  start := ho.start
  rows := by
    refine ho.aligned_push rfl ?_ ho.added ?_ ?_ ?_
    · simpa [or_imp, forall_and] using ho.removed
    · simp [ownRows, SbsRow.wrap, SbsCell.wrap, ho.oldNo]
    · simp [ownRows, SbsRow.wrap]
    · simp [ownRows, SbsRow.wrap, SbsCell.wrap, SbsRow.hasContext]
  removed := by simpa [or_imp, forall_and] using ho.removed
  added := ho.added
  oldNo := by rw [oldCount_push, countMarked_singleton]; rfl
  newNo := by rw [newCount_push, countMarked_singleton]; exact ho.newNo

theorem Open.add (ho : Open s p h) (file : SbsFile) (cur : Option SbsHunk) :
    Open (s.push ('+' :: text))
      { file, cur, oldNo := p.oldNo, newNo := (s.newStart + s.newCount + 1) % 2 ^ 32,
        removed := p.removed, added := p.added ++ [⟨p.newNo, text, .added⟩] } h where
  start := ho.start
  rows := by
    refine ho.aligned_push rfl ho.removed ?_ ?_ ?_ ?_
    · simpa [or_imp, forall_and] using ho.added
    · simp [ownRows, SbsRow.wrap]
    · simp [ownRows, SbsRow.wrap, SbsCell.wrap, ho.newNo]
    · simp [ownRows, SbsRow.wrap, SbsCell.wrap, SbsRow.hasContext]
  removed := ho.removed
  added := by simpa [or_imp, forall_and] using ho.added
  oldNo := by rw [oldCount_push, countMarked_singleton]; exact ho.oldNo
  newNo := by rw [newCount_push, countMarked_singleton]; rfl

/-- A line that is neither context nor a change. -/
def IsOther (line : Text) : Prop := ∀ c ∈ [' ', '-', '+'], ∀ text, line ≠ c :: text

theorem IsOther.countMarked {line : Text} (h : IsOther line) {marks : List Char}
    (hmarks : marks ⊆ [' ', '-', '+']) :
    countMarked marks [line] = 0 := countMarked_other (fun c hc => h c (hmarks hc)) []

theorem Open.other (ho : Open s p h) {line : Text} (hline : IsOther line) :
    Open (s.push line) p h where
  start := ho.start
  rows := by
    have hown : ownRows (s.oldStart + s.oldCount) (s.newStart + s.newCount) [line] = [] := by
      rw [ownRows.eq_4 _ _ _ _ (hline ' ' (by simp)) (hline '-' (by simp)) (hline '+' (by simp)),
        ownRows]
    exact ho.aligned_push (by rw [hown, map_nil]) ho.removed ho.added (by simp) (by simp) (by simp)
  removed := ho.removed
  added := ho.added
  oldNo := by rw [oldCount_push, hline.countMarked (by simp)]; exact ho.oldNo
  newNo := by rw [newCount_push, hline.countMarked (by simp)]; exact ho.newNo

end

/-- The parser is where the reading is. -/
structure Follows (r : Reading) (p : Parse) : Prop where
  done : List.Forall₂ Shown r.done p.file.hunks
  cur : Option.Rel (fun s h => Open s p h) r.cur p.cur
  idle : p.cur = none → p.removed = [] ∧ p.added = []
  deleted : p.file.deleted = (r.all.map fun s => countMarked ['-'] s.body).sum % 2 ^ 32
  added : p.file.added = (r.all.map fun s => countMarked ['+'] s.body).sum % 2 ^ 32

theorem bump_mod {checked : Bool} {x : Nat} (h : checked = true → x + 1 < 2 ^ 32) :
    bump checked (x % 2 ^ 32) = some ((x + 1) % 2 ^ 32) := by
  unfold bump
  by_cases hlt : x % 2 ^ 32 + 1 < 2 ^ 32
  · rw [if_pos hlt]
    congr 1
    omega
  · have hwraps : ¬ checked = true := fun hc => by
      have := h hc
      omega
    rw [if_neg hlt, if_neg hwraps]
    congr 1
    omega

theorem bump_none {x : Nat} (h : x < 2 ^ 32) (hmax : ¬ x + 1 < 2 ^ 32) :
    bump true (x % 2 ^ 32) = none := by
  rw [bump, Nat.mod_eq_of_lt h, if_neg hmax, if_pos rfl]

/-- The counters behind one more line. -/
theorem inRange_append_iff {ss : List Section} {s : Section} :
    InRange (ss ++ [s]) ↔
      (∀ t ∈ ss, t.oldStart + t.oldCount < 2 ^ 32 ∧ t.newStart + t.newCount < 2 ^ 32) ∧
        s.oldStart + s.oldCount < 2 ^ 32 ∧ s.newStart + s.newCount < 2 ^ 32 ∧
        (ss.map fun s => countMarked ['-'] s.body).sum + countMarked ['-'] s.body < 2 ^ 32 ∧
        (ss.map fun s => countMarked ['+'] s.body).sum + countMarked ['+'] s.body < 2 ^ 32 := by
  constructor
  · intro h
    exact ⟨fun t ht => ⟨h.old t (by simp [ht]), h.new t (by simp [ht])⟩, h.old s (by simp),
      h.new s (by simp),
      by simpa using h.deleted, by simpa using h.added⟩
  · rintro ⟨hss, hold, hnew, hdeleted, hadded⟩
    refine ⟨?_, ?_, by simpa using hdeleted, by simpa using hadded⟩
    · intro t ht
      rcases mem_append.mp ht with ht | ht
      · exact (hss t ht).1
      · rwa [mem_singleton.mp ht]
    · intro t ht
      rcases mem_append.mp ht with ht | ht
      · exact (hss t ht).2
      · rwa [mem_singleton.mp ht]

section

variable {checked : Bool} {done : List Section} {s : Section} {p : Parse} {h : SbsHunk}

theorem Follows.push (hf : Follows ⟨done, some s⟩ p) {line : Text} {p' : Parse} {h' : SbsHunk}
    (hfile : p'.file.hunks = p.file.hunks) (hcur : p'.cur = some h') (ho : Open (s.push line) p' h')
    (hdeleted : p'.file.deleted =
      ((done.map fun s => countMarked ['-'] s.body).sum + countMarked ['-'] s.body +
        countMarked ['-'] [line]) % 2 ^ 32)
    (hadded : p'.file.added =
      ((done.map fun s => countMarked ['+'] s.body).sum + countMarked ['+'] s.body +
        countMarked ['+'] [line]) % 2 ^ 32) :
    Follows ⟨done, some (s.push line)⟩ p' where
  done := by
    rw [hfile]
    exact hf.done
  cur := by
    rw [hcur]
    exact .some ho
  idle := by simp [hcur]
  deleted := by simp [hdeleted, Reading.all, Section.push, countMarked_append, Nat.add_assoc]
  added := by simp [hadded, Reading.all, Section.push, countMarked_append, Nat.add_assoc]

end

theorem line_cases (line : Text) :
    (∃ text, line = ' ' :: text) ∨ (∃ text, line = '-' :: text) ∨ (∃ text, line = '+' :: text) ∨
    IsOther line := by
  by_cases hcontext : ∃ text, line = ' ' :: text
  · exact .inl hcontext
  by_cases hremoved : ∃ text, line = '-' :: text
  · exact .inr (.inl hremoved)
  by_cases hadded : ∃ text, line = '+' :: text
  · exact .inr (.inr (.inl hadded))
  exact .inr (.inr (.inr (by simp_all [IsOther])))

section

variable {checked : Bool} {done : List Section} {s : Section} {p : Parse} {h : SbsHunk}

/-- How many removed lines there are so far. -/
theorem Follows.deleted_eq (hf : Follows ⟨done, some s⟩ p) :
    p.file.deleted = ((done.map fun s => countMarked ['-'] s.body).sum + countMarked ['-'] s.body) %
      2 ^ 32 := by
  simpa [Reading.all] using hf.deleted

theorem Follows.added_eq (hf : Follows ⟨done, some s⟩ p) :
    p.file.added = ((done.map fun s => countMarked ['+'] s.body).sum + countMarked ['+'] s.body) %
      2 ^ 32 := by
  simpa [Reading.all] using hf.added

theorem Follows.open (hf : Follows ⟨done, some s⟩ p) (hcur : p.cur = some h) : Open s p h := by
  have hrel := hf.cur
  rw [hcur] at hrel
  cases hrel
  assumption

theorem inRange_push_iff {line : Text} : InRange (done ++ [s.push line]) ↔
    (∀ t ∈ done, t.oldStart + t.oldCount < 2 ^ 32 ∧ t.newStart + t.newCount < 2 ^ 32) ∧
      s.oldStart + s.oldCount + countMarked [' ', '-'] [line] < 2 ^ 32 ∧
      s.newStart + s.newCount + countMarked [' ', '+'] [line] < 2 ^ 32 ∧
      (done.map fun s => countMarked ['-'] s.body).sum + countMarked ['-'] s.body +
        countMarked ['-'] [line] < 2 ^ 32 ∧
      (done.map fun s => countMarked ['+'] s.body).sum + countMarked ['+'] s.body +
        countMarked ['+'] [line] < 2 ^ 32 := by
  have hdeleted : countMarked ['-'] (s.push line).body = countMarked ['-'] s.body +
    countMarked ['-'] [line] := countMarked_append _ _ _
  have hadded : countMarked ['+'] (s.push line).body = countMarked ['+'] s.body +
    countMarked ['+'] [line] := countMarked_append _ _ _
  rw [inRange_append_iff, oldCount_push, newCount_push, hdeleted, hadded, Nat.add_assoc,
    Nat.add_assoc, Nat.add_assoc, Nat.add_assoc]
  rfl

theorem body_context {o n : Nat} {text : Text} (ho : bump checked p.oldNo = some o)
    (hn : bump checked p.newNo = some n) :
    p.body checked h (' ' :: text) = some
      { file := p.file, oldNo := o, newNo := n, removed := [], added := [],
        cur := some { h with rows := h.rows ++ flushRun p.removed p.added ++
          [⟨some ⟨p.oldNo, text, .context⟩, some ⟨p.newNo, text, .context⟩⟩] } } := by
  rw [Parse.body, ho, hn]
  rfl

theorem body_removed {o d : Nat} {text : Text} (ho : bump checked p.oldNo = some o)
    (hd : bump checked p.file.deleted = some d) :
    p.body checked h ('-' :: text) = some
      { p with removed := p.removed ++ [⟨p.oldNo, text, .removed⟩], oldNo := o,
               file := { p.file with deleted := d } } := by
  rw [Parse.body, ho, hd]
  rfl

theorem body_added {n a : Nat} {text : Text} (hn : bump checked p.newNo = some n)
    (ha : bump checked p.file.added = some a) :
    p.body checked h ('+' :: text) = some
      { p with added := p.added ++ [⟨p.newNo, text, .added⟩], newNo := n,
               file := { p.file with added := a } } := by
  rw [Parse.body, hn, ha]
  rfl

theorem body_other {line : Text} (hline : IsOther line) : p.body checked h line = some p := by
  rw [Parse.body.eq_4 _ _ _ _ (hline ' ' (by simp)) (hline '-' (by simp)) (hline '+' (by simp))]

theorem Follows.body_some (hf : Follows ⟨done, some s⟩ p) (hcur : p.cur = some h) (line : Text)
    (hfits : checked = true → InRange (done ++ [s.push line])) :
    ∃ p', p.body checked h line = some p' ∧ Follows ⟨done, some (s.push line)⟩ p' := by
  have ho := hf.open hcur
  have hdeleted := hf.deleted_eq
  have hadded := hf.added_eq
  simp only [inRange_push_iff] at hfits
  rcases line_cases line with ⟨text, rfl⟩ | ⟨text, rfl⟩ | ⟨text, rfl⟩ | hline
  · simp only [countMarked_singleton] at hfits
    have hold : bump checked p.oldNo = some ((s.oldStart + s.oldCount + 1) % 2 ^ 32) :=
      ho.oldNo ▸ bump_mod fun hc => (hfits hc).2.1
    have hnew : bump checked p.newNo = some ((s.newStart + s.newCount + 1) % 2 ^ 32) :=
      ho.newNo ▸ bump_mod fun hc => (hfits hc).2.2.1
    exact ⟨_, body_context hold hnew, hf.push rfl rfl (ho.context p.file _) hdeleted hadded⟩
  · simp only [countMarked_singleton] at hfits
    have hold : bump checked p.oldNo = some ((s.oldStart + s.oldCount + 1) % 2 ^ 32) :=
      ho.oldNo ▸ bump_mod fun hc => (hfits hc).2.1
    have hcount := bump_mod fun hc => (hfits hc).2.2.2.1
    rw [← hdeleted] at hcount
    exact ⟨_, body_removed hold hcount, hf.push rfl hcur (ho.remove _ _) rfl hadded⟩
  · simp only [countMarked_singleton] at hfits
    have hnew : bump checked p.newNo = some ((s.newStart + s.newCount + 1) % 2 ^ 32) :=
      ho.newNo ▸ bump_mod fun hc => (hfits hc).2.2.1
    have hcount := bump_mod fun hc => (hfits hc).2.2.2.2
    rw [← hadded] at hcount
    exact ⟨_, body_added hnew hcount, hf.push rfl hcur (ho.add _ _) hdeleted rfl⟩
  · refine ⟨p, body_other hline, hf.push rfl hcur (ho.other hline) ?_ ?_⟩
    · rw [hline.countMarked (by simp)]
      exact hdeleted
    · rw [hline.countMarked (by simp)]
      exact hadded

theorem Follows.body_none (hf : Follows ⟨done, some s⟩ p) (hcur : p.cur = some h)
    (hr : InRange (done ++ [s])) {line : Text}
    (hfits : ¬ InRange (done ++ [s.push line])) : p.body true h line = none := by
  have ho := hf.open hcur
  have hdeleted := hf.deleted_eq
  have hadded := hf.added_eq
  rw [inRange_append_iff] at hr
  rw [inRange_push_iff] at hfits
  obtain ⟨hdone, hr1, hr2, hr3, hr4⟩ := hr
  rcases line_cases line with ⟨text, rfl⟩ | ⟨text, rfl⟩ | ⟨text, rfl⟩ | hline
  · by_cases hold : s.oldStart + s.oldCount + 1 < 2 ^ 32
    · have hnew : ¬ s.newStart + s.newCount + 1 < 2 ^ 32 :=
        fun hnew => hfits ⟨hdone, hold, hnew, hr3, hr4⟩
      rw [Parse.body, ho.newNo, bump_none hr2 hnew]
      cases bump true p.oldNo <;> rfl
    · rw [Parse.body, ho.oldNo, bump_none hr1 hold]
      rfl
  · by_cases hold : s.oldStart + s.oldCount + 1 < 2 ^ 32
    · have hcount := fun hcount => hfits ⟨hdone, hold, hr2, hcount, hr4⟩
      rw [Parse.body, hdeleted, bump_none hr3 hcount]
      cases bump true p.oldNo <;> rfl
    · rw [Parse.body, ho.oldNo, bump_none hr1 hold]
      rfl
  · by_cases hnew : s.newStart + s.newCount + 1 < 2 ^ 32
    · have hcount := fun hcount => hfits ⟨hdone, hr1, hnew, hr3, hcount⟩
      rw [Parse.body, hadded, bump_none hr4 hcount]
      cases bump true p.newNo <;> rfl
    · rw [Parse.body, ho.newNo, bump_none hr2 hnew]
      rfl
  · refine absurd ⟨hdone, ?_⟩ hfits
    rw [hline.countMarked (by simp), hline.countMarked (by simp), hline.countMarked (by simp),
      hline.countMarked (by simp)]
    exact ⟨hr1, hr2, hr3, hr4⟩

end

theorem finish_none {p : Parse} (hcur : p.cur = none) : p.finish = p := by rw [Parse.finish, hcur]

theorem finish_some {p : Parse} {h : SbsHunk} (hcur : p.cur = some h) : p.finish =
    { p with
      file := { p.file with
        hunks := p.file.hunks ++ [{ h with rows := h.rows ++ flushRun p.removed p.added }] }
      cur := none, removed := [], added := [] } := by
  rw [Parse.finish, hcur]

theorem Open.shown {s : Section} {p : Parse} {h : SbsHunk} (ho : Open s p h) :
    Shown s { h with rows := h.rows ++ flushRun p.removed p.added } :=
  ⟨ho.start.1, ho.start.2.1, ho.start.2.2, ho.rows⟩

/-- `finish` leaves all hunks in the file. -/
theorem Follows.finish {r : Reading} {p : Parse} (hf : Follows r p) :
    Follows ⟨r.all, none⟩ p.finish := by
  obtain ⟨done, cur⟩ := r
  have hrel := hf.cur
  cases hcur : p.cur with
  | none =>
    rw [hcur] at hrel
    cases hrel
    have hall : Reading.all ⟨done, none⟩ = done := append_nil done
    rw [finish_none hcur, hall]
    exact hf
  | some h =>
    rw [hcur] at hrel
    cases cur with
    | none => cases hrel
    | some s =>
      rw [finish_some hcur]
      exact ⟨rel_append hf.done (.cons (hf.open hcur).shown .nil), .none, fun _ => ⟨rfl, rfl⟩,
        by simpa [Reading.all] using hf.deleted, by simpa [Reading.all] using hf.added⟩

/-- A section begins with no rows. -/
theorem open_new {p : Parse} (func : Text) (ho : p.oldNo < 2 ^ 32) (hn : p.newNo < 2 ^ 32)
    (hremoved : p.removed = [])
    (hadded : p.added = []) : Open ⟨p.oldNo, p.newNo, func, []⟩ p ⟨p.oldNo, p.newNo, func, []⟩ where
  start := ⟨rfl, rfl, rfl⟩
  rows := by
    rw [hremoved, hadded]
    exact ⟨rfl, rfl, rfl⟩
  removed := by simp [hremoved]
  added := by simp [hadded]
  oldNo := (Nat.mod_eq_of_lt ho).symm
  newNo := (Nat.mod_eq_of_lt hn).symm

theorem rangeStart_lt {nums : Text} {start : Nat} (h : rangeStart nums = some start) :
    start < 2 ^ 32 := by
  obtain ⟨t, -, ht⟩ := bind_eq_some_iff.mp h
  exact parseUnsigned_lt ht

theorem parseRanges_lt {parts : List Text} {o n o' n' : Option Nat} (ho : ∀ x ∈ o, x < 2 ^ 32)
    (hn : ∀ x ∈ n, x < 2 ^ 32)
    (h : parseRanges o n parts = some (some (o', n'))) :
    (∀ x ∈ o', x < 2 ^ 32) ∧ ∀ x ∈ n', x < 2 ^ 32 := by
  induction parts generalizing o n with
  | nil =>
    cases h
    exact ⟨ho, hn⟩
  | cons part parts ih =>
    obtain ⟨⟨sign, nums⟩, -, h⟩ := bind_eq_some_iff.mp h
    dsimp only at h
    cases hstart : rangeStart nums with
    | none =>
      rw [hstart] at h
      cases h
    | some start =>
      rw [hstart] at h
      dsimp only at h
      have hlt : ∀ x ∈ some start, x < 2 ^ 32 := by simpa using rangeStart_lt hstart
      split_ifs at h
      · exact ih hlt hn h
      · exact ih ho hlt h
      · cases h

theorem parseHunkHeader_lt {line func : Text} {o n : Nat}
    (h : parseHunkHeader line = some (some (o, n, func))) : o < 2 ^ 32 ∧ n < 2 ^ 32 := by
  unfold parseHunkHeader at h
  split at h
  case h_1 => cases h
  case h_2 range _ _ =>
    obtain ⟨starts, hstarts, h⟩ := bind_eq_some_iff.mp h
    split at h
    case h_1 o' n' =>
      cases h
      obtain ⟨ho, hn⟩ := parseRanges_lt (by simp) (by simp) hstarts
      exact ⟨ho o rfl, hn n rfl⟩
    case h_2 => cases h

theorem finish_cur (p : Parse) : p.finish.cur = none := by
  cases hcur : p.cur with
  | none => rwa [finish_none hcur]
  | some h => rw [finish_some hcur]

/-- The reading behind a header. -/
theorem Reading.line_header (r : Reading) {line : Text} (hat : startsWith line atAt = true)
    {header : Option (Nat × Nat × Text)} (hheader : parseHunkHeader line = some header) :
    r.line line = ⟨r.all, header.map fun (o, n, func) => ⟨o, n, func, []⟩⟩ := by
  rw [Reading.line, if_pos hat, hheader]
  rfl

theorem header_some {p : Parse} {line func : Text} {o n : Nat}
    (h : parseHunkHeader line = some (some (o, n, func))) :
    p.header line = some { p.finish with
      cur := some ⟨o, n, func, []⟩, oldNo := o, newNo := n } := by
  rw [Parse.header, h]
  rfl

theorem Follows.header {r : Reading} {p : Parse} (hf : Follows r p) {line : Text}
    (hat : startsWith line atAt = true) (hsplits : ¬ SplitsCharacter line) :
    (InRange r.all → InRange (r.line line).all) ∧ ∃ p', p.header line = some p' ∧ Follows
    (r.line line) p' := by
  have hfin := hf.finish
  obtain ⟨hremoved, hadded⟩ := hfin.idle (finish_cur p)
  rw [← parseHunkHeader_eq_none] at hsplits
  obtain ⟨header, hheader⟩ := ne_none_iff_exists'.mp hsplits
  rw [r.line_header hat hheader]
  cases header with
  | none =>
    have hall : Reading.all ⟨r.all, none⟩ = r.all := append_nil _
    exact ⟨fun hr => hall.symm ▸ hr, p.finish, by rw [Parse.header, hheader]; rfl, hfin⟩
  | some ons =>
    obtain ⟨o, n, func⟩ := ons
    obtain ⟨ho, hn⟩ := parseHunkHeader_lt hheader
    have hopen :=
      open_new (p := { p.finish with cur := some ⟨o, n, func, []⟩, oldNo := o, newNo := n })
        func ho hn
      hremoved hadded
    refine ⟨fun hr => ?_, _, header_some hheader, hfin.done, .some hopen, by simp, ?_, ?_⟩
    · exact inRange_append_iff.mpr ⟨fun t ht => ⟨hr.old t ht, hr.new t ht⟩, ho, hn, hr.deleted,
        hr.added⟩
    · simpa [Reading.all, countMarked] using hfin.deleted
    · simpa [Reading.all, countMarked] using hfin.added

theorem startsWith_of_splitsCharacter {line : Text} (h : SplitsCharacter line) :
    startsWith line atAt = true := by
  obtain ⟨rest, -, -, -, -, -, -, hline, -⟩ := h
  exact startsWith_iff.mpr ⟨rest, hline⟩

/-- What a line does: the parser goes on where the reading goes on, unless a header splits a
character or a counter leaves its range. -/
theorem Follows.line {checked : Bool} {r : Reading} {p : Parse} (hf : Follows r p)
    (hr : checked = true → InRange r.all) (line : Text) :
    (¬ SplitsCharacter line ∧ (checked = true → InRange (r.line line).all) ∧
      ∃ p', p.line checked line = some p' ∧ Follows (r.line line) p') ∨
    (SplitsCharacter line ∨ checked = true ∧ ¬ InRange (r.line line).all) ∧
    p.line checked line = none := by
  by_cases hat : startsWith line atAt = true
  · rw [Parse.line, if_pos hat]
    by_cases hsplits : SplitsCharacter line
    · exact .inr ⟨.inl hsplits, by rw [Parse.header, parseHunkHeader_eq_none.mpr hsplits]; rfl⟩
    · obtain ⟨hrange, hnext⟩ := hf.header hat hsplits
      exact .inl ⟨hsplits, fun hc => hrange (hr hc), hnext⟩
  · have hsplits : ¬ SplitsCharacter line := fun h => hat (startsWith_of_splitsCharacter h)
    obtain ⟨done, cur⟩ := r
    rw [Parse.line, if_neg hat, Reading.line, if_neg hat]
    have hrel := hf.cur
    cases cur with
    | none =>
      cases hcur : p.cur with
      | none => exact .inl ⟨hsplits, hr, p, rfl, hf⟩
      | some h =>
        rw [hcur] at hrel
        cases hrel
    | some s =>
      cases hcur : p.cur with
      | none =>
        rw [hcur] at hrel
        cases hrel
      | some h =>
        by_cases hfits : checked = true → InRange (done ++ [s.push line])
        · exact .inl ⟨hsplits, hfits, hf.body_some hcur line hfits⟩
        · rw [Classical.not_imp] at hfits
          obtain ⟨hc, hfits⟩ := hfits
          rw [hc] at hr ⊢
          exact .inr ⟨.inr ⟨rfl, hfits⟩, hf.body_none hcur (hr rfl) hfits⟩

/-- The counters only grow. -/
theorem inRange_of_line {r : Reading} {line : Text} (h : InRange (r.line line).all) :
    InRange r.all := by
  obtain ⟨done, cur⟩ := r
  unfold Reading.line at h
  split_ifs at h
  · have hsub := sublist_append_left (Reading.all ⟨done, cur⟩)
      ((parseHunkHeader line).join.map fun (o, n, func) => (⟨o, n, func, []⟩ : Section)).toList
    exact ⟨fun s hs => h.old s (hsub.subset hs), fun s hs => h.new s (hsub.subset hs),
      lt_of_le_of_lt ((hsub.map _).sum_le_sum (by simp)) h.deleted,
      lt_of_le_of_lt ((hsub.map _).sum_le_sum (by simp)) h.added⟩
  · cases cur with
    | none => exact h
    | some s =>
      have h : InRange (done ++ [s.push line]) := h
      obtain ⟨hdone, hold, hnew, hdeleted, hadded⟩ := inRange_push_iff.mp h
      exact inRange_append_iff.mpr ⟨hdone, by omega, by omega,
        lt_of_le_of_lt (Nat.le_add_right _ _) hdeleted,
        lt_of_le_of_lt (Nat.le_add_right _ _) hadded⟩

theorem inRange_of_foldl (ls : List Text) {r : Reading}
    (h : InRange (ls.foldl Reading.line r).all) : InRange r.all := by
  induction ls generalizing r with
  | nil => exact h
  | cons line ls ih => exact inRange_of_line (ih h)

/-- What a parse does: it follows the reading to the end, unless it stops on the way. -/
theorem Follows.run {checked : Bool} (ls : List Text) {r : Reading} {p : Parse} (hf : Follows r p)
    (hr : checked = true → InRange r.all) :
    ((∀ line ∈ ls, ¬ SplitsCharacter line) ∧
      (checked = true → InRange (ls.foldl Reading.line r).all) ∧
      ∃ p', ls.foldlM (Parse.line checked) p = some p' ∧ Follows (ls.foldl Reading.line r) p') ∨
    ((∃ line ∈ ls, SplitsCharacter line) ∨ checked = true ∧
      ¬ InRange (ls.foldl Reading.line r).all) ∧ ls.foldlM (Parse.line checked) p = none := by
  induction ls generalizing r p with
  | nil => exact .inl ⟨by simp, hr, p, rfl, hf⟩
  | cons line ls ih =>
    simp only [foldlM_cons, foldl_cons, forall_mem_cons, exists_mem_cons_iff]
    rcases hf.line hr line with ⟨hsplits, hr', p', hp', hf'⟩ | ⟨hstop, hnone⟩
    · rw [hp']
      rcases ih hf' hr' with ⟨hrest, hrange, hrun⟩ | ⟨hstop, hnone⟩
      · exact .inl ⟨⟨hsplits, hrest⟩, hrange, hrun⟩
      · exact .inr ⟨hstop.imp_left .inr, hnone⟩
    · rw [hnone]
      exact .inr ⟨hstop.imp .inl fun ⟨hc, hrange⟩ =>
        ⟨hc, fun h => hrange (inRange_of_foldl ls h)⟩, rfl⟩

theorem follows_init : Follows {} {} := ⟨.nil, .none, fun _ => ⟨rfl, rfl⟩, rfl, rfl⟩

/-- **What `parse_unified` yields**: the sections of the diff with their numbers modulo 2^32, unless
a header splits a character or, where overflow is checked, a counter leaves its range. -/
theorem parseUnified_cases (checked : Bool) (diff : Text) :
    ((∀ line ∈ lines diff, ¬ SplitsCharacter line) ∧
      (checked = true → InRange (sections (lines diff))) ∧
      ∃ file, parseUnified checked diff = some file ∧
      List.Forall₂ Shown (sections (lines diff)) file.hunks ∧
        file.deleted = ((sections (lines diff)).map fun s => countMarked ['-'] s.body).sum
          % 2 ^ 32 ∧
        file.added = ((sections (lines diff)).map fun s => countMarked ['+'] s.body).sum % 2 ^ 32) ∨
    ((∃ line ∈ lines diff, SplitsCharacter line) ∨ checked = true ∧
      ¬ InRange (sections (lines diff))) ∧ parseUnified checked diff = none := by
  have hinit : InRange (Reading.all {}) :=
    ⟨by simp [Reading.all], by simp [Reading.all], by decide, by decide⟩
  rcases follows_init.run (lines diff) fun _ => hinit with ⟨hsplits, hrange, p, hp, hf⟩
    | ⟨hstop, hnone⟩
  · have hfin := hf.finish
    have hall : ∀ ss, Reading.all ⟨ss, none⟩ = ss := append_nil
    refine .inl ⟨hsplits, hrange, p.finish.file, by rw [parseUnified, hp]; rfl, hfin.done, ?_, ?_⟩
    · rw [hfin.deleted, hall]
      rfl
    · rw [hfin.added, hall]
      rfl
  · exact .inr ⟨hstop, by rw [parseUnified, hnone]; rfl⟩

end Thegn.SideBySide
