import Thegn.Patch.SideBySide

set_option autoImplicit false

/-! # Unified diffs on rows

A well-formed diff of one file is shown as it is written when its numbers fit into 32 bits, and
every other text is read without a stop unless a header splits a character or, where overflow is
checked, a counter leaves its range (`sound_iff`).
-/

namespace Thegn.SideBySide

open Text List

/-! ## Well-formed diffs -/

/-- The range `start,count`, or `start` alone for one line. -/
def IsRangeText (start count : Nat) (t : Text) : Prop :=
  t = ofNat start ++ ',' :: ofNat count ∨ count = 1 ∧ t = ofNat start

/-- A hunk of a unified diff: its header line and the lines below it. -/
structure Hunk where
  oldStart : Nat
  oldCount : Nat
  newStart : Nat
  newCount : Nat
  header : Text
  body : List Text

def Hunk.lines (h : Hunk) : List Text := h.header :: h.body

def Hunk.section (h : Hunk) (func : Text) : Section := ⟨h.oldStart, h.newStart, func, h.body⟩

/-- The header gives the numbers of the hunk, and each line below is context, a removal, an addition
or a marker for a missing newline. -/
structure Hunk.WellFormed (h : Hunk) : Prop where
  header : ∃ old new tail, IsRangeText h.oldStart h.oldCount old ∧
    IsRangeText h.newStart h.newCount new ∧
    h.header = atAt ++ [' ', '-'] ++ old ++ [' ', '+'] ++ new ++ [' '] ++ atAt ++ tail
  body : ∀ line ∈ h.body, ∃ c ∈ [' ', '-', '+', '\\'], ∃ text, line = c :: text
  oldCount : h.oldCount = countMarked [' ', '-'] h.body
  newCount : h.newCount = countMarked [' ', '+'] h.body

/-- A unified diff of one file: what stands before the first hunk, and the hunks. -/
structure Diff where
  preamble : List Text
  hunks : List Hunk

def Diff.lines (d : Diff) : List Text := d.preamble ++ d.hunks.flatMap Hunk.lines

structure Diff.WellFormed (d : Diff) : Prop where
  preamble : ∀ line ∈ d.preamble, startsWith line atAt = false
  hunks : ∀ h ∈ d.hunks, h.WellFormed

/-- The hunk on rows: its context and removed lines in the old cells, its context and added lines in
the new ones, in order and numbered from its start, and each line of context on one row. -/
structure Hunk.Faithful (h : Hunk) (sbs : SbsHunk) : Prop where
  oldStart : sbs.oldStart = h.oldStart
  newStart : sbs.newStart = h.newStart
  rows : Aligned sbs.rows (ownRows h.oldStart h.newStart h.body)

structure Diff.Faithful (d : Diff) (file : SbsFile) : Prop where
  hunks : List.Forall₂ Hunk.Faithful d.hunks file.hunks
  added : file.added = (d.hunks.map fun h => countMarked ['+'] h.body).sum
  deleted : file.deleted = (d.hunks.map fun h => countMarked ['-'] h.body).sum

/-- The numbers of the diff fit into 32 bits. -/
structure Diff.Fits (d : Diff) : Prop where
  start : ∀ h ∈ d.hunks, h.oldStart < 2 ^ 32 ∧ h.newStart < 2 ^ 32
  last : ∀ h ∈ d.hunks, h.oldStart + h.oldCount ≤ 2 ^ 32 ∧ h.newStart + h.newCount ≤ 2 ^ 32
  added : (d.hunks.map fun h => countMarked ['+'] h.body).sum < 2 ^ 32
  deleted : (d.hunks.map fun h => countMarked ['-'] h.body).sum < 2 ^ 32

/-! ## Reading a header back -/

theorem parseUnsigned_ofNat_eq (bound n : Nat) :
    parseUnsigned bound (ofNat n) = if n < bound then some n else none := by
  split_ifs with h
  · exact parseUnsigned_ofNat h
  · have hval : Nat.ofDigitChars 10 (ofNat n) 0 = n :=
      Nat.ofDigitChars_toDigits (by decide) (by decide)
    have hplus : stripPrefix ['+'] (ofNat n) = none := by
      rw [stripPrefix_eq_none]
      by_contra hc
      obtain ⟨r, hr⟩ := startsWith_iff.mp (by simpa using hc)
      exact not_mem_ofNat (c := '+') (by decide) (hr ▸ (.head _) : '+' ∈ ofNat n)
    simp only [parseUnsigned, hplus, Option.getD_none]
    exact if_neg fun hparsed => h (hval ▸ hparsed.2.2)

theorem rangeStart_of_isRangeText {start count : Nat} {t : Text} (h : IsRangeText start count t) :
    rangeStart t = if start < 2 ^ 32 then some start else none := by
  have hcomma : ',' ∉ ofNat start := not_mem_ofNat (by decide)
  rw [← parseUnsigned_ofNat_eq]
  rcases h with rfl | ⟨-, rfl⟩
  · rw [rangeStart, splitOn_append_cons_self_of_not_mem hcomma]
    rfl
  · rw [rangeStart, splitOn_eq_singleton hcomma]
    rfl

theorem isDigit_of_mem_isRangeText {start count : Nat} {t : Text} (h : IsRangeText start count t) :
    ∀ c ∈ t, c.isDigit = true ∨ c = ',' := by
  intro c hc
  rcases h with rfl | ⟨-, rfl⟩
  · rcases mem_append.mp hc with hc | hc
    · exact .inl (isDigit_of_mem_ofNat hc)
    · rcases mem_cons.mp hc with hc | hc
      · exact .inr hc
      · exact .inl (isDigit_of_mem_ofNat hc)
  · exact .inl (isDigit_of_mem_ofNat hc)

theorem isWhitespace_eq_false_of_isDigit {c : Char} (h : c.isDigit = true) :
    isWhitespace c = false := by
  have hrange : 48 ≤ c.toNat ∧ c.toNat ≤ 57 := by
    simp only [Char.isDigit, Bool.and_eq_true, decide_eq_true_eq] at h
    exact ⟨h.1, h.2⟩
  simp only [isWhitespace, Bool.or_eq_false_iff, Bool.and_eq_false_iff, decide_eq_false_iff_not,
    beq_eq_false_iff_ne]
  omega

theorem isWhitespace_of_isRangeText {start count : Nat} {t : Text} (h : IsRangeText start count t) :
    ∀ c ∈ t, isWhitespace c = false := by
  intro c hc
  rcases isDigit_of_mem_isRangeText h c hc with hdigit | rfl
  · exact isWhitespace_eq_false_of_isDigit hdigit
  · decide

theorem not_at_of_isRangeText {start count : Nat} {t : Text} (h : IsRangeText start count t) :
    '@' ∉ t := by
  intro hc
  rcases isDigit_of_mem_isRangeText h _ hc with hdigit | hcomma
  · cases hdigit
  · cases hcomma

/-- The two words of a header. -/
theorem splitWhitespace_ranges {old new : Text} (hold : ∀ c ∈ old, isWhitespace c = false)
    (hnew : ∀ c ∈ new, isWhitespace c = false) :
    splitWhitespace (trim (' ' :: '-' :: old ++ ' ' :: '+' :: new ++ [' '])) =
      ['-' :: old, '+' :: new] := by
  have hold' : ∀ c ∈ '-' :: old, isWhitespace c = false := forall_mem_cons.mpr ⟨by decide, hold⟩
  have hnew' : ∀ c ∈ '+' :: new, isWhitespace c = false := forall_mem_cons.mpr ⟨by decide, hnew⟩
  have htrimmed : Trimmed (('-' :: old) ++ ' ' :: '+' :: new) :=
    trimmed_space hold' (cons_ne_nil _ _) (trimmed_of_forall hnew') (cons_ne_nil _ _)
  have htrim : trim (' ' :: '-' :: old ++ ' ' :: '+' :: new ++ [' ']) =
    ('-' :: old) ++ ' ' :: '+' :: new := by
    rw [trim_append _ fun c hc => by rw [mem_singleton.mp hc]; rfl]
    exact htrimmed.trim_eq
  rw [htrim, splitWhitespace, splitOnP_append_cons_of_forall_mem hold' _ (by decide),
    splitOnP_eq_singleton hnew']
  rfl

theorem splitOnce_ranges {old new tail : Text} (hold : '@' ∉ old) (hnew : '@' ∉ new) :
    splitOnce atAt ((' ' :: '-' :: old ++ ' ' :: '+' :: new ++ [' ']) ++ (atAt ++ tail)) =
      some (' ' :: '-' :: old ++ ' ' :: '+' :: new ++ [' '], tail) := by
  have hranges : '@' ∉ ' ' :: '-' :: old ++ ' ' :: '+' :: new ++ [' '] := by simp [hold, hnew]
  rw [atAt, splitOnce_skip _ hranges, splitOnce_self]
  simp

section

variable (o n : Option Nat) (nums : Text) (parts : List Text)

theorem parseRanges_minus : parseRanges o n (('-' :: nums) :: parts) =
    match rangeStart nums with
    | none => some none
    | some start => parseRanges (some start) n parts := rfl

theorem parseRanges_plus : parseRanges o n (('+' :: nums) :: parts) =
    match rangeStart nums with
    | none => some none
    | some start => parseRanges o (some start) parts := rfl

end

theorem parseRanges_ranges {o oc n nc : Nat} {old new : Text} (hold : IsRangeText o oc old)
    (hnew : IsRangeText n nc new) :
    parseRanges none none ['-' :: old, '+' :: new] =
      some (if o < 2 ^ 32 ∧ n < 2 ^ 32 then some (some o, some n) else none) := by
  rw [parseRanges_minus, rangeStart_of_isRangeText hold]
  by_cases ho : o < 2 ^ 32
  · rw [if_pos ho]
    dsimp only
    rw [parseRanges_plus, rangeStart_of_isRangeText hnew]
    by_cases hn : n < 2 ^ 32
    · rw [if_pos hn, if_pos ⟨ho, hn⟩]
      rfl
    · rw [if_neg hn, if_neg fun h => hn h.2]
  · rw [if_neg ho, if_neg fun h => ho h.1]

theorem parseHunkHeader_of_wellFormed {h : Hunk} (hw : h.WellFormed) :
    ∃ func, parseHunkHeader h.header = some (if h.oldStart < 2 ^ 32 ∧ h.newStart < 2 ^ 32 then
      some (h.oldStart, h.newStart, func) else none) := by
  obtain ⟨old, new, tail, hold, hnew, hheader⟩ := hw.header
  have hrest : h.header = atAt ++ ((' ' :: '-' :: old ++ ' ' :: '+' :: new ++ [' ']) ++
    (atAt ++ tail)) := by
    rw [hheader]
    simp
  refine ⟨trim tail, ?_⟩
  rw [parseHunkHeader, hrest, stripPrefix_append, Option.bind_some,
    splitOnce_ranges (not_at_of_isRangeText hold) (not_at_of_isRangeText hnew)]
  dsimp only
  rw [splitWhitespace_ranges (isWhitespace_of_isRangeText hold) (isWhitespace_of_isRangeText hnew),
    parseRanges_ranges hold hnew]
  split_ifs <;> rfl

/-! ## The sections of a well-formed diff -/

/-- The lines before the first hunk are passed over. -/
theorem foldl_preamble {ls : List Text} (h : ∀ line ∈ ls, startsWith line atAt = false) :
    ls.foldl Reading.line {} = {} := by
  induction ls with
  | nil => rfl
  | cons line ls ih =>
    have hline : Reading.line {} line = {} := by
      rw [Reading.line, if_neg (by simp [h line mem_cons_self])]; rfl
    rw [foldl_cons, hline, ih fun l hl => h l (mem_cons_of_mem _ hl)]

/-- The lines below a header are those of its section. -/
theorem foldl_body {ls : List Text} (h : ∀ line ∈ ls, startsWith line atAt = false) (r : Reading) :
    ls.foldl Reading.line r = { r with
      cur := r.cur.map fun s => { s with body := s.body ++ ls } } := by
  induction ls generalizing r with
  | nil => cases r with | mk done cur => cases cur <;> simp
  | cons line ls ih =>
    rw [foldl_cons, ih fun l hl => h l (mem_cons_of_mem _ hl), Reading.line,
      if_neg (by simp [h line mem_cons_self])]
    cases r with | mk done cur => cases cur <;> simp

theorem Hunk.WellFormed.not_header {h : Hunk} (hw : h.WellFormed) :
    ∀ line ∈ h.body, startsWith line atAt = false := by
  intro line hline
  obtain ⟨c, hc, text, rfl⟩ := hw.body line hline
  have hat : c ≠ '@' := by
    rintro rfl
    revert hc
    decide
  simp [startsWith, atAt, List.isPrefixOf, hat.symm]

/-- The numbers in the header fit into 32 bits. -/
def Hunk.IsRead (h : Hunk) : Prop := h.oldStart < 2 ^ 32 ∧ h.newStart < 2 ^ 32

instance (h : Hunk) : Decidable h.IsRead := inferInstanceAs (Decidable (_ ∧ _))

theorem Hunk.WellFormed.startsWith_header {h : Hunk} (hw : h.WellFormed) :
    startsWith h.header atAt = true := by
  obtain ⟨old, new, tail, -, -, hheader⟩ := hw.header
  exact startsWith_iff.mpr ⟨[' ', '-'] ++ old ++ [' ', '+'] ++ new ++ [' '] ++ atAt ++
    tail, by rw [hheader]; simp⟩

theorem foldl_hunk {h : Hunk} (hw : h.WellFormed) {func : Text}
    (hheader : parseHunkHeader h.header = some (if h.IsRead then some (h.oldStart, h.newStart, func)
      else none))
    (r : Reading) :
    (h.lines.foldl Reading.line r).all = r.all ++ if h.IsRead then [h.section func] else [] := by
  rw [Hunk.lines, foldl_cons, r.line_header hw.startsWith_header hheader, foldl_body hw.not_header]
  split_ifs
  · simp [Reading.all, Hunk.section]
  · simp [Reading.all]

/-- **The sections are the hunks whose numbers can be read.** -/
theorem sections_of_wellFormed {d : Diff} (hw : d.WellFormed) :
    ∃ func : Hunk → Text, sections d.lines = (d.hunks.filter fun h => decide h.IsRead).map fun h =>
      h.section (func h) := by
  have hfunc : ∀ h : Hunk, ∃ func, h.WellFormed →
      parseHunkHeader h.header = some (if h.IsRead then some (h.oldStart, h.newStart, func)
        else none) := by
    intro h
    by_cases hh : h.WellFormed
    · obtain ⟨func, hfunc⟩ := parseHunkHeader_of_wellFormed hh
      exact ⟨func, fun _ => hfunc⟩
    · exact ⟨[], fun hh' => absurd hh' hh⟩
  choose func hfunc using hfunc
  have hrun : ∀ (hs : List Hunk), (∀ h ∈ hs, h.WellFormed) → ∀ r : Reading,
      ((hs.flatMap Hunk.lines).foldl Reading.line r).all =
        r.all ++ (hs.filter fun h => decide h.IsRead).map fun h => h.section (func h) := by
    intro hs
    induction hs with
    | nil => simp
    | cons h hs ih =>
      intro hhs r
      obtain ⟨hh, hhs⟩ := forall_mem_cons.mp hhs
      rw [List.flatMap_cons, foldl_append, ih hhs, foldl_hunk hh (hfunc h hh), append_assoc,
        filter_cons]
      split_ifs <;> simp_all
  refine ⟨func, ?_⟩
  rw [sections, Diff.lines, foldl_append, foldl_preamble hw.preamble, hrun d.hunks hw.hunks]
  rfl

/-! ## Numbers of 32 bits -/

/-- **The lines are numbered consecutively**, those of the old side from the old start. -/
theorem map_lineNo_old (o n : Nat) (body : List Text) :
    ((ownRows o n body).filterMap SbsRow.old).map SbsCell.lineNo =
      List.range' o (countMarked [' ', '-'] body) := by
  fun_induction ownRows o n body with
  | case1 o n text ls ih | case2 o n text ls ih => simpa [countMarked, List.range'_succ] using ih
  | case3 o n text ls ih => simpa [countMarked] using ih
  | case4 o n line ls hcontext hremoved _ ih => rw [ih, countMarked_other (by simp_all)]
  | case5 => rfl

theorem map_lineNo_new (o n : Nat) (body : List Text) :
    ((ownRows o n body).filterMap SbsRow.new).map SbsCell.lineNo =
      List.range' n (countMarked [' ', '+'] body) := by
  fun_induction ownRows o n body with
  | case1 o n text ls ih | case3 o n text ls ih => simpa [countMarked, List.range'_succ] using ih
  | case2 o n text ls ih => simpa [countMarked] using ih
  | case4 o n line ls hcontext _ hadded ih => rw [ih, countMarked_other (by simp_all)]
  | case5 => rfl

theorem wrap_eq_iff {c : SbsCell} : c.wrap = c ↔ c.lineNo < 2 ^ 32 := by
  rw [SbsCell.wrap, SbsCell.mk.injEq]
  simp only [and_self, and_true]
  exact Nat.mod_eq_iff_lt (by decide)

/-- Cells with consecutive numbers are as they are with 32 bits exactly when the last number
fits. -/
theorem map_wrap_eq_iff {cells : List SbsCell} {start count : Nat} (hstart : start < 2 ^ 32)
    (hcells : cells.map SbsCell.lineNo = List.range' start count) :
    cells.map SbsCell.wrap = cells ↔ start + count ≤ 2 ^ 32 := by
  have hall : cells.map SbsCell.wrap = cells ↔ ∀ x ∈ List.range' start count, x < 2 ^ 32 := by
    have hid := map_inj_left (l := cells) (f := SbsCell.wrap) (g := id)
    rw [map_id] at hid
    rw [← hcells, forall_mem_map, hid]
    simp only [id_eq, wrap_eq_iff]
  rw [hall]
  constructor
  · intro h
    cases count with
    | zero => omega
    | succ count =>
      have := h (start + count) (by simp)
      omega
  · intro h x hx
    have := mem_range'_1.mp hx
    omega

section

variable (rows : List SbsRow)

theorem filterMap_old_wrap : (rows.map SbsRow.wrap).filterMap SbsRow.old =
    (rows.filterMap SbsRow.old).map SbsCell.wrap := by
  rw [filterMap_map, map_filterMap]
  rfl

theorem filterMap_new_wrap : (rows.map SbsRow.wrap).filterMap SbsRow.new =
    (rows.filterMap SbsRow.new).map SbsCell.wrap := by
  rw [filterMap_map, map_filterMap]
  rfl

end

/-- Where the numbers fit, the rows are as they are with 32 bits. -/
theorem wrap_ownRows (o n : Nat) (body : List Text) (ho : o + countMarked [' ', '-'] body ≤ 2 ^ 32)
    (hn : n + countMarked [' ', '+'] body ≤ 2 ^ 32) :
    (ownRows o n body).map SbsRow.wrap = ownRows o n body := by
  fun_induction ownRows o n body with
  | case1 o n text ls ih =>
    have ho' : countMarked [' ', '-'] ((' ' :: text) :: ls) = countMarked [' ', '-'] ls + 1 := by
      simp [countMarked]
    have hn' : countMarked [' ', '+'] ((' ' :: text) :: ls) = countMarked [' ', '+'] ls + 1 := by
      simp [countMarked]
    rw [map_cons, ih (by omega) (by omega), SbsRow.wrap, Option.map_some, Option.map_some,
      wrap_eq_iff.mpr (by dsimp only; omega), wrap_eq_iff.mpr (by dsimp only; omega)]
  | case2 o n text ls ih =>
    have ho' : countMarked [' ', '-'] (('-' :: text) :: ls) = countMarked [' ', '-'] ls + 1 := by
      simp [countMarked]
    have hn' : countMarked [' ', '+'] (('-' :: text) :: ls) = countMarked [' ', '+'] ls := by
      simp [countMarked]
    rw [map_cons, ih (by omega) (by omega), SbsRow.wrap, Option.map_some, Option.map_none,
      wrap_eq_iff.mpr (by dsimp only; omega)]
  | case3 o n text ls ih =>
    have ho' : countMarked [' ', '-'] (('+' :: text) :: ls) = countMarked [' ', '-'] ls := by
      simp [countMarked]
    have hn' : countMarked [' ', '+'] (('+' :: text) :: ls) = countMarked [' ', '+'] ls + 1 := by
      simp [countMarked]
    rw [map_cons, ih (by omega) (by omega), SbsRow.wrap, Option.map_some, Option.map_none,
      wrap_eq_iff.mpr (by dsimp only; omega)]
  | case4 o n line ls hcontext hremoved hadded ih =>
    rw [countMarked_other (by simp_all)] at ho hn
    exact ih ho hn
  | case5 => rfl

/-- A hunk is shown as it is written exactly when its numbers fit. -/
theorem faithful_iff {h : Hunk} (hw : h.WellFormed) (hread : h.IsRead) {func : Text} {sbs : SbsHunk}
    (hshown : Shown (h.section func) sbs) :
    h.Faithful sbs ↔ h.oldStart + h.oldCount ≤ 2 ^ 32 ∧ h.newStart + h.newCount ≤ 2 ^ 32 := by
  have hold := map_wrap_eq_iff hread.1 (map_lineNo_old h.oldStart h.newStart h.body)
  have hnew := map_wrap_eq_iff hread.2 (map_lineNo_new h.oldStart h.newStart h.body)
  rw [← hw.oldCount] at hold
  rw [← hw.newCount] at hnew
  constructor
  · intro hf
    refine ⟨hold.mp ?_, hnew.mp ?_⟩
    · rw [← filterMap_old_wrap, ← hf.rows.old]
      exact hshown.rows.old.symm
    · rw [← filterMap_new_wrap, ← hf.rows.new]
      exact hshown.rows.new.symm
  · rintro ⟨ho, hn⟩
    rw [hw.oldCount] at ho
    rw [hw.newCount] at hn
    have hrows := hshown.rows
    rw [Hunk.section] at hrows
    rw [wrap_ownRows _ _ _ ho hn] at hrows
    exact ⟨hshown.oldStart, hshown.newStart, hrows⟩

/-! ## Totality and faithfulness -/

/-- A text is read without a stop, and a well-formed diff is shown as it is written. -/
def Sound (checked : Bool) (diff : Text) : Prop :=
  ∃ file, parseUnified checked diff = some file ∧
    ∀ d : Diff, d.WellFormed → lines diff = d.lines → d.Faithful file

/-- A diff of which all hunks can be read has them for its sections. -/
theorem sections_of_read {d : Diff} (hw : d.WellFormed) (hread : ∀ h ∈ d.hunks, h.IsRead) :
    ∃ func : Hunk → Text, sections d.lines = d.hunks.map fun h => h.section (func h) := by
  obtain ⟨func, hsections⟩ := sections_of_wellFormed hw
  rw [filter_eq_self.mpr fun h hh => decide_eq_true (hread h hh)] at hsections
  exact ⟨func, hsections⟩

theorem forall₂_faithful_iff {func : Hunk → Text} {hs : List Hunk} {shown : List SbsHunk}
    (hshown : List.Forall₂ (fun h => Shown (h.section (func h))) hs shown)
    (hw : ∀ h ∈ hs, h.WellFormed) (hread : ∀ h ∈ hs, h.IsRead) :
    List.Forall₂ Hunk.Faithful hs shown ↔
      ∀ h ∈ hs, h.oldStart + h.oldCount ≤ 2 ^ 32 ∧ h.newStart + h.newCount ≤ 2 ^ 32 := by
  induction hshown with
  | nil => simp
  | cons hsbs _ ih =>
    obtain ⟨hw, hws⟩ := forall_mem_cons.mp hw
    obtain ⟨hread, hreads⟩ := forall_mem_cons.mp hread
    rw [forall₂_cons, forall_mem_cons, faithful_iff hw hread hsbs, ih hws hreads]

/-- What the parser makes of a well-formed diff is faithful exactly when its numbers fit. -/
theorem diff_faithful_iff {d : Diff} (hw : d.WellFormed) {file : SbsFile}
    (hshown : List.Forall₂ Shown (sections d.lines) file.hunks)
    (hdeleted : file.deleted = ((sections d.lines).map fun s => countMarked ['-'] s.body).sum
      % 2 ^ 32)
    (hadded : file.added = ((sections d.lines).map fun s => countMarked ['+'] s.body).sum %
      2 ^ 32) :
    d.Faithful file ↔ d.Fits := by
  -- either way no hunk is dropped
  have hread : d.Faithful file ∨ d.Fits → ∀ h ∈ d.hunks, h.IsRead := by
    rintro (hf | hf)
    · obtain ⟨func, hsections⟩ := sections_of_wellFormed hw
      have hlength : (d.hunks.filter fun h => decide h.IsRead).length = d.hunks.length := by
        rw [hf.hunks.length_eq, ← hshown.length_eq, hsections, length_map]
      intro h hh
      exact of_decide_eq_true (length_filter_eq_length_iff.mp hlength h hh)
    · exact hf.start
  have hcounts : (∀ h ∈ d.hunks, h.IsRead) →
      (List.Forall₂ Hunk.Faithful d.hunks file.hunks ↔
        ∀ h ∈ d.hunks, h.oldStart + h.oldCount ≤ 2 ^ 32 ∧ h.newStart + h.newCount ≤ 2 ^ 32) ∧
      file.deleted = (d.hunks.map fun h => countMarked ['-'] h.body).sum % 2 ^ 32 ∧
      file.added = (d.hunks.map fun h => countMarked ['+'] h.body).sum % 2 ^ 32 := by
    intro hread
    obtain ⟨func, hsections⟩ := sections_of_read hw hread
    rw [hsections, forall₂_map_left_iff] at hshown
    rw [hsections, map_map] at hdeleted hadded
    exact ⟨forall₂_faithful_iff hshown hw.hunks hread, hdeleted, hadded⟩
  constructor
  · intro hf
    obtain ⟨hhunks, hdeleted, hadded⟩ := hcounts (hread (.inl hf))
    refine ⟨hread (.inl hf), hhunks.mp hf.hunks, ?_, ?_⟩
    · rw [← Nat.mod_eq_iff_lt (by decide), ← hadded]
      exact hf.added
    · rw [← Nat.mod_eq_iff_lt (by decide), ← hdeleted]
      exact hf.deleted
  · intro hf
    obtain ⟨hhunks, hdeleted, hadded⟩ := hcounts (hread (.inr hf))
    exact ⟨hhunks.mpr hf.last, hadded.trans (Nat.mod_eq_of_lt hf.added),
      hdeleted.trans (Nat.mod_eq_of_lt hf.deleted)⟩

/-- **Exactly the texts on which the parser does what it is for.** -/
theorem sound_iff (checked : Bool) (diff : Text) :
    Sound checked diff ↔
      (∀ line ∈ lines diff, ¬ SplitsCharacter line) ∧
        (checked = true → InRange (sections (lines diff))) ∧
        ∀ d : Diff, d.WellFormed → lines diff = d.lines → d.Fits := by
  rcases parseUnified_cases checked diff with ⟨hsplits, hrange, file, hfile, hshown, hdeleted,
    hadded⟩ | ⟨hstop, hnone⟩
  · have hiff : ∀ d : Diff, d.WellFormed → lines diff = d.lines → (d.Faithful file ↔ d.Fits) := by
      intro d hw hd
      rw [hd] at hshown hdeleted hadded
      exact diff_faithful_iff hw hshown hdeleted hadded
    constructor
    · rintro ⟨file', hfile', hfaithful⟩
      obtain rfl : file' = file := Option.some.inj (hfile'.symm.trans hfile)
      exact ⟨hsplits, hrange, fun d hw hd => (hiff d hw hd).mp (hfaithful d hw hd)⟩
    · rintro ⟨-, -, hfits⟩
      exact ⟨file, hfile, fun d hw hd => (hiff d hw hd).mpr (hfits d hw hd)⟩
  · constructor
    · rintro ⟨file, hfile, -⟩
      rw [hnone] at hfile
      cases hfile
    · rintro ⟨hsplits, hrange, -⟩
      rcases hstop with ⟨line, hline, hsplit⟩ | ⟨hc, hout⟩
      · exact absurd hsplit (hsplits line hline)
      · exact absurd (hrange hc) hout

/-- A range that begins with a letter of two bytes. -/
theorem not_sound_two_bytes (checked : Bool) :
    ¬ Sound checked ['@', '@', ' ', 'é', ' ', '@', '@'] := by
  have hnone : parseUnified checked ['@', '@', ' ', 'é', ' ', '@', '@'] = none := by
    cases checked <;> decide
  rintro ⟨file, hfile, -⟩
  rw [hnone] at hfile
  cases hfile

theorem two_bytes_split :
    ¬ Sound false ['@', '@', ' ', 'é', ' ', '@', '@'] ∧
    ¬ Sound true ['@', '@', ' ', 'é', ' ', '@', '@'] :=
  ⟨not_sound_two_bytes false, not_sound_two_bytes true⟩

end Thegn.SideBySide
