import Thegn.Patch.Parse

set_option autoImplicit false

/-! # Parsing and rendering are inverse

The parser reads a text line by line; what it keeps of the text is a list of `FileSection`s,
the lines of each section that are not dropped. Two facts carry every round trip:

* `parse_sections`: the text of well-formed sections parses to exactly these sections;
* `exists_sections`: whatever the text, the parser's result is the list of files of some
  well-formed sections.

Together with `render_build` (printing a section's file gives back the section's lines) they
give both directions of `parse_render_roundtrip`.
-/

namespace Thegn.Patch

open Text List Option

/-! ## Well-formed sections -/

/-- The body lines are what the parser reads off their own text, after a line of kind `prev`. -/
def ReadsBack : Option LineKind → List PatchLine → Prop
  | _, [] => True
  | prev, l :: ls =>
    bodyLine prev (markerChar l.kind :: l.text) = some l ∧ ReadsBack (some l.kind) ls

/-- The lines of a hunk: its header line and its body. -/
def PatchHunk.textLines (h : PatchHunk) : List Text :=
  h.headerLine :: h.lines.map (fun l => markerChar l.kind :: l.text)

/-- A hunk whose numbers are those of its header line and whose body reads back. -/
structure HunkOk (h : PatchHunk) : Prop where
  header : parseHunkHeader h.headerLine
    = some (h.oldStart, h.oldCount, h.newStart, h.newCount, h.heading)
  body : ReadsBack none h.lines
  noNewline : ∀ l ∈ h.textLines, '\n' ∉ l

/-- The part of a file section the parser keeps: the text after `diff --git `, the further
header lines, and the hunks. -/
structure FileSection where
  rest : Text
  header : List Text
  hunks : List PatchHunk

def FileSection.diffLine (s : FileSection) : Text := diffGit ++ s.rest

def FileSection.textLines (s : FileSection) : List Text :=
  s.diffLine :: (s.header ++ s.hunks.flatMap PatchHunk.textLines)

/-- The builder the parser has after reading the section. -/
def FileSection.builder (s : FileSection) : FileBuilder :=
  { s.header.foldl FileBuilder.absorbHeader (FileBuilder.new s.diffLine s.rest) with
    hunks := s.hunks }

def FileSection.build (s : FileSection) : PatchFile := s.builder.finish

/-- A line the parser takes into the header of an open section. -/
def IsHeaderLine (line : Text) : Prop :=
  startsWith line diffGit = false ∧ startsWith line atAt = false

structure SectionOk (s : FileSection) : Prop where
  header : ∀ l ∈ s.header, IsHeaderLine l
  hunks : ∀ h ∈ s.hunks, HunkOk h
  noNewline : ∀ l ∈ s.textLines, '\n' ∉ l

/-! ## Lines of a hunk -/

/-- A line that `parseHunkHeader` accepts starts with `@@` and opens no section. -/
theorem isHunkLine_of_parseHunkHeader {line : Text} {x : Nat × Nat × Nat × Nat × Text}
    (h : parseHunkHeader line = some x) :
    startsWith line atAt = true ∧ stripPrefix diffGit line = none := by
  have hpre : ∃ r, line = (atAt ++ [' ']) ++ r := by
    unfold parseHunkHeader at h
    cases hs : stripPrefix (atAt ++ [' ']) line with
    | none => rw [hs] at h; simp at h
    | some r => exact ⟨r, stripPrefix_eq_some.mp hs⟩
  obtain ⟨r, rfl⟩ := hpre
  refine ⟨startsWith_iff.mpr ⟨' ' :: r, by simp⟩, ?_⟩
  rw [stripPrefix_eq_none, diffGit_eq, atAt_eq]
  rfl

theorem bodyLine_isBody {prev : Option LineKind} {c : Char} {t : Text} {l : PatchLine}
    (h : bodyLine prev (c :: t) = some l) : c = ' ' ∨ c = '+' ∨ c = '-' ∨ c = '\\' := by
  unfold bodyLine bodyKind at h
  by_cases h1 : c = ' '
  · exact Or.inl h1
  by_cases h2 : c = '+'
  · exact Or.inr (Or.inl h2)
  by_cases h3 : c = '-'
  · exact Or.inr (Or.inr (Or.inl h3))
  by_cases h4 : c = '\\'
  · exact Or.inr (Or.inr (Or.inr h4))
  · simp [h1, h2, h3, h4] at h

/-- A body line is its marker character followed by its text. -/
theorem markerChar_bodyLine {prev : Option LineKind} {line : Text} {l : PatchLine}
    (h : bodyLine prev line = some l) : markerChar l.kind :: l.text = line := by
  cases line with
  | nil => simp [bodyLine] at h
  | cons c t =>
    obtain ⟨k, hk, rfl⟩ := map_eq_some_iff.mp h
    unfold bodyKind at hk
    rcases bodyLine_isBody h with rfl | rfl | rfl | rfl
    · cases hk; rfl
    · cases hk; rfl
    · cases hk; rfl
    -- both kinds of marker are written as a backslash
    · simp only [Char.reduceEq, if_false, if_true] at hk
      split at hk <;> cases hk <;> rfl

/-- A body line is neither a section line nor a hunk header. -/
theorem bodyLine_not_special {prev : Option LineKind} {line : Text} {l : PatchLine}
    (h : bodyLine prev line = some l) :
    stripPrefix diffGit line = none ∧ startsWith line atAt = false := by
  cases line with
  | nil => simp [bodyLine] at h
  | cons c t =>
    rw [stripPrefix_eq_none, diffGit_eq, atAt_eq]
    rcases bodyLine_isBody h with rfl | rfl | rfl | rfl <;> exact ⟨rfl, rfl⟩

/-! ## The parser on the lines of a section -/

/-- The state after the lines of a hunk: the previous hunk is closed, the new one is open. -/
def ParseState.openHunk (st : ParseState) (h : PatchHunk) : ParseState :=
  { st.closeHunk with hunk := some h, inHunks := true }

@[simp] theorem closeHunk_hunk (st : ParseState) : st.closeHunk.hunk = none := by
  unfold ParseState.closeHunk
  split <;> rfl

@[simp] theorem closeHunk_files (st : ParseState) : st.closeHunk.files = st.files := by
  unfold ParseState.closeHunk
  split <;> rfl

@[simp] theorem closeHunk_inHunks (st : ParseState) : st.closeHunk.inHunks = st.inHunks := by
  unfold ParseState.closeHunk
  split <;> rfl

theorem closeHunk_of_some {st : ParseState} {h : PatchHunk} {f : FileBuilder}
    (hh : st.hunk = some h) (hf : st.file = some f) :
    st.closeHunk = { st with file := some { f with hunks := f.hunks ++ [h] }, hunk := none } := by
  simp [ParseState.closeHunk, hh, hf]

theorem closeHunk_of_hunk_none {st : ParseState} (h : st.hunk = none) : st.closeHunk = st := by
  cases st
  simp only at h
  subst h
  simp [ParseState.closeHunk]

theorem parseStep_header {st : ParseState} {f : FileBuilder} {line : Text}
    (hf : st.file = some f) (hh : st.hunk = none) (hi : st.inHunks = false)
    (hl : IsHeaderLine line) :
    parseStep st line = { st with file := some (f.absorbHeader line) } := by
  have hd : stripPrefix diffGit line = none := stripPrefix_eq_none.mpr hl.1
  unfold parseStep
  simp only [hd, hf, hl.2, hh, hi, Bool.false_eq_true, if_false]

theorem foldl_parseStep_header (ls : List Text) :
    ∀ (st : ParseState) (f : FileBuilder), st.file = some f → st.hunk = none →
      st.inHunks = false → (∀ l ∈ ls, IsHeaderLine l) →
      ls.foldl parseStep st = { st with file := some (ls.foldl FileBuilder.absorbHeader f) } := by
  induction ls with
  | nil =>
    intro st f hf _ _ _
    simp [← hf]
  | cons l ls ih =>
    intro st f hf hh hi hls
    rw [foldl_cons, foldl_cons, parseStep_header hf hh hi (hls l (by simp))]
    exact ih _ (f.absorbHeader l) rfl hh hi (fun m hm => hls m (by simp [hm]))

theorem parseStep_hunkHeader {st : ParseState} {h : PatchHunk} (hf : st.file.isSome)
    (hp : parseHunkHeader h.headerLine
      = some (h.oldStart, h.oldCount, h.newStart, h.newCount, h.heading)) :
    parseStep st h.headerLine = st.openHunk { h with lines := [] } := by
  obtain ⟨f, hf⟩ := isSome_iff_exists.mp hf
  obtain ⟨hat, hd⟩ := isHunkLine_of_parseHunkHeader hp
  unfold parseStep
  simp only [hd, hf, hat, hp, if_true]
  rfl

theorem parseStep_body {st : ParseState} {h : PatchHunk} {line : Text} {l : PatchLine}
    (hf : st.file.isSome) (hh : st.hunk = some h) (hl : bodyLine h.lastKind line = some l) :
    parseStep st line = { st with hunk := some { h with lines := h.lines ++ [l] } } := by
  obtain ⟨f, hf⟩ := isSome_iff_exists.mp hf
  obtain ⟨hd, hat⟩ := bodyLine_not_special hl
  unfold parseStep
  simp only [hd, hf, hat, hh, hl, Bool.false_eq_true, if_false]

/-- Body lines that read back are appended to the open hunk. -/
theorem foldl_parseStep_body (ls : List PatchLine) :
    ∀ (st : ParseState) (h : PatchHunk), st.file.isSome → st.hunk = some h →
      ReadsBack h.lastKind ls → (ls.map (fun l => markerChar l.kind :: l.text)).foldl parseStep st
        = { st with hunk := some { h with lines := h.lines ++ ls } } := by
  induction ls with
  | nil =>
    intro st h _ hh _
    simp [← hh]
  | cons l ls ih =>
    intro st h hf hh hr
    have hr' : ReadsBack ({ h with lines := h.lines ++ [l] } : PatchHunk).lastKind ls := by
      simpa [PatchHunk.lastKind] using hr.2
    rw [map_cons, foldl_cons, parseStep_body hf hh hr.1,
      ih { st with hunk := some { h with lines := h.lines ++ [l] } } _ hf rfl hr']
    simp

theorem foldl_parseStep_hunk {st : ParseState} {h : PatchHunk} (hf : st.file.isSome)
    (hok : HunkOk h) : h.textLines.foldl parseStep st = st.openHunk h := by
  have hf' : (st.openHunk { h with lines := [] }).file.isSome := by
    obtain ⟨f, hf⟩ := isSome_iff_exists.mp hf
    unfold ParseState.openHunk ParseState.closeHunk
    cases st.hunk <;> simp [hf]
  have hr : ReadsBack ({ h with lines := [] } : PatchHunk).lastKind h.lines := hok.body
  rw [PatchHunk.textLines, foldl_cons, parseStep_hunkHeader hf hok.header,
    foldl_parseStep_body h.lines _ { h with lines := [] } hf' rfl hr]
  rfl

/-- The hunks of a section, the last one still open, are collected in the builder once it is
closed. -/
theorem closeHunk_foldl_hunks (hs : List PatchHunk) :
    ∀ (st : ParseState) (f : FileBuilder), st.closeHunk.file = some f → st.file.isSome →
      (∀ h ∈ hs, HunkOk h) → ∃ inH, ((hs.flatMap PatchHunk.textLines).foldl parseStep st).closeHunk
        = { files := st.files, file := some { f with hunks := f.hunks ++ hs }, hunk := none,
            inHunks := inH } := by
  induction hs with
  | nil =>
    intro st f hf _ _
    refine ⟨st.inHunks, ?_⟩
    have hin : st.closeHunk.inHunks = st.inHunks := closeHunk_inHunks st
    have hhunk : st.closeHunk.hunk = none := closeHunk_hunk st
    simp only [flatMap_nil, foldl_nil, append_nil]
    rw [← hf, ← closeHunk_files st, ← hin, ← hhunk]
  | cons h hs ih =>
    -- the header line of `h` closes the hunk before it, so `h` alone is left open
    intro st f hf hsome hok
    rw [List.flatMap_cons, foldl_append, foldl_parseStep_hunk hsome (hok h (by simp))]
    have hfile : (st.openHunk h).file = some f := hf
    have hclose : (st.openHunk h).closeHunk.file = some { f with hunks := f.hunks ++ [h] } := by
      rw [closeHunk_of_some rfl hfile]
    obtain ⟨inH, hrun⟩ := ih (st.openHunk h) _ hclose (by simp [hfile])
      (fun g hg => hok g (by simp [hg]))
    refine ⟨inH, ?_⟩
    have hfiles : (st.openHunk h).files = st.files := closeHunk_files st
    rw [hrun, hfiles]
    simp

/-! ## Well-formed text parses to its sections -/

theorem absorbHeader_hunks (b : FileBuilder) (line : Text) :
    (b.absorbHeader line).hunks = b.hunks := by
  unfold FileBuilder.absorbHeader
  repeat' split
  all_goals rfl

theorem foldl_absorbHeader_hunks (ls : List Text) (b : FileBuilder) :
    (ls.foldl FileBuilder.absorbHeader b).hunks = b.hunks := by
  induction ls generalizing b with
  | nil => rfl
  | cons l ls ih => rw [foldl_cons, ih, absorbHeader_hunks]

/-- Reading one section appends its file to the finished ones. -/
theorem parse_section {st : ParseState} {s : FileSection} (hs : SectionOk s) :
    (s.textLines.foldl parseStep st).closeHunk.closeFile.files
      = st.closeHunk.closeFile.files ++ [s.build] := by
  set st0 : ParseState := { st.closeHunk.closeFile with
    file := some (FileBuilder.new s.diffLine s.rest), inHunks := false } with hst0
  -- the `diff` line closes whatever was open
  have hopen : parseStep st s.diffLine = st0 := by
    have hd : stripPrefix diffGit s.diffLine = some s.rest := stripPrefix_append _ _
    unfold parseStep
    rw [hd]
  have hhunk0 : st0.hunk = none := by
    have h := closeHunk_hunk st
    rw [hst0]
    show st.closeHunk.closeFile.hunk = none
    unfold ParseState.closeFile
    split
    · exact h
    · exact h
  set b := s.header.foldl FileBuilder.absorbHeader (FileBuilder.new s.diffLine s.rest) with hb
  -- the header lines go to the builder, as no `@@` line has come yet
  have hhead : s.header.foldl parseStep st0 = { st0 with file := some b } :=
    foldl_parseStep_header s.header st0 _ rfl hhunk0 rfl hs.header
  have hclosed : ({ st0 with file := some b } : ParseState).closeHunk.file = some b := by
    have hnone : ({ st0 with file := some b } : ParseState).hunk = none := hhunk0
    rw [closeHunk_of_hunk_none hnone]
  obtain ⟨inH, hrun⟩ := closeHunk_foldl_hunks s.hunks _ b hclosed rfl hs.hunks
  have hbh : b.hunks = [] := by rw [hb, foldl_absorbHeader_hunks]; rfl
  rw [FileSection.textLines, foldl_cons, foldl_append, hopen, hhead, hrun, hbh, nil_append]
  rfl

theorem parse_sections_from (ss : List FileSection) :
    ∀ (st : ParseState), (∀ s ∈ ss, SectionOk s) →
      ((ss.flatMap FileSection.textLines).foldl parseStep st).closeHunk.closeFile.files
        = st.closeHunk.closeFile.files ++ ss.map FileSection.build := by
  induction ss with
  | nil => intro st _; simp
  | cons s ss ih =>
    intro st hss
    rw [List.flatMap_cons, foldl_append, ih _ (fun t ht => hss t (by simp [ht])),
      parse_section (hss s (by simp))]
    simp

/-- The text of a list of sections. -/
def sectionsText (ss : List FileSection) : Text := unlines (ss.flatMap FileSection.textLines)

/-- **The text of well-formed sections parses to exactly their files.** -/
theorem parse_sections {ss : List FileSection} (hss : ∀ s ∈ ss, SectionOk s) :
    parsePatch (sectionsText ss) = ss.map FileSection.build := by
  have hnl : ∀ l ∈ ss.flatMap FileSection.textLines, '\n' ∉ l := by
    intro l hl
    obtain ⟨s, hs, hl⟩ := mem_flatMap.mp hl
    exact (hss s hs).noNewline l hl
  rw [parsePatch, sectionsText, segments_unlines hnl, parse_sections_from ss _ hss]
  rfl

/-! ## Every parse result is the files of well-formed sections -/

theorem build_header (s : FileSection) : s.build.header = s.diffLine :: s.header := by
  have key : ∀ (ls : List Text) (b : FileBuilder),
      (ls.foldl FileBuilder.absorbHeader b).header = b.header ++ ls := by
    intro ls
    induction ls with
    | nil => simp
    | cons l ls ih =>
      intro b
      have hl : (b.absorbHeader l).header = b.header ++ [l] := by
        unfold FileBuilder.absorbHeader
        repeat' split
        all_goals rfl
      rw [foldl_cons, ih, hl]
      simp
  have := key s.header (FileBuilder.new s.diffLine s.rest)
  simpa [FileSection.build, FileBuilder.finish, FileSection.builder, FileBuilder.new] using this

@[simp] theorem build_hunks (s : FileSection) : s.build.hunks = s.hunks := rfl

/-- What the parser has at any point: finished files of well-formed sections, an open section
whose hunks come only after its header region, and an open hunk that reads back. -/
structure ParseState.Inv (st : ParseState) : Prop where
  files : ∃ ss : List FileSection, (∀ s ∈ ss, SectionOk s) ∧ st.files = ss.map FileSection.build
  file : ∀ f, st.file = some f →
    ∃ s, SectionOk s ∧ f = s.builder ∧ (st.inHunks = false → s.hunks = [])
  hunk : ∀ h, st.hunk = some h → HunkOk h ∧ st.inHunks = true ∧ st.file.isSome

theorem SectionOk.addHunk {s : FileSection} {h : PatchHunk} (hs : SectionOk s) (hh : HunkOk h) :
    SectionOk { s with hunks := s.hunks ++ [h] } where
  header := hs.header
  hunks := by
    intro g hg
    rcases mem_append.mp hg with hg | hg
    · exact hs.hunks g hg
    · rw [mem_singleton.mp hg]; exact hh
  noNewline := by
    intro l hl
    have hsplit : l ∈ s.textLines ∨ l ∈ h.textLines := by
      simp only [FileSection.textLines, FileSection.diffLine, mem_cons, mem_append,
        flatMap_append, List.flatMap_cons, flatMap_nil, append_nil] at hl ⊢
      tauto
    rcases hsplit with hl | hl
    · exact hs.noNewline l hl
    · exact hh.noNewline l hl

theorem SectionOk.addHeader {s : FileSection} {line : Text} (hs : SectionOk s)
    (hl : IsHeaderLine line) (hn : '\n' ∉ line) :
    SectionOk { s with header := s.header ++ [line] } where
  header := by
    intro l h
    rcases mem_append.mp h with h | h
    · exact hs.header l h
    · rw [mem_singleton.mp h]; exact hl
  hunks := hs.hunks
  noNewline := by
    intro l h
    have hsplit : l ∈ s.textLines ∨ l = line := by
      simp only [FileSection.textLines, FileSection.diffLine, mem_cons, mem_append,
        not_mem_nil, or_false] at h ⊢
      tauto
    rcases hsplit with h | rfl
    · exact hs.noNewline l h
    · exact hn

theorem builder_of_hunks_nil {s : FileSection} (h : s.hunks = []) :
    s.builder = s.header.foldl FileBuilder.absorbHeader (FileBuilder.new s.diffLine s.rest) := by
  have hb := foldl_absorbHeader_hunks s.header (FileBuilder.new s.diffLine s.rest)
  unfold FileSection.builder
  generalize s.header.foldl FileBuilder.absorbHeader (FileBuilder.new s.diffLine s.rest) = b at hb
  rw [h, ← show b.hunks = [] from hb]

theorem Inv_closeHunk {st : ParseState} (h : st.Inv) : st.closeHunk.Inv := by
  cases hh : st.hunk with
  | none => rwa [closeHunk_of_hunk_none hh]
  | some k =>
    obtain ⟨hok, hin, hfs⟩ := h.hunk k hh
    obtain ⟨f, hf⟩ := isSome_iff_exists.mp hfs
    obtain ⟨s, hs, rfl, -⟩ := h.file f hf
    rw [closeHunk_of_some hh hf]
    refine ⟨h.files, ?_, by simp⟩
    intro g hg
    refine ⟨{ s with hunks := s.hunks ++ [k] }, hs.addHunk hok, ?_, by simp [hin]⟩
    simp only [Option.some.injEq] at hg
    rw [← hg]
    rfl

theorem Inv_closeFile {st : ParseState} (h : st.Inv) (hh : st.hunk = none) :
    st.closeFile.Inv ∧ st.closeFile.hunk = none := by
  unfold ParseState.closeFile
  cases hf : st.file with
  | none => exact ⟨h, hh⟩
  | some f =>
    obtain ⟨ss, hss, hfiles⟩ := h.files
    obtain ⟨s, hs, rfl, -⟩ := h.file f hf
    refine ⟨⟨⟨ss ++ [s], ?_, ?_⟩, by simp, by simp [hh]⟩, hh⟩
    · intro t ht
      rcases mem_append.mp ht with ht | ht
      · exact hss t ht
      · rw [mem_singleton.mp ht]; exact hs
    · simp [hfiles, FileSection.build]

theorem ReadsBack_snoc {ls : List PatchLine} {l : PatchLine} {prev : Option LineKind}
    (h : ReadsBack prev ls)
    (hl : bodyLine ((ls.getLast?.map PatchLine.kind).or prev) (markerChar l.kind :: l.text)
      = some l) : ReadsBack prev (ls ++ [l]) := by
  induction ls generalizing prev with
  | nil => exact ⟨by simpa using hl, trivial⟩
  | cons a ls ih =>
    refine ⟨h.1, ih h.2 ?_⟩
    rw [List.getLast?_cons] at hl
    cases hls : ls.getLast? with
    | none => simpa [hls] using hl
    | some b => simpa [hls] using hl

theorem HunkOk.addLine {h : PatchHunk} {line : Text} {l : PatchLine} (hok : HunkOk h)
    (hl : bodyLine h.lastKind line = some l) (hn : '\n' ∉ line) :
    HunkOk { h with lines := h.lines ++ [l] } where
  header := hok.header
  body := by
    refine ReadsBack_snoc hok.body ?_
    rw [markerChar_bodyLine hl, or_none]
    exact hl
  noNewline := by
    intro m hm
    have hsplit : m ∈ h.textLines ∨ m = line := by
      simp only [PatchHunk.textLines, map_append, map_cons, map_nil,
        mem_cons, mem_append, markerChar_bodyLine hl, not_mem_nil, or_false] at hm ⊢
      tauto
    rcases hsplit with hm | rfl
    · exact hok.noNewline m hm
    · exact hn

/-- A `diff` line opens a section. -/
theorem Inv_openFile {st : ParseState} (h : st.Inv) (hhunk : st.hunk = none) {line rest : Text}
    (hline : line = diffGit ++ rest) (hn : '\n' ∉ line) :
    ({ st with file := some (FileBuilder.new line rest), inHunks := false } : ParseState).Inv := by
  refine ⟨h.files, ?_, by simp [hhunk]⟩
  intro f hf
  refine ⟨{ rest := rest, header := [], hunks := [] }, ⟨by simp, by simp, ?_⟩, ?_, fun _ => rfl⟩
  · intro l hl
    simp only [FileSection.textLines, FileSection.diffLine, flatMap_nil,
      append_nil, mem_singleton] at hl
    rw [hl, ← hline]
    exact hn
  · simp only [Option.some.injEq] at hf
    rw [← hf, hline]
    rfl

/-- From the first `@@` line on, the header of the section is complete. -/
theorem Inv_enterHunks {st : ParseState} (h : st.Inv) (hhunk : st.hunk = none) :
    ({ st with inHunks := true } : ParseState).Inv := by
  refine ⟨h.files, ?_, by simp [hhunk]⟩
  intro g hg
  obtain ⟨s, hs, hgs, -⟩ := h.file g hg
  exact ⟨s, hs, hgs, by simp⟩

/-- A hunk header opens a hunk. -/
theorem Inv_openHunk {st : ParseState} (h : st.Inv) (hin : st.inHunks = true)
    (hfile : st.file.isSome) {k : PatchHunk} (hk : HunkOk k) :
    ({ st with hunk := some k } : ParseState).Inv := by
  refine ⟨h.files, h.file, ?_⟩
  intro k' hk'
  simp only [Option.some.injEq] at hk'
  rw [← hk']
  exact ⟨hk, hin, hfile⟩

/-- Any other line before the hunks belongs to the header of the section. -/
theorem Inv_addHeader {st : ParseState} (h : st.Inv) {f : FileBuilder} (hf : st.file = some f)
    (hin : st.inHunks = false) (hhunk : st.hunk = none) {line : Text} (hl : IsHeaderLine line)
    (hn : '\n' ∉ line) : ({ st with file := some (f.absorbHeader line) } : ParseState).Inv := by
  obtain ⟨s, hs, hfs, hempty⟩ := h.file f hf
  have hnohunks : s.hunks = [] := hempty hin
  have hnohunks' : ({ s with header := s.header ++ [line] } : FileSection).hunks = [] := hnohunks
  refine ⟨h.files, ?_, by simp [hhunk]⟩
  intro g hg
  simp only [Option.some.injEq] at hg
  refine ⟨{ s with header := s.header ++ [line] }, hs.addHeader hl hn, ?_, fun _ => hnohunks⟩
  rw [← hg, hfs, builder_of_hunks_nil hnohunks, builder_of_hunks_nil hnohunks', foldl_append]
  rfl

/-- One line keeps the invariant. -/
theorem Inv_parseStep {st : ParseState} (h : st.Inv) {line : Text} (hn : '\n' ∉ line) :
    (parseStep st line).Inv := by
  have hc : st.closeHunk.Inv := Inv_closeHunk h
  have hclosed : st.closeHunk.hunk = none := closeHunk_hunk st
  unfold parseStep
  cases hd : stripPrefix diffGit line with
  | some rest =>
    obtain ⟨hcf, hhunk⟩ := Inv_closeFile hc hclosed
    exact Inv_openFile hcf hhunk (stripPrefix_eq_some.mp hd) hn
  | none =>
    cases hf : st.file with
    | none => exact h
    | some f =>
      by_cases hat : startsWith line atAt = true
      · simp only [hat, if_true]
        have hinv := Inv_enterHunks hc hclosed
        cases hp : parseHunkHeader line with
        | none => exact hinv
        | some x =>
          have hfile : st.closeHunk.file.isSome := by
            unfold ParseState.closeHunk
            cases st.hunk <;> simp [hf]
          apply Inv_openHunk hinv rfl hfile
          refine ⟨hp, trivial, ?_⟩
          intro l hl
          rw [mem_singleton.mp hl]
          exact hn
      · have hat' : startsWith line atAt = false := by simpa using hat
        simp only [hat', Bool.false_eq_true, if_false]
        cases hh : st.hunk with
        | some k =>
          simp only
          cases hb : bodyLine k.lastKind line with
          -- junk: the hunk is closed as it is
          | none => exact hc
          | some l =>
            obtain ⟨hok, hin, hfs⟩ := h.hunk k hh
            have hopen := Inv_openHunk h hin hfs (hok.addLine hb hn)
            rw [← hf]
            exact hopen
        | none =>
          simp only
          by_cases hin : st.inHunks = true
          -- a line between or after the hunks is dropped
          · rw [if_pos hin]
            exact h
          · rw [if_neg hin]
            have hheader := Inv_addHeader h hf (by simpa using hin) hh
              ⟨stripPrefix_eq_none.mp hd, hat'⟩ hn
            rw [hh] at hheader
            exact hheader

theorem Inv_foldl_parseStep (ls : List Text) :
    ∀ (st : ParseState), st.Inv → (∀ l ∈ ls, '\n' ∉ l) → (ls.foldl parseStep st).Inv := by
  induction ls with
  | nil => intro st h _; exact h
  | cons l ls ih =>
    intro st h hn
    exact ih _ (Inv_parseStep h (hn l (by simp))) (fun m hm => hn m (by simp [hm]))

/-- **The result of the parser is always the files of well-formed sections.** -/
theorem exists_sections (diff : Text) :
    ∃ ss : List FileSection, (∀ s ∈ ss, SectionOk s) ∧
    parsePatch diff = ss.map FileSection.build := by
  have h0 : ParseState.init.Inv := ⟨⟨[], by simp, rfl⟩, by simp [ParseState.init],
    by simp [ParseState.init]⟩
  have hrun := Inv_foldl_parseStep (segments diff) _ h0 (fun l hl => not_mem_of_mem_segments hl)
  exact (Inv_closeFile (Inv_closeHunk hrun) (closeHunk_hunk _)).1.files

/-! ## Printing -/

theorem renderHunk_eq {h : PatchHunk} (hok : HunkOk h) : renderHunk h = unlines h.textLines := by
  have hne : h.headerLine ≠ [] := by
    intro hnil
    have := (isHunkLine_of_parseHunkHeader hok.header).1
    rw [hnil, atAt_eq] at this
    cases this
  simp [renderHunk, hne, pushBody, PatchHunk.textLines]

theorem flatMap_renderHunk {hs : List PatchHunk} (hok : ∀ h ∈ hs, HunkOk h) :
    hs.flatMap renderHunk = unlines (hs.flatMap PatchHunk.textLines) := by
  induction hs with
  | nil => rfl
  | cons h hs ih =>
    rw [List.flatMap_cons, List.flatMap_cons, unlines_append, renderHunk_eq (hok h (by simp)),
      ih (fun g hg => hok g (by simp [hg]))]

/-- Printing the files of well-formed sections gives back the sections' text. -/
theorem render_build {ss : List FileSection} (hss : ∀ s ∈ ss, SectionOk s) :
    renderPatch (ss.map FileSection.build) = sectionsText ss := by
  induction ss with
  | nil => rfl
  | cons s ss ih =>
    have hs := hss s (by simp)
    have ih' := ih (fun t ht => hss t (by simp [ht]))
    unfold renderPatch sectionsText at *
    rw [map_cons, List.flatMap_cons, List.flatMap_cons, ih', build_header, build_hunks,
      flatMap_renderHunk hs.hunks, FileSection.textLines]
    simp

/-! ## The round trip -/

/-- A hunk as written in a diff: its header line and its body lines. -/
structure RawHunk where
  headerLine : Text
  body : List Text

/-- A file section as written in a diff: what follows `diff --git `, header lines, hunks. -/
structure RawSection where
  rest : Text
  header : List Text
  hunks : List RawHunk

/-- The lines of a section, in order. -/
def RawSection.textLines (r : RawSection) : List Text :=
  (diffGit ++ r.rest) :: (r.header ++ r.hunks.flatMap (fun h => h.headerLine :: h.body))

/-- The grammar of a diff: header lines open neither a section nor a hunk, hunk headers are
accepted by `parseHunkHeader`, body lines start with one of the four marker characters, and no
line has a newline inside. -/
structure RawSection.Ok (r : RawSection) : Prop where
  header : ∀ l ∈ r.header, IsHeaderLine l
  hunkHeader : ∀ h ∈ r.hunks, (parseHunkHeader h.headerLine).isSome
  body : ∀ h ∈ r.hunks, ∀ l ∈ h.body, ∃ c t, l = c :: t ∧ c ∈ [' ', '+', '-', '\\']
  noNewline : ∀ l ∈ r.textLines, '\n' ∉ l

/-- The text of a diff: every line of every section, newline-terminated. -/
def rawText (rs : List RawSection) : Text := unlines (rs.flatMap RawSection.textLines)

/-- The body lines read one after the other. -/
def readBody : Option LineKind → List Text → List PatchLine
  | _, [] => []
  | prev, l :: ls =>
    match bodyLine prev l with
    | some p => p :: readBody (some p.kind) ls
    | none => readBody prev ls

theorem readBody_spec (ls : List Text) :
    ∀ (prev : Option LineKind), (∀ l ∈ ls, ∃ c t, l = c :: t ∧ c ∈ [' ', '+', '-', '\\']) →
      ReadsBack prev (readBody prev ls)
        ∧ (readBody prev ls).map (fun l => markerChar l.kind :: l.text) = ls := by
  induction ls with
  | nil => intro prev _; exact ⟨trivial, rfl⟩
  | cons l ls ih =>
    intro prev h
    obtain ⟨p, hp⟩ : ∃ p, bodyLine prev l = some p := by
      obtain ⟨c, t, rfl, hc⟩ := h l (by simp)
      simp only [mem_cons, not_mem_nil, or_false] at hc
      rcases hc with rfl | rfl | rfl | rfl <;> exact ⟨_, rfl⟩
    obtain ⟨h1, h2⟩ := ih (some p.kind) (fun m hm => h m (by simp [hm]))
    have hrb : readBody prev (l :: ls) = p :: readBody (some p.kind) ls := by
      simp [readBody, hp]
    rw [hrb]
    refine ⟨⟨by rw [markerChar_bodyLine hp]; exact hp, h1⟩, ?_⟩
    rw [map_cons, h2, markerChar_bodyLine hp]

/-- A written hunk is the text of a hunk that reads back. -/
theorem exists_hunk {h : RawHunk} (hp : (parseHunkHeader h.headerLine).isSome)
    (hb : ∀ l ∈ h.body, ∃ c t, l = c :: t ∧ c ∈ [' ', '+', '-', '\\'])
    (hn : ∀ l ∈ h.headerLine :: h.body, '\n' ∉ l) :
    ∃ k : PatchHunk, HunkOk k ∧ k.textLines = h.headerLine :: h.body := by
  obtain ⟨⟨a, b, c, d, heading⟩, hx⟩ := isSome_iff_exists.mp hp
  obtain ⟨hr, hmap⟩ := readBody_spec h.body none hb
  have htext : (PatchHunk.mk a b c d heading h.headerLine (readBody none h.body)).textLines
      = h.headerLine :: h.body := by
    rw [PatchHunk.textLines, hmap]
  exact ⟨_, ⟨hx, hr, by rw [htext]; exact hn⟩, htext⟩

theorem exists_hunks {hs : List RawHunk} (hp : ∀ h ∈ hs, (parseHunkHeader h.headerLine).isSome)
    (hb : ∀ h ∈ hs, ∀ l ∈ h.body, ∃ c t, l = c :: t ∧ c ∈ [' ', '+', '-', '\\'])
    (hn : ∀ h ∈ hs, ∀ l ∈ h.headerLine :: h.body, '\n' ∉ l) :
    ∃ ks : List PatchHunk, (∀ k ∈ ks, HunkOk k)
      ∧ ks.flatMap PatchHunk.textLines = hs.flatMap (fun h => h.headerLine :: h.body) := by
  induction hs with
  | nil => exact ⟨[], by simp, rfl⟩
  | cons h hs ih =>
    obtain ⟨k, hk, hkt⟩ := exists_hunk (hp h (by simp)) (hb h (by simp)) (hn h (by simp))
    obtain ⟨ks, hks, hkst⟩ := ih (fun g hg => hp g (by simp [hg]))
      (fun g hg => hb g (by simp [hg])) (fun g hg => hn g (by simp [hg]))
    refine ⟨k :: ks, ?_, by rw [List.flatMap_cons, List.flatMap_cons, hkt, hkst]⟩
    intro g hg
    rcases mem_cons.mp hg with rfl | hg
    · exact hk
    · exact hks g hg

/-- A written section is the text of a well-formed section. -/
theorem exists_section {r : RawSection} (hr : r.Ok) :
    ∃ s : FileSection, SectionOk s ∧ s.textLines = r.textLines := by
  have hn : ∀ h ∈ r.hunks, ∀ l ∈ h.headerLine :: h.body, '\n' ∉ l := by
    intro h hh l hl
    refine hr.noNewline l ?_
    rw [RawSection.textLines]
    refine .tail _ (mem_append_right _ ?_)
    exact mem_flatMap.mpr ⟨h, hh, hl⟩
  obtain ⟨ks, hks, hkst⟩ := exists_hunks hr.hunkHeader hr.body hn
  have htext : (FileSection.mk r.rest r.header ks).textLines = r.textLines := by
    simp only [FileSection.textLines, FileSection.diffLine, RawSection.textLines, hkst]
  exact ⟨_, ⟨hr.header, hks, by rw [htext]; exact hr.noNewline⟩, htext⟩

theorem exists_sections_of_raw {rs : List RawSection} (hrs : ∀ r ∈ rs, r.Ok) :
    ∃ ss : List FileSection, (∀ s ∈ ss, SectionOk s) ∧ sectionsText ss = rawText rs := by
  induction rs with
  | nil => exact ⟨[], by simp, rfl⟩
  | cons r rs ih =>
    obtain ⟨s, hs, hst⟩ := exists_section (hrs r (by simp))
    obtain ⟨ss, hss, hsst⟩ := ih (fun q hq => hrs q (by simp [hq]))
    refine ⟨s :: ss, ?_, ?_⟩
    · intro t ht
      rcases mem_cons.mp ht with rfl | ht
      · exact hs
      · exact hss t ht
    · unfold sectionsText rawText at *
      rw [List.flatMap_cons, List.flatMap_cons, unlines_append, unlines_append, hst, hsst]

/-- **Parsing and rendering are inverse.** A diff in the grammar is printed back byte for byte
after parsing, and whatever was parsed, printing and parsing it again changes nothing. -/
theorem parse_render_roundtrip :
    (∀ rs : List RawSection, (∀ r ∈ rs, r.Ok) → renderPatch (parsePatch (rawText rs)) = rawText rs)
      ∧ ∀ diff : Text, parsePatch (renderPatch (parsePatch diff)) = parsePatch diff := by
  constructor
  · intro rs hrs
    obtain ⟨ss, hss, htext⟩ := exists_sections_of_raw hrs
    rw [← htext, parse_sections hss, render_build hss]
  · intro diff
    obtain ⟨ss, hss, hparse⟩ := exists_sections diff
    rw [hparse, render_build hss, parse_sections hss]

/-- A section with a quoted path, carriage returns, an omitted count, and body lines that look
like file headers. -/
def quotedSection : RawSection :=
  { rest := "\"a/x y\" \"b/x y\"".toList
    header := ["index 1..2 100644\r".toList, "GIT binary patch".toList]
    hunks :=
      [{ headerLine := "@@ -1 +1,2 @@ fn\r".toList
         body := ['-' :: "-- a/x".toList, '+' :: "++ b/x\r".toList, ' ' :: "diff --git ".toList,
           '\\' :: " No newline at end of file".toList] }] }

theorem render_parse_quotedSection :
    renderPatch (parsePatch (rawText [quotedSection])) = rawText [quotedSection] := by
  refine parse_render_roundtrip.1 [quotedSection] ?_
  intro r hr
  rw [mem_singleton.mp hr]
  refine ⟨?_, by decide +kernel, ?_, by decide +kernel⟩
  · have hall : ∀ l ∈ quotedSection.header,
        startsWith l diffGit = false ∧ startsWith l atAt = false := by
      decide +kernel
    exact hall
  · intro h hh l hl
    rw [mem_singleton.mp hh] at hl
    rcases mem_cons.mp hl with rfl | hl
    · exact ⟨_, _, rfl, by decide⟩
    rcases mem_cons.mp hl with rfl | hl
    · exact ⟨_, _, rfl, by decide⟩
    rcases mem_cons.mp hl with rfl | hl
    · exact ⟨_, _, rfl, by decide⟩
    rw [mem_singleton.mp hl]
    exact ⟨_, _, rfl, by decide⟩

end Thegn.Patch
