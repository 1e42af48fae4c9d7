import Thegn.Search.Spans

set_option autoImplicit false

/-! # Guarded replace edits exactly the accepted spans

Accepted matches of a scan, listed in any order, are applied to the content they were found in: the
result is the simultaneous substitution of their spans, nothing is skipped, and applying the spans
by file offset gives the same (`applyEdits_substitutes`). A file is a list of rows, one for each
line, with the accepted matches of the line and the pieces it is cut into.
-/

namespace Thegn.Search

open Text Splice List

variable (template : Text) (mode : SearchMode)

/-- The replacement of a match, in its line. -/
def Match.rep (m : Match) : Replacement Char where
  start := m.byteStart
  stop := m.byteEnd
  new := renderReplacement m.captures template mode

/-- The replacement of an edit, in its line. -/
def Edit.rep (e : Edit) : Replacement Char where
  start := e.byteStart
  stop := e.byteEnd
  new := e.replacement

theorem editStep_eq : editStep = stepOf Edit.rep (fun _ _ => true) := rfl

/-! ## Rows -/

/-- A line of the file with the matches that were accepted on it. -/
structure Row where
  accepted : List Match
  pieces : List (Piece Char)

/-- The matches are those of line `i`, counted from 0, and cut it into the pieces. -/
structure Row.Ok (i : Nat) (r : Row) : Prop where
  line : ∀ m ∈ r.accepted, m.line = i + 1
  hash : ∀ m ∈ r.accepted, m.contentHash = fnv1a64 (utf8 (oldOf r.pieces))
  cuts : splices byteLen 0 r.pieces = r.accepted.map (Match.rep template mode)
  width : ∀ m ∈ r.accepted, m.byteStart < m.byteEnd

/-- A choice of the matches of one line. -/
theorem exists_row {path : Text} {matcher : Matcher} (hm : matcher.Ordered) {seg : Text} {i : Nat}
    {ms : List Match} (h : ms.Sublist (lineMatches path matcher seg i)) :
    ∃ r : Row, r.accepted = ms ∧ oldOf r.pieces = seg ∧ r.Ok template mode i := by
  have hspan : (ms.map (fun m => (m.byteStart, m.byteEnd))).Sublist
      ((matcher.scanLine seg).map LineMatch.span) := by
    have hmap := h.map (fun m => (m.byteStart, m.byteEnd))
    rw [lineMatches, map_map] at hmap
    exact hmap
  have hord := (scanLine_ordered hm seg).sublist hspan
  obtain ⟨ps, hold, hcuts⟩ := @exists_pieces seg (ms.map (Match.rep template mode)) (by
    rw [map_map]
    exact hord)
  have hmem : ∀ m ∈ ms, ∃ lm : LineMatch, m = ⟨path, i + 1, lm.start, lm.stop, seg,
      fnv1a64 (utf8 seg), lm.captures⟩ := by
    intro m hm
    obtain ⟨lm, -, rfl⟩ := mem_map.mp (h.subset hm)
    exact ⟨lm, rfl⟩
  refine ⟨⟨ms, ps⟩, rfl, hold, ?_, ?_, hcuts, ?_⟩
  · intro m hm
    obtain ⟨lm, rfl⟩ := hmem m hm
    rfl
  · intro m hm
    obtain ⟨lm, rfl⟩ := hmem m hm
    show fnv1a64 (utf8 seg) = fnv1a64 (utf8 (oldOf ps))
    rw [hold]
  · intro m hm
    exact (hord.fits _ (mem_map_of_mem hm)).1

/-- A choice of the matches of a list of lines, the first of which has number `k`. -/
theorem exists_rows {path : Text} {matcher : Matcher} (hm : matcher.Ordered) (segs : List Text) :
    ∀ (k : Nat) (ms : List Match),
      ms.Sublist ((segs.zipIdx k).flatMap (fun p => lineMatches path matcher p.1 p.2)) →
      ∃ rows : List Row, segs = rows.map (fun r => oldOf r.pieces) ∧ ms = rows.flatMap Row.accepted
        ∧ ∀ p ∈ rows.zipIdx k, p.1.Ok template mode p.2 := by
  induction segs with
  | nil =>
    intro k ms h
    refine ⟨[], rfl, ?_, by simp⟩
    simpa using h
  | cons seg segs ih =>
    intro k ms h
    rw [zipIdx_cons, List.flatMap_cons] at h
    obtain ⟨ms1, ms2, rfl, h1, h2⟩ := sublist_append_iff.mp h
    obtain ⟨r, hr, hold, hok⟩ := exists_row template mode hm h1
    obtain ⟨rows, hsegs, hms, hoks⟩ := ih (k + 1) ms2 h2
    refine ⟨r :: rows, ?_, ?_, ?_⟩
    · rw [map_cons, hold, ← hsegs]
    · rw [List.flatMap_cons, hr, ← hms]
    · intro p hp
      rw [zipIdx_cons] at hp
      rcases mem_cons.mp hp with rfl | hp
      · exact hok
      · exact hoks p hp

variable {template mode}

/-- The edits of a row swap its pieces. -/
theorem Row.Ok.applyGroup {i : Nat} {r : Row} (h : r.Ok template mode i) (st : LineProgress)
    (hline : st.lines[i]? = some (oldOf r.pieces)) {group : List Edit}
    (hgroup : group.Perm (r.accepted.map (Edit.fromMatch · template mode))) :
    Search.applyGroup st (i + 1) group
      = some ⟨st.lines.set i (newOf r.pieces), st.applied + group.length, st.skipped⟩ := by
  have hhash : group.any (fun e => e.contentHash != fnv1a64 (utf8 (oldOf r.pieces))) = false := by
    rw [any_eq_false]
    intro e he
    obtain ⟨m, hm, rfl⟩ := mem_map.mp (hgroup.subset he)
    simp [Edit.fromMatch, h.hash m hm]
  have hpair : (r.accepted.map (Edit.fromMatch · template mode)).Pairwise
      (fun a b => a.byteStart < b.byteStart) := by
    have hspl : ∀ x ∈ splices byteLen 0 r.pieces, x.start < x.stop := by
      rw [h.cuts]
      intro x hx
      obtain ⟨m, hm, rfl⟩ := mem_map.mp hx
      exact h.width m hm
    have hsorted := splices_pairwise hspl
    rw [h.cuts, pairwise_map] at hsorted
    exact pairwise_map.mpr hsorted
  have hsort := sortDown_eq hgroup hpair
  have hcuts : (r.accepted.map (Edit.fromMatch · template mode)).map Edit.rep
      = splices byteLen 0 r.pieces := by
    rw [map_map, h.cuts]
    rfl
  obtain ⟨last, hloop⟩ := foldlM_stepOf Edit.rep (fun _ _ => true) r.pieces _ [] []
    (byteLen (oldOf r.pieces) + 1) st.applied st.skipped hcuts rfl (fun _ _ _ _ => rfl) (by omega)
  rw [append_nil, append_nil] at hloop
  unfold Search.applyGroup
  rw [Nat.add_sub_cancel, hline]
  dsimp only
  rw [hhash, hsort, editStep_eq, hloop, hgroup.length_eq]
  simp

/-! ## All lines -/

/-- The lines when the rows with numbers in `done` were edited. -/
def editedLines (rows : List Row) (done : List Nat) : List Text :=
  rows.zipIdx.map (fun p => if p.2 + 1 ∈ done then newOf p.1.pieces else oldOf p.1.pieces)

theorem getElem?_editedLines (rows : List Row) (done : List Nat) (i : Nat) :
    (editedLines rows done)[i]?
      = rows[i]?.map (fun r => if i + 1 ∈ done then newOf r.pieces else oldOf r.pieces) := by
  unfold editedLines
  rw [List.getElem?_map, List.getElem?_zipIdx]
  cases rows[i]? with
  | none => rfl
  | some r => simp

theorem set_editedLines {rows : List Row} {r : Row} {i : Nat} (hr : rows[i]? = some r)
    (done : List Nat) :
    (editedLines rows done).set i (newOf r.pieces) = editedLines rows ((i + 1) :: done) := by
  apply ext_getElem?
  intro j
  rw [List.getElem?_set, getElem?_editedLines, getElem?_editedLines]
  by_cases hij : i = j
  · subst hij
    have hlen : i < (editedLines rows done).length := by
      rw [editedLines, length_map, length_zipIdx]
      exact (List.getElem?_eq_some_iff.mp hr).1
    rw [if_pos rfl, if_pos hlen, hr]
    simp
  · have hne : j ≠ i := Ne.symm hij
    rw [if_neg hij]
    simp [hne]

theorem ok_of_getElem? {rows : List Row} (hok : ∀ p ∈ rows.zipIdx, p.1.Ok template mode p.2)
    {i : Nat} {r : Row} (hr : rows[i]? = some r) : r.Ok template mode i :=
  hok (r, i) (mk_mem_zipIdx_iff_getElem?.mpr hr)

theorem exists_ok_of_mem {rows : List Row} (hok : ∀ p ∈ rows.zipIdx, p.1.Ok template mode p.2)
    {m : Match} (hm : m ∈ rows.flatMap Row.accepted) :
    ∃ (i : Nat) (r : Row), rows[i]? = some r ∧ m ∈ r.accepted ∧ r.Ok template mode i := by
  obtain ⟨r, hr, hmr⟩ := mem_flatMap.mp hm
  obtain ⟨i, hi⟩ := List.getElem?_of_mem hr
  exact ⟨i, r, hi, hmr, ok_of_getElem? hok hi⟩

/-- The groups of distinct lines are applied one after the other. -/
theorem foldlM_groups {rows : List Row} (hok : ∀ p ∈ rows.zipIdx, p.1.Ok template mode p.2)
    {edits : List Edit}
    (hgroup : ∀ i r, rows[i]? = some r → (edits.filter (fun e => e.line == i + 1)).Perm
      (r.accepted.map (Edit.fromMatch · template mode)))
    (ks : List Nat) :
    ∀ (done : List Nat) (applied skipped : Nat), ks.Nodup → (∀ k ∈ ks, k ∉ done) →
      (∀ k ∈ ks, ∃ i r, k = i + 1 ∧ rows[i]? = some r) →
      (ks.map (fun k => (k, edits.filter (fun e => e.line == k)))).foldlM
          (fun st g => Search.applyGroup st g.1 g.2) ⟨editedLines rows done, applied, skipped⟩
        = some ⟨editedLines rows (ks.reverse ++ done),
            applied + (ks.map (fun k => (edits.filter (fun e => e.line == k)).length)).sum,
              skipped⟩ := by
  induction ks with
  | nil => intro done applied skipped _ _ _; rfl
  | cons k ks ih =>
    intro done applied skipped hnodup hnew hrow
    obtain ⟨i, r, rfl, hr⟩ := hrow _ (.head _)
    have hold : (editedLines rows done)[i]? = some (oldOf r.pieces) := by
      rw [getElem?_editedLines, hr, Option.map_some, if_neg (hnew _ mem_cons_self)]
    have hstep := (ok_of_getElem? hok hr).applyGroup ⟨editedLines rows done, applied, skipped⟩ hold
      (hgroup i r hr)
    obtain ⟨hk, hks⟩ := nodup_cons.mp hnodup
    have hrest := ih ((i + 1) :: done)
      (applied + (edits.filter (fun e => e.line == i + 1)).length) skipped hks
      (by
        intro k hmem
        rw [mem_cons, not_or]
        exact ⟨fun heq => hk (heq ▸ hmem), hnew k (.tail _ hmem)⟩)
      (fun k hmem => hrow k (.tail _ hmem))
    rw [map_cons, foldlM_cons]
    dsimp only
    rw [hstep, set_editedLines hr]
    show (ks.map _).foldlM _ _ = _
    rw [hrest, reverse_cons, append_assoc, map_cons, sum_cons, Nat.add_assoc]
    rfl

/-- The edits of line `i + 1` are those of row `i`. -/
theorem filter_line {rows : List Row} (hok : ∀ p ∈ rows.zipIdx, p.1.Ok template mode p.2)
    {i : Nat} {r : Row} (hr : rows[i]? = some r) :
    (rows.flatMap Row.accepted).filter (fun m => m.line == i + 1) = r.accepted := by
  suffices hgen : ∀ (rows : List Row) (k : Nat), (∀ p ∈ rows.zipIdx k, p.1.Ok template mode p.2) →
      (rows.flatMap Row.accepted).filter (fun m => m.line == i + 1)
        = if k ≤ i then (rows[i - k]?.map Row.accepted).getD [] else [] by
    rw [hgen rows 0 hok, if_pos (Nat.zero_le i), Nat.sub_zero, hr]
    rfl
  intro rows
  induction rows with
  | nil => intro k _; simp
  | cons q rows ih =>
    intro k hok
    rw [zipIdx_cons] at hok
    have hq : q.Ok template mode k := hok (q, k) (.head _)
    have hrest := ih (k + 1) (fun p hp => hok p (.tail _ hp))
    rw [List.flatMap_cons, filter_append, hrest]
    by_cases hki : k = i
    · subst hki
      have hall : q.accepted.filter (fun m => m.line == k + 1) = q.accepted := by
        rw [filter_eq_self]
        intro m hm
        simp [hq.line m hm]
      rw [hall, if_neg (by omega), if_pos (le_refl k), Nat.sub_self]
      simp
    · have hnone : q.accepted.filter (fun m => m.line == i + 1) = [] := by
        rw [filter_eq_nil_iff]
        intro m hm
        simp only [hq.line m hm, beq_iff_eq]
        omega
      rw [hnone, nil_append]
      by_cases hlt : k < i
      · rw [if_pos (by omega), if_pos (by omega), show i - k = (i - (k + 1)) + 1 by omega,
          List.getElem?_cons_succ]
      · rw [if_neg (by omega), if_neg (by omega)]

/-- A row without accepted matches is not changed. -/
theorem Row.Ok.unchanged {i : Nat} {r : Row} (h : r.Ok template mode i) (hnil : r.accepted = []) :
    newOf r.pieces = oldOf r.pieces := by
  have hnone : splices byteLen 0 r.pieces = [] := by rw [h.cuts, hnil, map_nil]
  exact newOf_eq_oldOf hnone

/-- The groups together are all the edits. -/
theorem sum_length_filter (edits : List Edit) :
    (((edits.map Edit.line).dedup.mergeSort (fun a b => decide (a ≤ b))).map
      (fun k => (edits.filter (fun e => e.line == k)).length)).sum = edits.length := by
  have hperm := (mergeSort_perm (edits.map Edit.line).dedup (fun a b => decide (a ≤ b))).map
    (fun k => (edits.filter (fun e => e.line == k)).length)
  have hcount : ∀ k, (edits.filter (fun e => e.line == k)).length =
    (edits.map Edit.line).count k := by
    intro k
    rw [← countP_eq_length_filter, List.count, countP_map]
    rfl
  rw [hperm.sum_eq]
  simp only [hcount]
  rw [sum_map_count_dedup_eq_length, length_map]

theorem editedLines_nil (rows : List Row) :
    editedLines rows [] = rows.map (fun r => oldOf r.pieces) := by
  apply ext_getElem?
  intro j
  rw [getElem?_editedLines, List.getElem?_map]
  simp

/-- Once all rows with accepted matches are edited, the other lines are their own result. -/
theorem editedLines_all {rows : List Row} (hok : ∀ p ∈ rows.zipIdx, p.1.Ok template mode p.2)
    {done : List Nat} (hdone : ∀ i r, rows[i]? = some r → r.accepted ≠ [] → i + 1 ∈ done) :
    editedLines rows done = rows.map (fun r => newOf r.pieces) := by
  apply ext_getElem?
  intro j
  rw [getElem?_editedLines, List.getElem?_map]
  cases hr : rows[j]? with
  | none => rfl
  | some r =>
    rw [Option.map_some, Option.map_some]
    split_ifs with hmem
    · rfl
    · have hnil : r.accepted = [] := by
        by_contra hne
        exact hmem (hdone j r hr hne)
      rw [(ok_of_getElem? hok hr).unchanged hnil]

/-- **The edits by line swap the pieces of all rows.** -/
theorem applyEdits_rows {rows : List Row} (hok : ∀ p ∈ rows.zipIdx, p.1.Ok template mode p.2)
    {content : Text} (hcontent : splitLines content = rows.map (fun r => oldOf r.pieces))
    {edits : List Edit}
    (hedits : edits.Perm ((rows.flatMap Row.accepted).map (Edit.fromMatch · template mode))) :
    applyEdits content edits
      = some ⟨join ['\n'] (rows.map (fun r => newOf r.pieces)), edits.length, 0⟩ := by
  have hgroup : ∀ i r, rows[i]? = some r → (edits.filter (fun e => e.line == i + 1)).Perm
      (r.accepted.map (Edit.fromMatch · template mode)) := by
    intro i r hr
    have hfilter := hedits.filter (fun e => e.line == i + 1)
    rw [filter_map] at hfilter
    rw [← filter_line hok hr]
    exact hfilter
  have hlines : ∀ e ∈ edits, ∃ i r, e.line = i + 1 ∧ rows[i]? = some r := by
    intro e he
    obtain ⟨m, hm, rfl⟩ := mem_map.mp (hedits.subset he)
    obtain ⟨i, r, hi, hmr, hrok⟩ := exists_ok_of_mem hok hm
    exact ⟨i, r, hrok.line m hmr, hi⟩
  have hkeys := mergeSort_perm (edits.map Edit.line).dedup (fun a b => decide (a ≤ b))
  have hmemkeys : ∀ k, k ∈ (edits.map Edit.line).dedup.mergeSort (fun a b => decide (a ≤ b))
      ↔ k ∈ edits.map Edit.line := by
    intro k
    rw [hkeys.mem_iff, mem_dedup]
  have hfold := foldlM_groups hok hgroup
    ((edits.map Edit.line).dedup.mergeSort (fun a b => decide (a ≤ b))) [] 0 0
    (hkeys.nodup_iff.mpr (nodup_dedup _)) (fun _ _ => not_mem_nil) (by
      intro k hk
      obtain ⟨e, he, rfl⟩ := mem_map.mp ((hmemkeys k).mp hk)
      exact hlines e he)
  have hend := @editedLines_all template mode rows hok
    (((edits.map Edit.line).dedup.mergeSort (fun a b => decide (a ≤ b))).reverse ++ []) (by
      intro i r hr hne
      rw [append_nil, mem_reverse, hmemkeys]
      -- an accepted match of the row is among the edits
      obtain ⟨m, hm⟩ := exists_mem_of_ne_nil _ hne
      have hgm := (hgroup i r hr).symm.subset (mem_map_of_mem hm)
      obtain ⟨he, hline⟩ := mem_filter.mp hgm
      exact mem_map.mpr ⟨_, he, eq_of_beq hline⟩)
  unfold applyEdits byLine
  rw [hcontent, ← editedLines_nil, hfold, hend, sum_length_filter, Nat.zero_add]
  rfl

/-! ## The file -/

/-- The pieces of the whole file; the line ends are kept. -/
def filePieces : List Row → List (Piece Char)
  | [] => []
  | [r] => r.pieces
  | r :: r' :: rs => r.pieces ++ .keep ['\n'] :: filePieces (r' :: rs)

theorem oldOf_filePieces (rows : List Row) :
    oldOf (filePieces rows) = join ['\n'] (rows.map (fun r => oldOf r.pieces)) := by
  induction rows with
  | nil => rfl
  | cons r rows ih =>
    cases rows with
    | nil => simp [filePieces, join]
    | cons r' rows =>
      rw [filePieces, oldOf_append, oldOf_cons, ih]
      simp [join, Piece.old]

theorem newOf_filePieces (rows : List Row) :
    newOf (filePieces rows) = join ['\n'] (rows.map (fun r => newOf r.pieces)) := by
  induction rows with
  | nil => rfl
  | cons r rows ih =>
    cases rows with
    | nil => simp [filePieces, join]
    | cons r' rows =>
      rw [filePieces, newOf_append, newOf_cons, ih]
      simp [join, Piece.new]

/-- The byte where a line, counted from 1, begins in the file. -/
def lineOffset (content : Text) (line : Nat) : Nat :=
  (((splitLines content).take (line - 1)).map (fun l => byteLen l + 1)).sum

/-- The span edit of an edit: its span in the file, with a snapshot of its bytes. -/
def Edit.toSpan (content : Text) (e : Edit) : SpanEdit where
  byteStart := lineOffset content e.line + e.byteStart
  byteEnd := lineOffset content e.line + e.byteEnd
  contentHash := fnv1a64 (byteSlice (utf8 content) (lineOffset content e.line + e.byteStart)
    (lineOffset content e.line + e.byteEnd))
  replacement := e.replacement

def SpanEdit.rep (e : SpanEdit) : Replacement Char where
  start := e.byteStart
  stop := e.byteEnd
  new := e.replacement

theorem spanStep_eq : spanStep = stepOf SpanEdit.rep (fun e text =>
    fnv1a64 (byteSlice (utf8 text) e.byteStart e.byteEnd) == e.contentHash) := rfl

/-- The replacements of the file are those of its lines, moved to where the lines begin. -/
theorem splices_filePieces (rows : List Row) :
    ∀ (content : Text) (before : List Text),
      splitLines content = before ++ rows.map (fun r => oldOf r.pieces) →
      (∀ p ∈ rows.zipIdx before.length, p.1.Ok template mode p.2) →
      splices byteLen ((before.map (fun l => byteLen l + 1)).sum) (filePieces rows)
        = (rows.flatMap Row.accepted).map
            (fun m => ((Edit.fromMatch m template mode).toSpan content).rep) := by
  induction rows with
  | nil => intro content before _ _; rfl
  | cons r rows ih =>
    intro content before hcontent hok
    rw [zipIdx_cons] at hok
    have hr : r.Ok template mode before.length := hok (r, before.length) (.head _)
    have hoff : ∀ m ∈ r.accepted,
        lineOffset content m.line = (before.map (fun l => byteLen l + 1)).sum := by
      intro m hm
      rw [lineOffset, hcontent, hr.line m hm, Nat.add_sub_cancel, take_left]
    have hhead : splices byteLen ((before.map (fun l => byteLen l + 1)).sum) r.pieces
        = r.accepted.map (fun m => ((Edit.fromMatch m template mode).toSpan content).rep) := by
      have hshift := splices_shift byteLen r.pieces 0 ((before.map (fun l => byteLen l + 1)).sum)
      rw [Nat.add_zero] at hshift
      rw [hshift, hr.cuts, map_map]
      apply map_congr_left
      intro m hm
      simp [Match.rep, SpanEdit.rep, Edit.toSpan, Edit.fromMatch, hoff m hm]
    rw [List.flatMap_cons, map_append]
    cases rows with
    | nil => rw [filePieces, hhead, flatMap_nil, map_nil, append_nil]
    | cons r' rows =>
      have hrest := ih content (before ++ [oldOf r.pieces])
        (by rw [hcontent, map_cons, append_assoc]; rfl)
        (by
          rw [length_append, length_singleton]
          exact fun p hp => hok p (.tail _ hp))
      rw [filePieces, splices_append byteLen_nil byteLen_append, hhead, splices, ← hrest]
      rw [map_append, sum_append, map_singleton, sum_singleton, Nat.add_assoc]
      rfl

/-- **The edits by file offset swap the same pieces.** -/
theorem applySpanEdits_rows {rows : List Row} (hok : ∀ p ∈ rows.zipIdx, p.1.Ok template mode p.2)
    {content : Text} (hcontent : splitLines content = rows.map (fun r => oldOf r.pieces))
    (hold : oldOf (filePieces rows) = content) {edits : List SpanEdit}
    (hedits : edits.Perm ((rows.flatMap Row.accepted).map
      (fun m => (Edit.fromMatch m template mode).toSpan content))) :
    applySpanEdits content edits = some ⟨newOf (filePieces rows), edits.length, 0⟩ := by
  have hspl := splices_filePieces rows content [] hcontent hok
  rw [map_nil, sum_nil] at hspl
  have hwidth : ∀ m ∈ rows.flatMap Row.accepted, m.byteStart < m.byteEnd := by
    intro m hm
    obtain ⟨i, r, -, hmr, hrok⟩ := exists_ok_of_mem hok hm
    exact hrok.width m hmr
  have hpair : ((rows.flatMap Row.accepted).map
      (fun m => (Edit.fromMatch m template mode).toSpan content)).Pairwise
        (fun a b => a.byteStart < b.byteStart) := by
    have hlt : ∀ x ∈ splices byteLen 0 (filePieces rows), x.start < x.stop := by
      rw [hspl]
      intro x hx
      obtain ⟨m, hm, rfl⟩ := mem_map.mp hx
      have hw := hwidth m hm
      simp only [SpanEdit.rep, Edit.toSpan, Edit.fromMatch]
      omega
    have hsorted := splices_pairwise hlt
    rw [hspl, pairwise_map] at hsorted
    exact pairwise_map.mpr hsorted
  have hcuts : ((rows.flatMap Row.accepted).map
      (fun m => (Edit.fromMatch m template mode).toSpan content)).map SpanEdit.rep
        = splices byteLen 0 (filePieces rows) := by
    rw [map_map, hspl]
    rfl
  have hfresh : ∀ e ∈ (rows.flatMap Row.accepted).map
      (fun m => (Edit.fromMatch m template mode).toSpan content), ∀ text,
      byteSlice (utf8 text) e.rep.start e.rep.stop =
        byteSlice (utf8 content) e.rep.start e.rep.stop →
      (fnv1a64 (byteSlice (utf8 text) e.byteStart e.byteEnd) == e.contentHash) = true := by
    intro e he text htext
    obtain ⟨m, -, rfl⟩ := mem_map.mp he
    rw [beq_iff_eq]
    exact congrArg fnv1a64 htext
  obtain ⟨last, hloop⟩ := foldlM_stepOf SpanEdit.rep _ (filePieces rows) _ [] []
    (byteLen content + 1) 0 0 hcuts (by rw [hold, append_nil]) hfresh (by rw [hold]; omega)
  rw [append_nil, append_nil, hold] at hloop
  unfold applySpanEdits
  rw [sortDown_eq hedits hpair, spanStep_eq, hloop, hedits.length_eq, Nat.zero_add]
  rfl

/-- The span of a match in the file and the bytes that replace it. -/
def Match.fileRep (content template : Text) (mode : SearchMode) (m : Match) :
    Replacement UInt8 where
  start := lineOffset content m.line + m.byteStart
  stop := lineOffset content m.line + m.byteEnd
  new := utf8 (renderReplacement m.captures template mode)

/-- **Guarded replace edits exactly the accepted spans.** Accepted matches of a scan are turned into
edits, listed in any order. All of them are applied, and the bytes of the result are those of the
content with all the spans substituted; so every other byte is as it was. Applying the same spans by
their file offsets gives the same. -/
theorem applyEdits_substitutes (matcher : Matcher) (hmatcher : matcher.Ordered)
    (path content : Text) (limit : Nat) (template : Text) (mode : SearchMode) (ms : List Match)
    (hms : ms.Sublist (scanContent path content matcher limit)) (edits : List Edit)
    (hedits : edits.Perm (ms.map (Edit.fromMatch · template mode))) :
    ∃ out, applyEdits content edits
          = some { content := out, applied := edits.length, skippedDrift := 0 }
      ∧ utf8 out = substitute 0 (utf8 content) (ms.map (Match.fileRep content template mode))
      ∧ applySpanEdits content (edits.map (Edit.toSpan content))
          = some { content := out, applied := edits.length, skippedDrift := 0 } := by
  have hall : ms.Sublist (((splitLines content).zipIdx 0).flatMap
      (fun p => lineMatches path matcher p.1 p.2)) := by
    unfold scanContent at hms
    dsimp only at hms
    split_ifs at hms with hlimit
    · exact hms
    · exact hms.trans (take_sublist _ _)
  obtain ⟨rows, hlines, hrows, hok⟩ :=
    exists_rows template mode hmatcher (splitLines content) 0 ms hall
  subst hrows
  have hold : oldOf (filePieces rows) = content := by
    rw [oldOf_filePieces, ← hlines]
    exact intercalate_splitOn '\n'
  refine ⟨newOf (filePieces rows), ?_, ?_, ?_⟩
  · rw [newOf_filePieces]
    exact applyEdits_rows hok hlines hedits
  · have hspl := splices_filePieces rows content [] hlines hok
    rw [map_nil, sum_nil] at hspl
    have hbytes : (rows.flatMap Row.accepted).map (Match.fileRep content template mode)
        = splices List.length 0 ((filePieces rows).map (Piece.map utf8)) := by
      rw [splices_map, show (fun xs => (utf8 xs).length) = byteLen from rfl, hspl, map_map]
      rfl
    have hcontent := oldOf_map utf8_nil utf8_append (filePieces rows)
    rw [hold] at hcontent
    rw [hbytes, ← hcontent, substitute_splices, newOf_map utf8_nil utf8_append]
  · rw [← length_map (Edit.toSpan content)]
    apply applySpanEdits_rows hok hlines hold
    have hspans := hedits.map (Edit.toSpan content)
    rw [map_map] at hspans
    exact hspans

/-- A file with two matches on its first line, one on its last, and Windows line ends. -/
def twoLines : Text := "foo bar foo\r\nfoo".toList

/-- The regex `foo`. -/
def fooRegex : Regex where
  capturesIter line := (literalScan line "foo".toList true false).map (fun m => [some m.span])

theorem fooRegex_ordered : fooRegex.Ordered := by
  have hwhole : ∀ line, fooRegex.wholeSpans line
      = ((Matcher.literal "foo".toList true false).scanLine line).map LineMatch.span := by
    intro line
    unfold Regex.wholeSpans fooRegex
    rw [filterMap_map, ← filterMap_eq_map]
    rfl
  have hord : ∀ line, OrderedSpans line (fooRegex.wholeSpans line) := by
    intro line
    rw [hwhole]
    exact scanLine_ordered (m := .literal "foo".toList true false) trivial line
  constructor
  · intro line x hx
    obtain ⟨hlt, hbounds⟩ := (hord line).fits x hx
    exact ⟨hlt.le, hbounds⟩
  · intro line
    exact (hord line).order

/-- Every `foo` is put into brackets; the edits are listed from the last to the first. -/
theorem twoLines_substitutes :
    ∃ out, applyEdits twoLines ((scanContent [] twoLines (.regex fooRegex) 0).map
            (Edit.fromMatch · "[$0]".toList .regex)).reverse
          = some { content := out, applied := 3, skippedDrift := 0 }
      ∧ utf8 out = utf8 "[foo] bar [foo]\r\n[foo]".toList := by
  have hlen : (scanContent [] twoLines (.regex fooRegex) 0).length = 3 := by decide
  obtain ⟨out, happly, hout, -⟩ := applyEdits_substitutes (.regex fooRegex) fooRegex_ordered []
    twoLines 0 "[$0]".toList .regex _ (.refl _) _ (reverse_perm _)
  refine ⟨out, ?_, hout.trans ?_⟩
  · rw [happly, length_reverse, length_map, hlen]
  · decide

end Thegn.Search
