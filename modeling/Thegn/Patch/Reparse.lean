import Thegn.Patch.Roundtrip
import Thegn.Patch.Rewrite

set_option autoImplicit false

/-! # A partial patch parses back

The text that `transform` returns is the text of one well-formed file section
(`transform_section`), so parsing it gives back the hunks that were written. `emittedHunks` lists
them; each has the old start and heading of its original, recomputed counts, and the rewritten
body. Parsing can change the kind of a no-newline marker (it depends on the line before), never
the edit script.
-/

namespace Thegn.Patch

open Text EditScript List

/-! ## Hunk headers read back -/

theorem parseRange_format {sign : Char} {start count : Nat} (hs : start < 2 ^ 32)
    (hc : count < 2 ^ 32) :
    parseRange (sign :: (ofNat start ++ ',' :: ofNat count)) sign = some (start, count) := by
  have hstrip : stripPrefix [sign] (sign :: (ofNat start ++ ',' :: ofNat count))
      = some (ofNat start ++ ',' :: ofNat count) := stripPrefix_append [sign] _
  have hsplit : splitOnce [','] (ofNat start ++ ',' :: ofNat count)
      = some (ofNat start, ofNat count) := by
    have hself : splitOnce [','] (',' :: ofNat count) = some ([], ofNat count) :=
      splitOnce_self [] _
    rw [splitOnce_skip _ (not_mem_ofNat (by decide)), hself]
    simp
  have h1 : parseU32 (ofNat start) = some start := parseUnsigned_ofNat hs
  have h2 : parseU32 (ofNat count) = some count := parseUnsigned_ofNat hc
  unfold parseRange
  simp [hstrip, hsplit, h1, h2]

/-- The two ranges of a written header. -/
def rangesText (oldStart oldCount newStart newCount : Nat) : Text :=
  '-' :: (ofNat oldStart ++ ',' :: ofNat oldCount)
    ++ ' ' :: '+' :: (ofNat newStart ++ ',' :: ofNat newCount)

theorem not_mem_range {c sign : Char} {a b : Nat} (hs : c ≠ sign) (hd : c.isDigit = false)
    (hc : c ≠ ',') : c ∉ sign :: (ofNat a ++ ',' :: ofNat b) := by
  have ha : c ∉ ofNat a := not_mem_ofNat hd
  have hb : c ∉ ofNat b := not_mem_ofNat hd
  simp [hs, ha, hb, hc]

theorem splitOn_rangesText (a b c d : Nat) :
    (rangesText a b c d).splitOn ' '
      = ['-' :: (ofNat a ++ ',' :: ofNat b), '+' :: (ofNat c ++ ',' :: ofNat d)] := by
  have h1 : ' ' ∉ '-' :: (ofNat a ++ ',' :: ofNat b) :=
    not_mem_range (by decide) (by decide) (by decide)
  have h2 : ' ' ∉ '+' :: (ofNat c ++ ',' :: ofNat d) :=
    not_mem_range (by decide) (by decide) (by decide)
  rw [rangesText, splitOn_append_cons_self_of_not_mem h1, splitOn_eq_singleton h2]

/-- **A written hunk header is read back.** -/
theorem parseHunkHeader_format {a b c d : Nat} (ha : a < 2 ^ 32) (hb : b < 2 ^ 32)
    (hc : c < 2 ^ 32) (hd : d < 2 ^ 32) (heading : Text) :
    parseHunkHeader (formatHunkHeader a b c d heading) = some (a, b, c, d, heading) := by
  set tail : Text := if heading = [] then [] else ' ' :: heading with htail
  have hshape : formatHunkHeader a b c d heading
      = (atAt ++ [' ']) ++ (rangesText a b c d ++ (' ' :: atAt ++ tail)) := by
    simp [formatHunkHeader, rangesText, htail]
  have hsplit : splitOnce (' ' :: atAt) (rangesText a b c d ++ (' ' :: atAt ++ tail))
      = some (rangesText a b c d, tail) := by
    have hself := splitOnce_self (a := ' ') atAt tail
    have h1 : ' ' ∉ '-' :: (ofNat a ++ ',' :: ofNat b) :=
      not_mem_range (by decide) (by decide) (by decide)
    have h2 : ' ' ∉ '+' :: (ofNat c ++ ',' :: ofNat d) :=
      not_mem_range (by decide) (by decide) (by decide)
    have hnone : stripPrefix (' ' :: atAt) (' ' :: (('+' :: (ofNat c ++ ',' :: ofNat d))
        ++ (' ' :: atAt ++ tail))) = none := by
      rw [stripPrefix_eq_none, atAt_eq]
      rfl
    rw [rangesText, append_assoc, splitOnce_skip _ h1, cons_append, splitOnce, hnone,
      splitOnce_skip _ h2, hself]
    simp
  have hheading : (stripPrefix [' '] tail).getD tail = heading := by
    by_cases h : heading = []
    · rw [htail, if_pos h, h]
      rfl
    · rw [htail, if_neg h]
      have hstrip : stripPrefix [' '] (' ' :: heading) = some heading :=
        stripPrefix_append [' '] heading
      rw [hstrip]
      rfl
  have hfilter : ((rangesText a b c d).splitOn ' ').filter (· ≠ [])
      = ['-' :: (ofNat a ++ ',' :: ofNat b), '+' :: (ofNat c ++ ',' :: ofNat d)] := by
    rw [splitOn_rangesText]
    simp
  unfold parseHunkHeader
  rw [hshape, stripPrefix_append, Option.bind_eq_bind, Option.bind_some, hsplit,
    Option.bind_eq_bind, Option.bind_some]
  simp only [hfilter]
  simp [parseRange_format ha hb, parseRange_format hc hd, hheading]

theorem parseRange_lt {part : Text} {sign : Char} {a b : Nat}
    (h : parseRange part sign = some (a, b)) : a < 2 ^ 32 ∧ b < 2 ^ 32 := by
  unfold parseRange at h
  obtain ⟨rest, -, h⟩ := Option.bind_eq_some_iff.mp h
  cases hs : splitOnce [','] rest with
  | none =>
    rw [hs] at h
    obtain ⟨x, hx, h⟩ := Option.bind_eq_some_iff.mp h
    cases h
    exact ⟨parseUnsigned_lt hx, by decide⟩
  | some lr =>
    rw [hs] at h
    obtain ⟨x, hx, h⟩ := Option.bind_eq_some_iff.mp h
    obtain ⟨y, hy, h⟩ := Option.bind_eq_some_iff.mp h
    cases h
    exact ⟨parseUnsigned_lt hx, parseUnsigned_lt hy⟩

/-- The old range of an accepted header has `u32` numbers, and the heading is a part of it. -/
theorem parseHunkHeader_spec {line : Text} {a b c d : Nat} {heading : Text}
    (h : parseHunkHeader line = some (a, b, c, d, heading)) :
    a < 2 ^ 32 ∧ b < 2 ^ 32 ∧ ∀ x ∈ heading, x ∈ line := by
  unfold parseHunkHeader at h
  obtain ⟨rest, hrest, h⟩ := Option.bind_eq_some_iff.mp h
  obtain ⟨⟨ranges, tail⟩, hsplit, h⟩ := Option.bind_eq_some_iff.mp h
  dsimp only at h
  split at h
  · obtain ⟨⟨a', b'⟩, hold, h⟩ := Option.bind_eq_some_iff.mp h
    obtain ⟨⟨c', d'⟩, hnew, h⟩ := Option.bind_eq_some_iff.mp h
    cases h
    obtain ⟨h1, h2⟩ := parseRange_lt hold
    refine ⟨h1, h2, ?_⟩
    rw [stripPrefix_eq_some.mp hrest, splitOnce_eq_some hsplit]
    intro x hx
    have htail : x ∈ tail := by
      cases hs : stripPrefix [' '] tail with
      | none => rwa [hs] at hx
      | some t =>
        rw [hs] at hx
        rw [stripPrefix_eq_some.mp hs]
        exact mem_append_right _ hx
    simp [htail]
  · cases h

/-! ## Bodies read back -/

/-- Two bodies that differ only in the kinds of their markers have the same script. -/
theorem bodyScript_congr {ls ms : List PatchLine}
    (h : ls.map (fun l => (l.kind.op, l.text)) = ms.map (fun l => (l.kind.op, l.text))) :
    bodyScript ls = bodyScript ms := by
  have key : ∀ (ls ms : List PatchLine) (s : Script FileLine),
      ls.map (fun l => (l.kind.op, l.text)) = ms.map (fun l => (l.kind.op, l.text)) →
      ls.foldl bodyStep s = ms.foldl bodyStep s := by
    intro ls
    induction ls with
    | nil =>
      intro ms s h
      rw [map_nil, eq_comm, map_eq_nil_iff] at h
      rw [h]
    | cons l ls ih =>
      intro ms s h
      cases ms with
      | nil => cases h
      | cons m ms =>
        simp only [map_cons, List.cons.injEq, Prod.mk.injEq] at h
        have hstep : bodyStep s l = bodyStep s m := by
          simp only [bodyStep, h.1.1, h.1.2]
        rw [foldl_cons, foldl_cons, hstep]
        exact ih ms _ h.2
  exact key ls ms [] h

/-- A body as parsed from its own text. -/
def rereadBody (lines : List PatchLine) : List PatchLine :=
  readBody none (lines.map (fun l => markerChar l.kind :: l.text))

theorem readBody_map (lines : List PatchLine) :
    ∀ prev : Option LineKind, (readBody prev (lines.map (fun l => markerChar l.kind :: l.text))).map
          (fun l => (l.kind.op, l.text)) = lines.map (fun l => (l.kind.op, l.text)) := by
  induction lines with
  | nil => intro prev; rfl
  | cons l lines ih =>
    intro prev
    obtain ⟨kind, text⟩ := l
    have hline : ∃ k, bodyLine prev (markerChar kind :: text) = some ⟨k, text⟩ ∧
      k.op = kind.op := by
      cases kind with
      | context => exact ⟨.context, rfl, rfl⟩
      | add => exact ⟨.add, rfl, rfl⟩
      | del => exact ⟨.del, rfl, rfl⟩
      | noNewlineOld => exact ⟨_, rfl, by split <;> rfl⟩
      | noNewlineNew => exact ⟨_, rfl, by split <;> rfl⟩
    obtain ⟨k, hk, hop⟩ := hline
    rw [map_cons, readBody, hk]
    simp only [map_cons, ih, hop]

/-- A body written and read back: every line is accepted, and its text is the same. -/
theorem rereadBody_spec (lines : List PatchLine) :
    ReadsBack none (rereadBody lines)
      ∧ (rereadBody lines).map (fun l => markerChar l.kind :: l.text)
        = lines.map (fun l => markerChar l.kind :: l.text) := by
  apply readBody_spec
  intro t ht
  obtain ⟨l, -, rfl⟩ := mem_map.mp ht
  refine ⟨_, _, rfl, ?_⟩
  cases l.kind <;> simp [markerChar]

/-- Reading a body back keeps its script. -/
theorem bodyScript_reread (lines : List PatchLine) :
    bodyScript (rereadBody lines) = bodyScript lines :=
  bodyScript_congr (readBody_map lines none)

/-! ## The emitted hunks -/

/-- The hunk written for a rewritten body `lines` of `h`, as it parses back. -/
def emitHunk (h : PatchHunk) (delta : Int) (lines : List PatchLine) : PatchHunk :=
  let oldCount := countKinds lines .context .del
  let newCount := countKinds lines .context .add
  let newStart := emittedNewStart h.oldStart delta oldCount newCount
  { oldStart := h.oldStart
    oldCount := oldCount % 2 ^ 32
    newStart := newStart
    newCount := newCount % 2 ^ 32
    heading := h.heading
    headerLine := formatHunkHeader h.oldStart (oldCount % 2 ^ 32) newStart (newCount % 2 ^ 32)
      h.heading
    lines := rereadBody lines }

/-- What a hunk contributes to the running `delta`. -/
def hunkDelta (sel : Selection) (reverse : Bool) (p : PatchHunk × Nat) : Int :=
  (countKinds (transformHunkLines p.1 p.2 sel reverse) .context .add : Int)
    - countKinds (transformHunkLines p.1 p.2 sel reverse) .context .del

/-- The hunks of the partial patch, from the running `delta` on. -/
def emittedHunks (sel : Selection) (reverse : Bool) : Int → List (PatchHunk × Nat) → List PatchHunk
  | _, [] => []
  | delta, p :: ps =>
    if hasChanges (transformHunkLines p.1 p.2 sel reverse) then
      emitHunk p.1 delta (transformHunkLines p.1 p.2 sel reverse)
        :: emittedHunks sel reverse (delta + hunkDelta sel reverse p) ps
    else emittedHunks sel reverse (delta + hunkDelta sel reverse p) ps

theorem mem_emittedHunks {sel : Selection} {reverse : Bool} (ps : List (PatchHunk × Nat)) :
    ∀ (delta : Int), ∀ h ∈ emittedHunks sel reverse delta ps,
      ∃ p ∈ ps, ∃ d, h = emitHunk p.1 d (transformHunkLines p.1 p.2 sel reverse) := by
  induction ps with
  | nil => intro delta h hh; cases hh
  | cons p ps ih =>
    intro delta h hh
    rw [emittedHunks] at hh
    have hrest : h ∈ emittedHunks sel reverse (delta + hunkDelta sel reverse p) ps →
        ∃ q ∈ p :: ps, ∃ d, h = emitHunk q.1 d (transformHunkLines q.1 q.2 sel reverse) := by
      intro hmem
      obtain ⟨q, hq, d, he⟩ := ih _ h hmem
      exact ⟨q, by simp [hq], d, he⟩
    split at hh
    · rcases mem_cons.mp hh with rfl | hh
      · exact ⟨p, by simp, delta, rfl⟩
      · exact hrest hh
    · exact hrest hh

theorem emitHunk_text (h : PatchHunk) (delta : Int) (lines : List PatchLine) :
    (emitHunk h delta lines).textLines = (emitHunk h delta lines).headerLine
      :: lines.map (fun l => markerChar l.kind :: l.text) := by
  rw [PatchHunk.textLines]
  exact congrArg _ (rereadBody_spec lines).2

/-- What the loop over the hunks has written. -/
theorem foldl_transformHunk (sel : Selection) (reverse : Bool) (ps : List (PatchHunk × Nat)) :
    ∀ st : TransformState, (ps.foldl (transformHunk sel reverse) st).body
          = st.body ++ unlines ((emittedHunks sel reverse st.delta ps).flatMap PatchHunk.textLines)
        ∧ ((ps.foldl (transformHunk sel reverse) st).emitted = true
          ↔ st.emitted = true ∨ emittedHunks sel reverse st.delta ps ≠ []) := by
  induction ps with
  | nil => intro st; simp [emittedHunks]
  | cons p ps ih =>
    intro st
    obtain ⟨h, hi⟩ := p
    rw [foldl_cons, emittedHunks]
    by_cases hc : hasChanges (transformHunkLines h hi sel reverse) = true
    · obtain ⟨h1, h2⟩ := ih (transformHunk sel reverse st (h, hi))
      rw [if_pos hc]
      have hdelta : (transformHunk sel reverse st (h, hi)).delta
          = st.delta + hunkDelta sel reverse (h, hi) := by
        simp [transformHunk, hc, hunkDelta]
      have hbody : (transformHunk sel reverse st (h, hi)).body = st.body
          ++ unlines (emitHunk h st.delta (transformHunkLines h hi sel reverse)).textLines := by
        rw [emitHunk_text]
        simp [transformHunk, hc, emitHunk, pushBody]
      rw [h1, h2, hdelta, hbody]
      refine ⟨by simp, ?_⟩
      simp [transformHunk, hc]
    · obtain ⟨h1, h2⟩ := ih (transformHunk sel reverse st (h, hi))
      rw [if_neg hc]
      have hstep : transformHunk sel reverse st (h, hi)
          = { st with delta := st.delta + hunkDelta sel reverse (h, hi) } := by
        simp [transformHunk, hc, hunkDelta]
      rw [hstep] at h1 h2 ⊢
      exact ⟨h1, h2⟩

/-! ## The emitted hunks are well formed -/

theorem not_mem_formatHunkHeader {a b c d : Nat} {heading : Text} (h : '\n' ∉ heading) :
    '\n' ∉ formatHunkHeader a b c d heading := by
  have hdigits : ∀ n : Nat, '\n' ∉ ofNat n := fun n => not_mem_ofNat (by decide)
  have hat : '\n' ∉ atAt := by rw [atAt_eq]; decide
  unfold formatHunkHeader
  split <;> simp [hdigits, hat, h]

theorem emittedNewStart_lt (oldStart : Nat) (delta : Int) (oldCount newCount : Nat) :
    emittedNewStart oldStart delta oldCount newCount < 2 ^ 32 :=
  Nat.mod_lt _ (by decide)

theorem hunkOk_emitHunk {h : PatchHunk} (hok : HunkOk h) (delta : Int) {lines : List PatchLine}
    (hl : ∀ l ∈ lines, '\n' ∉ l.text) : HunkOk (emitHunk h delta lines) where
  header := by
    obtain ⟨hlt, -, -⟩ := parseHunkHeader_spec hok.header
    exact parseHunkHeader_format hlt (Nat.mod_lt _ (by decide)) (emittedNewStart_lt _ _ _ _)
      (Nat.mod_lt _ (by decide)) h.heading
  body := (rereadBody_spec lines).1
  noNewline := by
    intro t ht
    rw [emitHunk_text] at ht
    rcases mem_cons.mp ht with rfl | ht
    · obtain ⟨-, -, hsub⟩ := parseHunkHeader_spec hok.header
      have hline : '\n' ∉ h.headerLine := hok.noNewline _ (by simp [PatchHunk.textLines])
      exact not_mem_formatHunkHeader (fun hc => hline (hsub _ hc))
    · obtain ⟨l, hlm, rfl⟩ := mem_map.mp ht
      have hmk : '\n' ≠ markerChar l.kind := by cases l.kind <;> decide
      simp [hmk, hl l hlm]

theorem HunkOk.text_noNewline {h : PatchHunk} (hok : HunkOk h) : ∀ l ∈ h.lines, '\n' ∉ l.text := by
  intro l hl hc
  have hmem : markerChar l.kind :: l.text ∈ h.textLines := by
    rw [PatchHunk.textLines]
    exact .tail _ (mem_map.mpr ⟨l, hl, rfl⟩)
  exact hok.noNewline _ hmem (.tail _ hc)

theorem hunkOk_emittedHunks {sel : Selection} {reverse : Bool} {ps : List (PatchHunk × Nat)}
    {delta : Int} (hok : ∀ p ∈ ps, HunkOk p.1) :
    ∀ h ∈ emittedHunks sel reverse delta ps, HunkOk h := by
  intro h hh
  obtain ⟨p, hp, d, rfl⟩ := mem_emittedHunks ps delta h hh
  apply hunkOk_emitHunk (hok p hp)
  intro l hl
  obtain ⟨l', hl', ht⟩ := text_transformHunkLines hl
  rw [ht]
  exact (hok p hp).text_noNewline l' hl'

/-! ## Headers of partial whole-file changes -/

/-- A `---` or `+++` line rebuilt from newline-free text is a header line without newline. -/
theorem mirrorSide_spec {body pre post : Text} (hb : '\n' ∉ body) (hp : '\n' ∉ post) :
    IsHeaderLine (mirrorSide body pre post) ∧ '\n' ∉ mirrorSide body pre post := by
  have hshape : ∃ marker t : Text, mirrorSide body pre post = marker ++ t
      ∧ (marker = ['-', '-', '-', ' '] ∨ marker = ['+', '+', '+', ' ']) ∧ '\n' ∉ t := by
    have hmarker : (if post = "a/".toList then "--- ".toList else "+++ ".toList)
        = ['-', '-', '-', ' '] ∨ (if post = "a/".toList then "--- ".toList else "+++ ".toList)
        = ['+', '+', '+', ' '] := by
      split
      · exact Or.inl (by decide)
      · exact Or.inr (by decide)
    generalize hm : (if post = "a/".toList then "--- ".toList else "+++ ".toList) = marker
      at hmarker
    unfold mirrorSide
    rw [hm]
    cases hq : stripPrefix ['"'] body with
    | some inner =>
      have hinner : '\n' ∉ inner := not_mem_of_stripPrefix hq hb
      cases hr : stripPrefix pre inner with
      | some rest =>
        have hrest : '\n' ∉ rest := not_mem_of_stripPrefix hr hinner
        exact ⟨marker, ['"'] ++ post ++ rest, by simp [hr], hmarker, by simp [hp, hrest]⟩
      | none => exact ⟨marker, ['"'] ++ post ++ inner, by simp [hr], hmarker, by simp [hp, hinner]⟩
    | none =>
      cases hr : stripPrefix pre body with
      | some rest =>
        have hrest : '\n' ∉ rest := not_mem_of_stripPrefix hr hb
        exact ⟨marker, post ++ rest, by simp, hmarker, by simp [hp, hrest]⟩
      | none => exact ⟨marker, post ++ body, by simp, hmarker, by simp [hp, hb]⟩
  obtain ⟨marker, t, he, hmarker, ht⟩ := hshape
  rw [he]
  unfold IsHeaderLine
  rw [diffGit_eq, atAt_eq]
  rcases hmarker with rfl | rfl
  · exact ⟨⟨rfl, rfl⟩, by simp [ht]⟩
  · exact ⟨⟨rfl, rfl⟩, by simp [ht]⟩

/-- A step of the scan leaves each side, or sets it to a part of the line. -/
theorem sideScan_step (sc : SideScan) (line : Text) :
    ((sc.step line).minusReal = sc.minusReal
        ∨ ∃ p r, stripPrefix p line = some r ∧ (sc.step line).minusReal = some r)
    ∧ ((sc.step line).plusReal = sc.plusReal
        ∨ ∃ p r, stripPrefix p line = some r ∧ (sc.step line).plusReal = some r) := by
  unfold SideScan.step
  dsimp only
  cases hm : stripPrefix "--- ".toList line with
  | some rest =>
    by_cases hd : ((stripSuffix ['\r'] rest).getD rest == "/dev/null".toList) = true
    · simp only [hd, if_true]
      exact ⟨Or.inl trivial, Or.inl trivial⟩
    · simp only [hd, Bool.false_eq_true, if_false]
      exact ⟨Or.inr ⟨_, rest, hm, rfl⟩, Or.inl trivial⟩
  | none =>
    cases hp : stripPrefix "+++ ".toList line with
    | some rest =>
      by_cases hd : ((stripSuffix ['\r'] rest).getD rest == "/dev/null".toList) = true
      · simp only [hd, if_true]
        exact ⟨Or.inl trivial, Or.inl trivial⟩
      · simp only [hd, Bool.false_eq_true, if_false]
        exact ⟨Or.inl trivial, Or.inr ⟨_, rest, hp, rfl⟩⟩
    | none => exact ⟨Or.inl rfl, Or.inl rfl⟩

/-- The scan only keeps parts of header lines. -/
theorem sideScan_noNewline (header : List Text) :
    ∀ sc : SideScan, (∀ l ∈ header, '\n' ∉ l) → (∀ r ∈ sc.minusReal, '\n' ∉ r) →
      (∀ r ∈ sc.plusReal, '\n' ∉ r) → (∀ r ∈ (header.foldl SideScan.step sc).minusReal, '\n' ∉ r)
        ∧ ∀ r ∈ (header.foldl SideScan.step sc).plusReal, '\n' ∉ r := by
  induction header with
  | nil => intro sc _ h1 h2; exact ⟨h1, h2⟩
  | cons l header ih =>
    intro sc hh h1 h2
    have hkeep : ∀ {old new : Option Text}, (∀ r ∈ old, '\n' ∉ r) →
        (new = old ∨ ∃ p r, stripPrefix p l = some r ∧ new = some r) → ∀ r ∈ new, '\n' ∉ r := by
      rintro old new hold (rfl | ⟨p, r, hs, rfl⟩) x hx
      · exact hold x hx
      · cases hx
        exact not_mem_of_stripPrefix hs (hh l (by simp))
    obtain ⟨hm, hp⟩ := sideScan_step sc l
    rw [foldl_cons]
    exact ih _ (fun m hm => hh m (by simp [hm])) (hkeep h1 hm) (hkeep h2 hp)

/-- The replacement lines are header lines without newline. -/
theorem fixedSides_spec {header : List Text} {fixed : Option Text × Option Text}
    (hh : ∀ l ∈ header, '\n' ∉ l) (h : fixedSides header = some fixed) :
    (∀ l ∈ fixed.1, IsHeaderLine l ∧ '\n' ∉ l) ∧ ∀ l ∈ fixed.2, IsHeaderLine l ∧ '\n' ∉ l := by
  obtain ⟨hm, hp⟩ := sideScan_noNewline header
    { minusDevnull := false, plusDevnull := false, minusReal := none, plusReal := none } hh
    (by simp) (by simp)
  unfold fixedSides at h
  dsimp only at h
  split at h
  · obtain ⟨real, hreal, h⟩ := Option.bind_eq_some_iff.mp h
    cases h
    refine ⟨by simp, ?_⟩
    intro l hl
    simp only [Option.mem_def, Option.some.injEq] at hl
    rw [← hl]
    exact mirrorSide_spec (hm real hreal) (by decide)
  · split at h
    · obtain ⟨real, hreal, h⟩ := Option.bind_eq_some_iff.mp h
      cases h
      refine ⟨?_, by simp⟩
      intro l hl
      simp only [Option.mem_def, Option.some.injEq] at hl
      rw [← hl]
      exact mirrorSide_spec (hp real hreal) (by decide)
    · cases h

theorem rewriteHeaderLine_spec {fixed : Option Text × Option Text} {line l : Text}
    (h1 : ∀ l ∈ fixed.1, IsHeaderLine l ∧ '\n' ∉ l) (h2 : ∀ l ∈ fixed.2, IsHeaderLine l ∧ '\n' ∉ l)
    (hline : IsHeaderLine line ∧ '\n' ∉ line) (h : rewriteHeaderLine fixed line = some l) :
    IsHeaderLine l ∧ '\n' ∉ l := by
  unfold rewriteHeaderLine at h
  split at h
  · cases h
  · split at h
    · exact h1 l h
    · split at h
      · exact h2 l h
      · cases h
        exact hline

theorem rewriteHeaderLine_diffLine (fixed : Option Text × Option Text) (rest : Text) :
    rewriteHeaderLine fixed (diffGit ++ rest) = some (diffGit ++ rest) := by
  rw [diffGit_eq]
  rfl

/-- A rewritten header is again a `diff --git` line followed by header lines. -/
theorem rewritePartialWholeFileHeader_spec {s : FileSection} (hs : SectionOk s) {text : Text}
    (h : rewritePartialWholeFileHeader (s.diffLine :: s.header) = some text) :
    ∃ header, text = unlines (s.diffLine :: header) ∧ ∀ l ∈ header, IsHeaderLine l ∧ '\n' ∉ l := by
  have hnl : ∀ l ∈ s.diffLine :: s.header, '\n' ∉ l := by
    intro l hl
    refine hs.noNewline l ?_
    rcases mem_cons.mp hl with rfl | hl
    · exact .head _
    · exact .tail _ (mem_append_left _ hl)
  obtain ⟨fixed, hfixed, rfl⟩ := Option.map_eq_some_iff.mp h
  obtain ⟨h1, h2⟩ := fixedSides_spec hnl hfixed
  refine ⟨s.header.filterMap (rewriteHeaderLine fixed), ?_, ?_⟩
  · rw [filterMap_cons, FileSection.diffLine, rewriteHeaderLine_diffLine]
  · intro l hl
    obtain ⟨line, hmem, hline⟩ := mem_filterMap.mp hl
    exact rewriteHeaderLine_spec h1 h2 ⟨hs.header line hmem, hnl line (.tail _ hmem)⟩ hline

/-! ## The partial patch is a section -/

/-- **The text of a partial patch is one well-formed section with the emitted hunks.** -/
theorem transform_section {s : FileSection} (hs : SectionOk s) {sel : Selection} {reverse : Bool}
    {text : Text} (h : transform s.build sel reverse = some text) :
    ∃ s' : FileSection, SectionOk s' ∧ s'.hunks = emittedHunks sel reverse 0 s.hunks.zipIdx
      ∧ text = sectionsText [s'] := by
  obtain ⟨hbody, -⟩ := foldl_transformHunk sel reverse s.hunks.zipIdx
    { body := [], emitted := false, delta := 0, emittedContext := false }
  have hok : ∀ k ∈ emittedHunks sel reverse 0 s.hunks.zipIdx, HunkOk k := by
    apply hunkOk_emittedHunks
    intro p hp
    exact hs.hunks p.1 (fst_mem_of_mem_zipIdx hp)
  -- any header that is a `diff --git` line with header lines makes a section
  have hmk : ∀ (header : List Text), (∀ l ∈ header, IsHeaderLine l ∧ '\n' ∉ l) →
      ∃ s' : FileSection, SectionOk s' ∧ s'.hunks = emittedHunks sel reverse 0 s.hunks.zipIdx
        ∧ unlines (s.diffLine :: header) ++ unlines ((emittedHunks sel reverse 0
            s.hunks.zipIdx).flatMap PatchHunk.textLines) = sectionsText [s'] := by
    intro header hh
    refine ⟨⟨s.rest, header, emittedHunks sel reverse 0 s.hunks.zipIdx⟩,
      ⟨fun l hl => (hh l hl).1, hok, ?_⟩, rfl, ?_⟩
    · intro l hl
      rcases mem_cons.mp hl with rfl | hl
      · exact hs.noNewline _ (.head _)
      · rcases mem_append.mp hl with hl | hl
        · exact (hh l hl).2
        · obtain ⟨k, hk, hl⟩ := mem_flatMap.mp hl
          exact (hok k hk).noNewline l hl
    · simp [sectionsText, FileSection.textLines, FileSection.diffLine]
  unfold transform at h
  split at h
  · cases h
  · dsimp only at h
    split at h
    · simp only [Option.some.injEq] at h
      rw [build_hunks, hbody, nil_append] at h
      have hplain := hmk s.header (fun l hl => ⟨hs.header l hl, hs.noNewline l
        (.tail _ (mem_append_left _ hl))⟩)
      rw [← h, build_header]
      split
      · cases hr : rewritePartialWholeFileHeader (s.diffLine :: s.header) with
        | none => exact hplain
        | some t =>
          obtain ⟨header, rfl, hh⟩ := rewritePartialWholeFileHeader_spec hs hr
          exact hmk header hh
      · exact hplain
    · cases h

/-- **Parsing a partial patch gives back the emitted hunks.** -/
theorem parsePatch_transform {diff : Text} {file : PatchFile} (hfile : file ∈ parsePatch diff)
    {sel : Selection} {reverse : Bool} {text : Text} (h : transform file sel reverse = some text) :
    ∃ out, parsePatch text = [out] ∧ out.hunks = emittedHunks sel reverse 0 file.hunks.zipIdx := by
  obtain ⟨ss, hss, hparse⟩ := exists_sections diff
  rw [hparse] at hfile
  obtain ⟨s, hs, rfl⟩ := mem_map.mp hfile
  obtain ⟨s', hs', hhunks, rfl⟩ := transform_section (hss s hs) h
  refine ⟨s'.build, parse_sections ?_, hhunks⟩
  intro t ht
  rw [mem_singleton.mp ht]
  exact hs'

/-- Hunks that come from the parser are well formed. -/
theorem hunkOk_of_mem_parsePatch {diff : Text} {file : PatchFile} (hfile : file ∈ parsePatch diff) :
    ∀ h ∈ file.hunks, HunkOk h := by
  obtain ⟨ss, hss, hparse⟩ := exists_sections diff
  rw [hparse] at hfile
  obtain ⟨s, hs, rfl⟩ := mem_map.mp hfile
  exact (hss s hs).hunks

end Thegn.Patch
