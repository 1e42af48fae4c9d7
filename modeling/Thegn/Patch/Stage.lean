import Thegn.Patch.Reparse

set_option autoImplicit false

/-! # Staging a selection

Forward, `transform` is meant for `git apply --cached`: applied to the pre-image of the diff it
should make exactly the selected changes. `strictApply` is an application without fuzz or
offsets, newlines at end of file included. `ForwardExact` says what the patch for a selection
should do, and it does so exactly when no marker of the file is stranded
(`forwardExact_iff`).
-/

namespace Thegn.Patch

open Text EditScript List

/-! ## Strict application of hunks -/

/-- The number of file lines before the old side of a hunk. A hunk without old lines names the
line before it, any other hunk its first line. -/
def PatchHunk.oldPos (h : PatchHunk) : Nat := if h.oldCount = 0 then h.oldStart else h.oldStart - 1

/-- The old range of a hunk agrees with its body. -/
def PatchHunk.Numbered (h : PatchHunk) : Prop :=
  h.oldCount = (oldSide (bodyScript h.lines)).length ∧ (h.oldCount ≠ 0 → h.oldStart ≠ 0)

instance (h : PatchHunk) : Decidable h.Numbered := inferInstanceAs (Decidable (_ ∧ _))

def PatchHunk.placed (h : PatchHunk) : Placed FileLine := ⟨h.oldPos, bodyScript h.lines⟩

/-- **Strict application**: every hunk has to match, line for line, at its own old start. -/
def strictApply (hs : List PatchHunk) (file : List FileLine) : Option (List FileLine) :=
  if ∀ h ∈ hs, h.Numbered then applyFrom 0 (hs.map PatchHunk.placed) file else none

theorem strictApply_eq_some {hs : List PatchHunk} {P Q : List FileLine} :
    strictApply hs P = some Q ↔
      (∀ h ∈ hs, h.Numbered) ∧ applyFrom 0 (hs.map PatchHunk.placed) P = some Q := by
  unfold strictApply
  split
  · rename_i hn
    exact ⟨fun h => ⟨hn, h⟩, fun h => h.2⟩
  · rename_i hn
    exact ⟨(fun h => nomatch h), fun h => absurd h.1 hn⟩

/-! ## Exact staging -/

/-- A hunk with a selected change. -/
def touched (sel : Selection) (p : PatchHunk × Nat) : Bool :=
  (sel.marks p.2 p.1.lines).any (fun q => q.2 && q.1.kind.isChange)

/-- **What staging should do.** The text parses to one file whose hunks are the hunks with a
selected change, in order, each at its old start and with its old side; strictly applied to `P`
it gives `P` with, in each hunk, exactly the selected changes made (`StagedNew`). -/
def ForwardExact (file : PatchFile) (sel : Selection) (P : List FileLine) (text : Text) : Prop :=
  ∃ out R, parsePatch text = [out]
    ∧ out.hunks.map (fun h => (h.oldStart, oldSide (bodyScript h.lines)))
      = (file.hunks.zipIdx.filter (touched sel)).map
          (fun p => (p.1.oldStart, oldSide (bodyScript p.1.lines)))
    ∧ strictApply out.hunks P = some R
    ∧ Rewritten (fun p => p.1.oldPos) (fun p => oldSide (bodyScript p.1.lines))
        (fun p => StagedNew (markedScript (sel.marks p.2 p.1.lines))) 0 file.hunks.zipIdx P R

/-- Some hunk of the file has a stranded marker. -/
def Stranded (file : PatchFile) (sel : Selection) : Prop :=
  ∃ p ∈ file.hunks.zipIdx, StrandedMarker (sel.marks p.2 p.1.lines)

/-! ## Emitted hunks -/

theorem hasChanges_iff {lines : List PatchLine} :
    hasChanges lines = true ↔ lines.filter (fun l => l.kind.isChange) ≠ [] := by
  rw [hasChanges, any_eq_true, Ne, filter_eq_nil_iff]
  push Not
  constructor
  · rintro ⟨l, hl, hk⟩
    refine ⟨l, hl, ?_⟩
    cases hkind : l.kind <;> simp_all
  · rintro ⟨l, hl, hk⟩
    refine ⟨l, hl, ?_⟩
    cases hkind : l.kind <;> simp_all

/-- A hunk is emitted when a change of it is selected. -/
theorem hasChanges_forward (sel : Selection) (p : PatchHunk × Nat) :
    hasChanges (transformHunkLines p.1 p.2 sel false) = touched sel p := by
  rw [Bool.eq_iff_iff, hasChanges_iff, transformHunkLines_forward, filter_isChange_rewrite,
    touched, any_eq_true]
  rw [Ne, map_eq_nil_iff, filter_eq_nil_iff]
  push Not
  rfl

/-- Reading the emitted hunks off the rewritten ones. -/
theorem map_emittedHunks {γ : Type} {sel : Selection} {reverse : Bool} {f : PatchHunk → γ}
    {g : PatchHunk × Nat → γ} (ps : List (PatchHunk × Nat)) :
    ∀ delta : Int,
      (∀ p ∈ ps, ∀ d, f (emitHunk p.1 d (transformHunkLines p.1 p.2 sel reverse)) = g p) →
      (emittedHunks sel reverse delta ps).map f
        = (ps.filter (fun p => hasChanges (transformHunkLines p.1 p.2 sel reverse))).map g := by
  induction ps with
  | nil => intro delta _; rfl
  | cons p ps ih =>
    intro delta h
    have ih' := ih (delta + hunkDelta sel reverse p) (fun q hq => h q (by simp [hq]))
    rw [emittedHunks]
    by_cases hc : hasChanges (transformHunkLines p.1 p.2 sel reverse) = true
    · rw [if_pos hc, filter_cons, if_pos hc, map_cons, map_cons, ih', h p (by simp)]
    · rw [if_neg hc, filter_cons, if_neg hc, ih']

/-- The operations of a script come from its body lines. -/
theorem op_bodyScript (lines : List PatchLine) :
    ∀ e ∈ bodyScript lines, ∃ l ∈ lines, l.kind.op = some e.1 := by
  induction lines using List.reverseRecOn with
  | nil => intro e he; cases he
  | append_singleton ls l ih =>
    intro e he
    rw [bodyScript_snoc] at he
    have hstep : (∃ x ∈ bodyScript ls, e.1 = x.1) ∨ l.kind.op = some e.1 := by
      unfold bodyStep at he
      cases hop : l.kind.op with
      | some op =>
        rw [hop] at he
        rcases mem_append.mp he with he | he
        · exact Or.inl ⟨e, he, rfl⟩
        · rw [mem_singleton.mp he]
          exact Or.inr rfl
      | none =>
        rw [hop] at he
        obtain ⟨x, hx, rfl | rfl⟩ := mem_modifyLast he
        · exact Or.inl ⟨e, hx, rfl⟩
        · exact Or.inl ⟨x, hx, rfl⟩
    rcases hstep with ⟨x, hx, hex⟩ | hop
    · obtain ⟨m, hm, hmx⟩ := ih x hx
      exact ⟨m, by simp [hm], by rw [hex]; exact hmx⟩
    · exact ⟨l, by simp, hop⟩

/-- A body without changes only keeps lines. -/
theorem newSide_eq_oldSide {lines : List PatchLine} (h : hasChanges lines = false) :
    newSide (bodyScript lines) = oldSide (bodyScript lines) := by
  have hkeep : ∀ e ∈ bodyScript lines, e.1 = .keep := by
    intro e he
    obtain ⟨l, hl, hop⟩ := op_bodyScript lines e he
    have hno : (l.kind == .add || l.kind == .del) = false := by
      by_contra hc
      rw [Bool.not_eq_false] at hc
      have hch : hasChanges lines = true := any_eq_true.mpr ⟨l, hl, hc⟩
      rw [h] at hch
      cases hch
    cases hk : l.kind <;> simp_all [LineKind.op]
  have hall : ∀ o : Op, o ≠ .keep → (bodyScript lines).filter (fun e => e.1 ≠ o) =
    bodyScript lines := by
    intro o ho
    rw [filter_eq_self]
    intro e he
    simpa [hkeep e he] using ho.symm
  rw [newSide, oldSide, hall .ins (by simp), hall .del (by simp)]

/-- An emitted hunk of a numbered hunk with the same old side is numbered and sits at the same
place. -/
theorem emitHunk_numbered {h : PatchHunk} (hok : HunkOk h) (hn : h.Numbered) (delta : Int)
    {lines : List PatchLine} (hold : oldSide (bodyScript lines) = oldSide (bodyScript h.lines)) :
    (emitHunk h delta lines).Numbered
      ∧ (emitHunk h delta lines).placed = ⟨h.oldPos, bodyScript lines⟩ := by
  have hscript : bodyScript (emitHunk h delta lines).lines = bodyScript lines :=
    bodyScript_reread lines
  obtain ⟨-, hlt, -⟩ := parseHunkHeader_spec hok.header
  have hcount : (emitHunk h delta lines).oldCount = h.oldCount := by
    show countKinds lines .context .del % 2 ^ 32 = h.oldCount
    rw [← length_oldSide_bodyScript, hold, ← hn.1, Nat.mod_eq_of_lt hlt]
  refine ⟨⟨?_, ?_⟩, ?_⟩
  · rw [hcount, hscript, hold]
    exact hn.1
  · rw [hcount]
    exact hn.2
  · rw [PatchHunk.placed, PatchHunk.oldPos, hcount, hscript]
    rfl

/-! ## Staging is exact unless a marker is stranded -/

section

variable {diff : Text} {file : PatchFile} {sel : Selection} {P Q : List FileLine} {text : Text}

/-- The old side of a rewritten hunk, without a stranded marker. -/
theorem oldSide_transformHunkLines {p : PatchHunk × Nat}
    (h : ¬ StrandedMarker (sel.marks p.2 p.1.lines)) :
    oldSide (bodyScript (transformHunkLines p.1 p.2 sel false)) =
      oldSide (bodyScript p.1.lines) := by
  have hstaged := (staged_rewrite h).oldSide_eq
  rw [map_entry_markedScript, marks_fst] at hstaged
  exact hstaged

theorem emitted_eq (hfile : file ∈ parsePatch diff) (ht : transform file sel false = some text) :
    ∃ out, parsePatch text = [out] ∧ out.hunks = emittedHunks sel false 0 file.hunks.zipIdx
      ∧ out.hunks.map (fun h => (h.oldStart, oldSide (bodyScript h.lines)))
        = (file.hunks.zipIdx.filter (touched sel)).map (fun p =>
            (p.1.oldStart, oldSide (bodyScript (transformHunkLines p.1 p.2 sel false)))) := by
  obtain ⟨out, hout, hhunks⟩ := parsePatch_transform hfile ht
  refine ⟨out, hout, hhunks, ?_⟩
  rw [hhunks, ← funext (hasChanges_forward sel)]
  refine map_emittedHunks _ 0 ?_
  intro p _ d
  show (p.1.oldStart, oldSide (bodyScript (rereadBody _))) = _
  rw [bodyScript_reread]

/-- **Without stranded markers staging is exact.** -/
theorem forwardExact_of_not_stranded (hfile : file ∈ parsePatch diff)
    (hP : strictApply file.hunks P = some Q) (ht : transform file sel false = some text)
    (hns : ¬ Stranded file sel) : ForwardExact file sel P text := by
  obtain ⟨out, hout, hhunks, hmap⟩ := emitted_eq hfile ht
  obtain ⟨hnum, hrun⟩ := strictApply_eq_some.mp hP
  have hns' : ∀ p ∈ file.hunks.zipIdx, ¬ StrandedMarker (sel.marks p.2 p.1.lines) :=
    fun p hp hs => hns ⟨p, hp, hs⟩
  have hmem : ∀ p ∈ file.hunks.zipIdx, p.1 ∈ file.hunks :=
    fun p hp => fst_mem_of_mem_zipIdx hp
  have hemit : ∀ p ∈ file.hunks.zipIdx, ∀ d,
      (emitHunk p.1 d (transformHunkLines p.1 p.2 sel false)).Numbered
        ∧ (emitHunk p.1 d (transformHunkLines p.1 p.2 sel false)).placed
          = ⟨p.1.oldPos, bodyScript (transformHunkLines p.1 p.2 sel false)⟩ :=
    fun p hp d => emitHunk_numbered (hunkOk_of_mem_parsePatch hfile p.1 (hmem p hp))
      (hnum p.1 (hmem p hp)) d (oldSide_transformHunkLines (hns' p hp))
  -- all hunks rewritten, whether or not they are emitted
  have hrun' : applyFrom 0 (file.hunks.zipIdx.map (fun p => p.1.placed)) P = some Q := by
    have hz : file.hunks.zipIdx.map (fun p => p.1.placed) = file.hunks.map PatchHunk.placed := by
      show file.hunks.zipIdx.map (PatchHunk.placed ∘ Prod.fst) = _
      rw [← map_map, zipIdx_map_fst]
    rw [hz]
    exact hrun
  obtain ⟨R, hR, hrw⟩ := applyFrom_replace (f := fun p => p.1.placed)
    (g := fun p => ⟨p.1.oldPos, bodyScript (transformHunkLines p.1 p.2 sel false)⟩)
    (R := fun p => StagedNew (markedScript (sel.marks p.2 p.1.lines))) file.hunks.zipIdx 0 P Q
    (fun p hp => ⟨rfl, oldSide_transformHunkLines (hns' p hp),
      (staged_rewrite (hns' p hp)).stagedNew⟩) hrun'
  refine ⟨out, R, hout, ?_, ?_, hrw⟩
  · rw [hmap]
    refine map_congr_left ?_
    intro p hp
    rw [oldSide_transformHunkLines (hns' p (mem_of_mem_filter hp))]
  · refine strictApply_eq_some.mpr ⟨?_, ?_⟩
    · intro h hh
      rw [hhunks] at hh
      obtain ⟨p, hp, d, rfl⟩ := mem_emittedHunks _ 0 h hh
      exact (hemit p hp d).1
    · have hfilter := applyFrom_filter
        (p := fun p => hasChanges (transformHunkLines p.1 p.2 sel false)) file.hunks.zipIdx 0 P R
        (fun p _ hc => newSide_eq_oldSide hc) hR
      rw [hhunks, map_emittedHunks (f := PatchHunk.placed) _ 0 (fun p hp d => (hemit p hp d).2)]
      exact hfilter

/-- **With a stranded marker the staged patch has another old side.** -/
theorem not_forwardExact_of_stranded (hfile : file ∈ parsePatch diff)
    (ht : transform file sel false = some text) (hs : Stranded file sel) :
    ¬ ForwardExact file sel P text := by
  rintro ⟨out, R, hout, hsame, -, -⟩
  obtain ⟨out', hout', -, hmap⟩ := emitted_eq hfile ht
  obtain ⟨p, hp, hst⟩ := hs
  have heq : out = out' := by
    rw [hout] at hout'
    simpa using hout'
  rw [heq, hmap] at hsame
  have htouched : touched sel p = true := by
    obtain ⟨ps0, a, m, post, hps, -, ha, -⟩ := hst
    refine any_eq_true.mpr ⟨a, by rw [hps]; simp, ?_⟩
    rw [ha.1, ha.2]
    rfl
  have hp' := map_inj_left.mp hsame p (mem_filter.mpr ⟨hp, htouched⟩)
  have hold := (Prod.mk.injEq _ _ _ _ ▸ hp').2
  refine oldSide_ne_of_stranded hst ?_
  rw [marks_fst]
  exact hold

/-- **Staging a selection is exact if and only if no marker is stranded.** -/
theorem forwardExact_iff (hfile : file ∈ parsePatch diff) (hP : strictApply file.hunks P = some Q)
    (ht : transform file sel false = some text) :
    ForwardExact file sel P text ↔ ¬ Stranded file sel := by
  constructor
  · intro hex hs
    exact not_forwardExact_of_stranded hfile ht hs hex
  · intro hns
    exact forwardExact_of_not_stranded hfile hP ht hns

end

/-! ## One replaced line whose newline goes away -/

/-- The last line is replaced, and the new one has no newline. -/
def eofDiff : Text :=
  "diff --git a/f b/f\n--- a/f\n+++ b/f\n@@ -1 +1 @@\n-old\n+new\n".toList
    ++ "\\ No newline at end of file\n".toList

def eofFile : PatchFile :=
  { header := ["diff --git a/f b/f".toList, "--- a/f".toList, "+++ b/f".toList]
    oldPath := ['f']
    newPath := ['f']
    kind := .modified
    hunks :=
      [{ oldStart := 1, oldCount := 1, newStart := 1, newCount := 1, heading := []
         headerLine := "@@ -1 +1 @@".toList
         lines := [⟨.del, "old".toList⟩, ⟨.add, "new".toList⟩,
           ⟨.noNewlineNew, " No newline at end of file".toList⟩] }] }

/-- Selecting only the `+` line strands the marker: the patch says that `old` has no newline. -/
theorem eofFile_not_forwardExact :
    parsePatch eofDiff = [eofFile]
      ∧ strictApply eofFile.hunks [⟨"old".toList, false⟩] = some [⟨"new".toList, true⟩]
      ∧ transform eofFile ⟨{(0, 1)}⟩ false = some ("diff --git a/f b/f\n--- a/f\n+++ b/f\n".toList
          ++ "@@ -1,1 +1,2 @@\n+new\n old\n\\ No newline at end of file\n".toList)
      ∧ ¬ ForwardExact eofFile ⟨{(0, 1)}⟩ [⟨"old".toList, false⟩]
          ("diff --git a/f b/f\n--- a/f\n+++ b/f\n".toList
            ++ "@@ -1,1 +1,2 @@\n+new\n old\n\\ No newline at end of file\n".toList) := by
  have hparse : parsePatch eofDiff = [eofFile] := by decide +kernel
  have ht : transform eofFile ⟨{(0, 1)}⟩ false
      = some ("diff --git a/f b/f\n--- a/f\n+++ b/f\n".toList
        ++ "@@ -1,1 +1,2 @@\n+new\n old\n\\ No newline at end of file\n".toList) := by
    decide +kernel
  refine ⟨hparse, by decide +kernel, ht, ?_⟩
  apply not_forwardExact_of_stranded (by rw [hparse]; exact mem_singleton_self _) ht
  refine ⟨_, mem_singleton_self _, [(⟨.del, "old".toList⟩, false)], _, _, [], rfl, ?_, ?_, ?_⟩
  · exact ⟨[], _, [], rfl, ⟨rfl, rfl⟩, by simp, by simp [sinceContext]⟩
  · exact ⟨rfl, by decide +kernel⟩
  · rfl

/-- Selecting both lines stages the whole change. -/
theorem eofFile_forwardExact :
    ForwardExact eofFile ⟨{(0, 0), (0, 1)}⟩ [⟨"old".toList, false⟩]
      ("diff --git a/f b/f\n--- a/f\n+++ b/f\n".toList
        ++ "@@ -1,1 +1,1 @@\n-old\n+new\n\\ No newline at end of file\n".toList) := by
  have hfile : eofFile ∈ parsePatch eofDiff := by decide +kernel
  have happly : strictApply eofFile.hunks [⟨"old".toList, false⟩] =
    some [⟨"new".toList, true⟩] := by
    decide +kernel
  refine (forwardExact_iff hfile happly (by decide +kernel)).mpr ?_
  -- a held line would be an unselected `-` line
  have hall : ∀ p ∈ eofFile.hunks.zipIdx, ∀ q ∈ Selection.marks ⟨{(0, 0), (0, 1)}⟩ p.2 p.1.lines,
      ¬ (q.1.kind = .del ∧ q.2 = false) := by
    decide +kernel
  rintro ⟨p, hp, ps0, a, m, post, hps, ⟨pre, d, mid, rfl, hd, -⟩, -⟩
  exact hall p hp d (by rw [hps]; simp) hd

end Thegn.Patch
