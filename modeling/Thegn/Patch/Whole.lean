import Thegn.Patch.Reverse

set_option autoImplicit false

/-! # Selecting everything

With every line selected no hunk is rewritten (`transformHunkLines_whole`), so for hunks with git's
numbering the loop writes every hunk as it was (`foldl_whole`). The header is the file's own unless
the patch of a deleted or added file is downgraded, which takes context lines such a file does not
have. So the partial patch of the whole file is its rendering (`transform_wholeFile`).
-/

namespace Thegn.Patch

open Text List

/-- Every line of every hunk. -/
def Selection.wholeFile (file : PatchFile) : Selection where
  set := (file.hunks.zipIdx.flatMap fun p => (List.range p.1.lines.length).map fun li =>
    (p.2, li)).toFinset

theorem contains_wholeFile {file : PatchFile} {p : PatchHunk × Nat} (hp : p ∈ file.hunks.zipIdx)
    {li : Nat}
    (hli : li < p.1.lines.length) : (Selection.wholeFile file).contains p.2 li = true := by
  rw [Selection.contains, decide_eq_true_iff, Selection.wholeFile, mem_toFinset, mem_flatMap]
  exact ⟨p, hp, mem_map.mpr ⟨li, mem_range.mpr hli, rfl⟩⟩

/-! ## Hunks -/

/-- Selected lines are written as they are. -/
theorem foldl_rewriteStep_selected (reverse : Bool) {ps : List (PatchLine × Bool)}
    (h : ∀ p ∈ ps, p.2 = true) (out : List PatchLine) :
    ps.foldl (rewriteStep reverse)
        { out := out, pending := [], sawDroppedNewSide := false, prevDropped := false } =
      { out := out ++ ps.map Prod.fst, pending := [], sawDroppedNewSide := false,
        prevDropped := false } := by
  induction ps generalizing out with
  | nil => rw [map_nil, append_nil]; rfl
  | cons p ps ih =>
    have hp := h p (.head _)
    obtain ⟨⟨kind, text⟩, selected⟩ := p
    dsimp only at hp
    subst hp
    have hstep : rewriteStep reverse
        { out := out, pending := [], sawDroppedNewSide := false, prevDropped := false }
        (⟨kind, text⟩, true) =
        { out := out ++ [⟨kind, text⟩], pending := [], sawDroppedNewSide := false,
          prevDropped := false } := by
      cases kind <;> cases reverse <;> simp [rewriteStep]
    rw [foldl_cons, hstep, ih fun q hq => h q (mem_cons_of_mem _ hq), map_cons,
      append_assoc, singleton_append]

/-- **A hunk of which every line is selected is not rewritten.** -/
theorem transformHunkLines_whole {file : PatchFile} {p : PatchHunk × Nat}
    (hp : p ∈ file.hunks.zipIdx)
    (reverse : Bool) : transformHunkLines p.1 p.2 (.wholeFile file) reverse = p.1.lines := by
  have hall : ∀ q ∈ (Selection.wholeFile file).marks p.2 p.1.lines, q.2 = true := by
    intro q hq
    obtain ⟨r, hr, rfl⟩ := mem_map.mp hq
    obtain ⟨_, hlt, _⟩ := mem_zipIdx hr
    exact contains_wholeFile hp (by omega)
  rw [transformHunkLines, RewriteState.init, foldl_rewriteStep_selected reverse hall]
  simp only [nil_append, append_nil, marks_fst]

/-- A hunk with a change and explicit counts in its header, as git writes it. -/
structure Explicit (h : PatchHunk) : Prop where
  changes : hasChanges h.lines = true
  headerLine : h.headerLine = formatHunkHeader h.oldStart h.oldCount h.newStart h.newCount h.heading
  -- the fields are 32 bits wide
  oldCount : h.oldCount < 2 ^ 32
  newStart : h.newStart < 2 ^ 32
  newCount : h.newCount < 2 ^ 32

def hasContext (h : PatchHunk) : Bool := h.lines.any fun l => l.kind == .context

theorem renderHunk_explicit {h : PatchHunk} (he : Explicit h) :
    renderHunk h =
      formatHunkHeader h.oldStart h.oldCount h.newStart h.newCount h.heading ++ ['\n'] ++
        pushBody h.lines := by
  have hne : h.headerLine ≠ [] := by
    rw [he.headerLine, formatHunkHeader, atAt_eq]
    exact cons_ne_nil _ _
  rw [renderHunk, if_neg hne, he.headerLine]

/-- One hunk of the loop, at the growth that git's numbering starts from. -/
theorem transformHunk_whole {sel : Selection} {reverse : Bool} {st : TransformState}
    {p : PatchHunk × Nat}
    {hs : List PatchHunk} (hlines : transformHunkLines p.1 p.2 sel reverse = p.1.lines)
    (he : Explicit p.1) (hcons : Consistent st.delta (p.1 :: hs)) :
    transformHunk sel reverse st p =
      { body := st.body ++ renderHunk p.1
        emitted := true
        delta := st.delta + ((p.1.newCount : Int) - p.1.oldCount)
        emittedContext := st.emittedContext || hasContext p.1 } := by
  obtain ⟨hold, hnew, hstart, -⟩ := hcons
  obtain ⟨h, hi⟩ := p
  have hemitted : emittedNewStart h.oldStart st.delta h.oldCount h.newCount = h.newStart := by
    rw [emittedNewStart, ← hstart, max_eq_left (Int.natCast_nonneg _), Int.toNat_natCast,
      Nat.mod_eq_of_lt he.newStart]
  rw [transformHunk]
  dsimp only at hlines hold hnew hemitted ⊢
  rw [hlines, if_pos he.changes, ← hold, ← hnew, hemitted, Nat.mod_eq_of_lt he.oldCount,
    Nat.mod_eq_of_lt he.newCount, renderHunk_explicit he]
  simp only [append_assoc, hasContext]

/-- **The loop over the hunks writes every one of them.** -/
theorem foldl_whole {sel : Selection} {reverse : Bool} {ps : List (PatchHunk × Nat)} :
    ∀ {st : TransformState}, (∀ p ∈ ps, transformHunkLines p.1 p.2 sel reverse = p.1.lines) →
      (∀ p ∈ ps, Explicit p.1) → Consistent st.delta (ps.map Prod.fst) →
      (ps.foldl (transformHunk sel reverse) st).body = st.body ++
        (ps.map Prod.fst).flatMap renderHunk ∧
        (ps.foldl (transformHunk sel reverse) st).emitted = (st.emitted || !ps.isEmpty) ∧
        (ps.foldl (transformHunk sel reverse) st).emittedContext =
          (st.emittedContext || (ps.map Prod.fst).any hasContext) := by
  induction ps with
  | nil => intro st _ _ _; simp
  | cons p ps ih =>
    intro st hlines he hcons
    rw [map_cons] at hcons
    have hstep := transformHunk_whole (hlines p (.head _)) (he p (.head _)) hcons
    have hrest : Consistent (transformHunk sel reverse st p).delta (ps.map Prod.fst) := by
      rw [hstep]
      exact hcons.2.2.2
    obtain ⟨hbody, hemitted, hcontext⟩ := ih (fun q hq => hlines q (.tail _ hq))
      (fun q hq => he q (.tail _ hq)) hrest
    rw [foldl_cons, hbody, hemitted, hcontext, hstep]
    simp only [map_cons, List.flatMap_cons, append_assoc, isEmpty_cons, any_cons,
      Bool.or_assoc, Bool.true_or, Bool.not_false, Bool.or_true, and_self]

/-! ## The whole file -/

/-- A text file whose hunks have changes, explicit counts and git's numbering. -/
structure GitNumbered (file : PatchFile) : Prop where
  kind : file.kind = .modified ∨ file.kind = .added ∨ file.kind = .deleted
  explicit : ∀ h ∈ file.hunks, Explicit h
  consistent : Consistent 0 file.hunks

/-- The patch is of a whole-file change, in the direction that undoes the file, has context lines,
and its header can be downgraded to a modification. -/
def Downgraded (file : PatchFile) (reverse : Bool) : Prop :=
  ((reverse = false ∧ file.kind = .deleted) ∨ (reverse = true ∧ file.kind = .added)) ∧
    file.hunks.any hasContext = true ∧ (rewritePartialWholeFileHeader file.header).isSome = true

instance (file : PatchFile) (reverse : Bool) : Decidable (Downgraded file reverse) :=
  inferInstanceAs (Decidable (_ ∧ _))

/-- **Selecting everything is the identity** on a file with a hunk, unless its header is
downgraded. -/
theorem transform_wholeFile {file : PatchFile} (hfile : GitNumbered file) (hne : file.hunks ≠ [])
    {reverse : Bool} (hheader : ¬ Downgraded file reverse) :
    transform file (.wholeFile file) reverse = some (renderPatch [file]) := by
  have hmap : file.hunks.zipIdx.map Prod.fst = file.hunks := zipIdx_map_fst 0 file.hunks
  have hexplicit : ∀ p ∈ file.hunks.zipIdx, Explicit p.1 := by
    intro p hp
    exact hfile.explicit p.1 (fst_mem_of_mem_zipIdx hp)
  obtain ⟨hbody, hemitted, hcontext⟩ := @foldl_whole (.wholeFile file) reverse file.hunks.zipIdx
    { body := [], emitted := false, delta := 0, emittedContext := false }
    (fun p hp => transformHunkLines_whole hp reverse) hexplicit
      (by rw [hmap]; exact hfile.consistent)
  have hkind : ¬ (file.kind = .binary ∨ file.kind = .submodule) := by
    rcases hfile.kind with h | h | h
    · rw [h]; decide
    · rw [h]; decide
    · rw [h]; decide
  have hsome : (!file.hunks.zipIdx.isEmpty) = true := by simpa using hne
  rw [hmap] at hbody hcontext
  rw [transform, if_neg hkind]
  dsimp only
  rw [hemitted, hsome, Bool.or_true, if_pos rfl, hbody, hcontext, Bool.false_or, nil_append]
  have hsame : ((if (file.hunks.any hasContext && (!reverse && file.kind == .deleted ||
      reverse && file.kind == .added)) = true then rewritePartialWholeFileHeader file.header
      else none).getD (unlines file.header)) = unlines file.header := by
    split_ifs with hdown
    · rw [Bool.and_eq_true, Bool.or_eq_true, Bool.and_eq_true, Bool.and_eq_true, beq_iff_eq,
        beq_iff_eq, Bool.not_eq_true'] at hdown
      have hnone : rewritePartialWholeFileHeader file.header = none := by
        rw [← Option.not_isSome_iff_eq_none]
        exact fun hc => hheader ⟨hdown.2, hdown.1, hc⟩
      rw [hnone]
      rfl
    · rfl
  rw [hsame, renderPatch]
  simp only [List.flatMap_cons, flatMap_nil, append_nil]

/-- A line is inserted before the first one, and another one deleted. -/
def changedFile : PatchFile where
  header := ["diff --git a/f b/f".toList, "--- a/f".toList, "+++ b/f".toList]
  oldPath := ['f']
  newPath := ['f']
  kind := .modified
  hunks :=
    [{ oldStart := 0, oldCount := 0, newStart := 1, newCount := 1, heading := []
       headerLine := "@@ -0,0 +1,1 @@".toList, lines := [⟨.add, ['a']⟩] },
     { oldStart := 3, oldCount := 1, newStart := 3, newCount := 0, heading := []
       headerLine := "@@ -3,1 +3,0 @@".toList, lines := [⟨.del, ['b']⟩] }]

theorem changedFile_numbered : GitNumbered changedFile where
  kind := .inl rfl
  explicit := by
    intro h hh
    rcases mem_cons.mp hh with rfl | hh
    · exact ⟨rfl, by decide +kernel, by decide, by decide, by decide⟩
    · rw [mem_singleton.mp hh]
      exact ⟨rfl, by decide +kernel, by decide, by decide, by decide⟩
  consistent := ⟨rfl, rfl, rfl, rfl, rfl, rfl, trivial⟩

theorem changedFile_whole :
    transform changedFile (.wholeFile changedFile) false = some (renderPatch [changedFile]) ∧
      transform changedFile (.wholeFile changedFile) true = some (renderPatch [changedFile]) :=
  ⟨transform_wholeFile changedFile_numbered (cons_ne_nil _ _) (by decide),
    transform_wholeFile changedFile_numbered (cons_ne_nil _ _) (by decide)⟩

/-- An empty file that is added, and a deleted file with a context line. -/
def emptyAdded : PatchFile where
  header := ["diff --git a/e b/e".toList, "new file mode 100644".toList]
  oldPath := ['e']
  newPath := ['e']
  kind := .added
  hunks := []

def contextDeleted : PatchFile where
  header := ["--- a/f".toList, "+++ /dev/null".toList]
  oldPath := ['f']
  newPath := ['f']
  kind := .deleted
  hunks :=
    [{ oldStart := 1, oldCount := 2, newStart := 1, newCount := 1, heading := []
       headerLine := "@@ -1,2 +1,1 @@".toList, lines := [⟨.context, ['a']⟩, ⟨.del, ['b']⟩] }]

/-- Neither is its own partial patch: the first has no hunk to emit, the header of the second is
downgraded. -/
theorem whole_not_identity :
    GitNumbered emptyAdded ∧ transform emptyAdded (.wholeFile emptyAdded) false = none ∧
      GitNumbered contextDeleted ∧
      transform contextDeleted (.wholeFile contextDeleted) false ≠
        some (renderPatch [contextDeleted]) := by
  refine ⟨⟨.inr (.inl rfl), nofun, trivial⟩, by decide,
    ⟨.inr (.inr rfl), ?_, rfl, rfl, rfl, trivial⟩, ?_⟩
  · intro h hh
    rw [mem_singleton.mp hh]
    exact ⟨rfl, by decide +kernel, by decide, by decide, by decide⟩
  · decide +kernel

end Thegn.Patch
