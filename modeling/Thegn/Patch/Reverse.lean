import Thegn.Patch.Stage

set_option autoImplicit false

/-! # Unstaging a selection

In reverse, `transform` is meant for `git apply --reverse`: its new side is looked for in the
post-image. The new side of an emitted hunk is the original one, but its recorded new start is
the old start shifted by the *emitted* changes of the earlier hunks, so it differs from the
original new start by the net effect of their unselected changes (`transform_reverse`).
-/

namespace Thegn.Patch

open Text EditScript List

/-! ## Counting changes -/

/-- Lines added, less lines removed, by one body line. -/
def LineKind.net : LineKind → Int
  | .add => 1
  | .del => -1
  | _ => 0

/-- Added less removed lines of a body. -/
def net (ls : List PatchLine) : Int := (ls.map (fun l => l.kind.net)).sum

@[simp] theorem net_nil : net [] = 0 := rfl

@[simp] theorem net_cons (l : PatchLine) (ls : List PatchLine) :
    net (l :: ls) = l.kind.net + net ls := by
  simp [net]

theorem countKinds_sub (ls : List PatchLine) :
    (countKinds ls .context .add : Int) - countKinds ls .context .del = net ls := by
  induction ls with
  | nil => rfl
  | cons l ls ih =>
    rw [net_cons, ← ih]
    obtain ⟨kind, text⟩ := l
    cases kind <;> simp [countKinds, LineKind.net] <;> omega

theorem net_filter_isChange (ls : List PatchLine) :
    net (ls.filter (fun l => l.kind.isChange)) = net ls := by
  induction ls with
  | nil => rfl
  | cons l ls ih =>
    rw [net_cons, ← ih]
    obtain ⟨kind, text⟩ := l
    cases kind <;> simp [filter_cons, LineKind.net]

/-- The changes of a hunk, split by selection. -/
theorem net_marks (ps : List (PatchLine × Bool)) :
    net ((ps.filter (fun p => p.2 && p.1.kind.isChange)).map Prod.fst)
      + net ((ps.filter (fun p => !p.2)).map Prod.fst) = net (ps.map Prod.fst) := by
  induction ps with
  | nil => rfl
  | cons p ps ih =>
    obtain ⟨⟨kind, text⟩, sel⟩ := p
    rw [map_cons, net_cons, ← ih]
    cases sel with
    | true => cases kind <;> simp [LineKind.net] <;> omega
    | false => cases kind <;> simp [LineKind.net] <;> omega

/-- The changes written in reverse are the selected ones, in order. -/
theorem filter_isChange_reverse (h : PatchHunk) (hi : Nat) (sel : Selection) :
    (transformHunkLines h hi sel true).filter (fun l => l.kind.isChange)
      = ((sel.marks hi h.lines).filter (fun p => p.2 && p.1.kind.isChange)).map Prod.fst := by
  have hflip : ∀ l : PatchLine, l.flip.kind.isChange = l.kind.isChange := by
    intro l
    obtain ⟨kind, text⟩ := l
    cases kind <;> rfl
  rw [transformHunkLines_reverse, filter_map]
  have hcomp : ((fun l : PatchLine => l.kind.isChange) ∘ PatchLine.flip)
      = fun l => l.kind.isChange := funext hflip
  rw [hcomp, filter_isChange_rewrite, flipMarks, filter_map, map_map, map_map]
  have hcomp' : ((fun p : PatchLine × Bool => p.2 && p.1.kind.isChange)
      ∘ fun p : PatchLine × Bool => (p.1.flip, p.2)) = fun p => p.2 && p.1.kind.isChange := by
    funext p
    simp [hflip]
  rw [hcomp']
  refine map_congr_left ?_
  intro p _
  simp

/-- The net change of the unselected lines of a hunk. -/
def unselectedNet (sel : Selection) (p : PatchHunk × Nat) : Int :=
  net (((sel.marks p.2 p.1.lines).filter (fun q => !q.2)).map Prod.fst)

theorem hunkDelta_reverse (sel : Selection) (p : PatchHunk × Nat) :
    hunkDelta sel true p = net p.1.lines - unselectedNet sel p := by
  have hsplit := net_marks (sel.marks p.2 p.1.lines)
  rw [marks_fst] at hsplit
  rw [hunkDelta, countKinds_sub, ← net_filter_isChange, filter_isChange_reverse, unselectedNet]
  omega

theorem growth_placed (h : PatchHunk) : growth h.placed = net h.lines := by
  rw [growth, PatchHunk.placed, length_newSide_bodyScript, length_oldSide_bodyScript,
    countKinds_sub]

/-- In reverse, too, a hunk is emitted when a change of it is selected. -/
theorem hasChanges_reverse (sel : Selection) (p : PatchHunk × Nat) :
    hasChanges (transformHunkLines p.1 p.2 sel true) = touched sel p := by
  rw [Bool.eq_iff_iff, hasChanges_iff, filter_isChange_reverse, touched, any_eq_true]
  rw [Ne, map_eq_nil_iff, filter_eq_nil_iff]
  push Not
  rfl

/-! ## The emitted hunks, one by one -/

theorem emittedHunks_append (sel : Selection) (reverse : Bool) (ps qs : List (PatchHunk × Nat)) :
    ∀ delta : Int, emittedHunks sel reverse delta (ps ++ qs) = emittedHunks sel reverse delta ps
      ++ emittedHunks sel reverse (delta + (ps.map (hunkDelta sel reverse)).sum) qs := by
  induction ps with
  | nil => intro delta; simp [emittedHunks]
  | cons p ps ih =>
    intro delta
    have hsum : delta + hunkDelta sel reverse p + (ps.map (hunkDelta sel reverse)).sum
        = delta + ((p :: ps).map (hunkDelta sel reverse)).sum := by
      rw [map_cons, sum_cons, add_assoc]
    rw [cons_append, emittedHunks, emittedHunks, ih, hsum]
    split <;> rfl

theorem flipMarks_fst (sel : Selection) (hi : Nat) (lines : List PatchLine) :
    (flipMarks (sel.marks hi lines)).map Prod.fst = lines.map PatchLine.flip := by
  conv_rhs => rw [← marks_fst sel hi lines, map_map]
  rw [flipMarks, map_map]
  rfl

/-- The new side of a hunk rewritten in reverse, without a stranded marker. -/
theorem newSide_transformHunkLines {sel : Selection} {p : PatchHunk × Nat}
    (h : ¬ StrandedMarker (flipMarks (sel.marks p.2 p.1.lines))) :
    newSide (bodyScript (transformHunkLines p.1 p.2 sel true)) =
      newSide (bodyScript p.1.lines) := by
  have hstaged := (staged_rewrite h).oldSide_eq
  rw [map_entry_markedScript, flipMarks_fst, bodyScript_flip, oldSide_flip] at hstaged
  rw [transformHunkLines_reverse, bodyScript_flip, newSide_flip]
  exact hstaged

/-- Rewriting in reverse keeps the number of new lines, stranded markers or not. -/
theorem countKinds_reverse (sel : Selection) (p : PatchHunk × Nat) :
    countKinds (transformHunkLines p.1 p.2 sel true) .context .add
      = countKinds p.1.lines .context .add := by
  have hcount := countKinds_rewrite (flipMarks (sel.marks p.2 p.1.lines))
  rw [flipMarks_fst, countKinds_flip] at hcount
  rw [← countKinds_flip, transformHunkLines_reverse, map_map, flip_comp_flip, map_id, hcount]

/-! ## Numbering -/

/-- Git's numbering of hunks, `shift` being the growth of the hunks before: counts are those of
the bodies, and each new start is the old start plus the growth so far, where a side without
lines is numbered by the line before it. -/
def Consistent : Int → List PatchHunk → Prop
  | _, [] => True
  | shift, h :: hs =>
    h.oldCount = countKinds h.lines .context .del ∧ h.newCount = countKinds h.lines .context .add
      ∧ (h.newStart : Int) = h.oldStart + shift + zeroAdjust h.oldCount h.newCount
      ∧ Consistent (shift + ((h.newCount : Int) - h.oldCount)) hs

theorem Consistent.split {h : PatchHunk} {post : List PatchHunk} (pre : List PatchHunk) :
    ∀ shift : Int, Consistent shift (pre ++ h :: post) →
      h.oldCount = countKinds h.lines .context .del ∧ h.newCount = countKinds h.lines .context .add
        ∧ (h.newStart : Int) = h.oldStart + (shift + (pre.map (fun g => net g.lines)).sum)
            + zeroAdjust h.oldCount h.newCount := by
  induction pre with
  | nil =>
    rintro shift ⟨ho, hn, hs, -⟩
    refine ⟨ho, hn, ?_⟩
    rw [hs, map_nil, sum_nil, add_zero]
  | cons g pre ih =>
    rintro shift ⟨ho, hn, -, hrest⟩
    obtain ⟨ho', hn', hs'⟩ := ih _ hrest
    refine ⟨ho', hn', ?_⟩
    have hnet := countKinds_sub g.lines
    rw [hs', map_cons, sum_cons, ← hnet, ho, hn]
    omega

/-- The number of file lines before the new side of a hunk. -/
def PatchHunk.newPos (h : PatchHunk) : Nat := if h.newCount = 0 then h.newStart else h.newStart - 1

/-- The position of the old side, in the integers: `oldStart - 1` does not truncate. -/
theorem PatchHunk.Numbered.natCast_oldPos {h : PatchHunk} (hn : h.Numbered) :
    (h.oldCount = 0 → (h.oldPos : Int) = h.oldStart)
      ∧ (h.oldCount ≠ 0 → (h.oldPos : Int) = h.oldStart - 1) := by
  unfold PatchHunk.oldPos
  constructor
  · intro h0
    rw [if_pos h0]
  · intro h0
    have := hn.2 h0
    rw [if_neg h0]
    omega

/-- A hunk with a selected change has a line on one of its sides. -/
theorem touched_counts {sel : Selection} {p : PatchHunk × Nat} (h : touched sel p = true) :
    countKinds p.1.lines .context .del ≠ 0 ∨ countKinds p.1.lines .context .add ≠ 0 := by
  obtain ⟨q, hq, hc⟩ := any_eq_true.mp h
  have hmem : q.1 ∈ p.1.lines := by
    rw [← marks_fst sel p.2 p.1.lines]
    exact mem_map_of_mem hq
  have hpos : ∀ k : LineKind, q.1.kind = k → countKinds p.1.lines .context k ≠ 0 := by
    intro k hk
    rw [countKinds, Ne, countP_eq_zero]
    push Not
    exact ⟨q.1, hmem, by simp [hk]⟩
  cases hk : q.1.kind with
  | add => exact Or.inr (hpos _ hk)
  | del => exact Or.inl (hpos _ hk)
  | context => rw [hk] at hc; simp at hc
  | noNewlineOld => rw [hk] at hc; simp at hc
  | noNewlineNew => rw [hk] at hc; simp at hc

/-- A hunk cannot shift what follows it up by more than its old side. -/
theorem neg_le_hunkDelta (sel : Selection) (p : PatchHunk × Nat) :
    -((oldSide (bodyScript p.1.lines)).length : Int) ≤ hunkDelta sel true p := by
  set ms := ((sel.marks p.2 p.1.lines).filter (fun q => q.2 && q.1.kind.isChange)).map Prod.fst
    with hms
  have hsub : ms.Sublist p.1.lines := by
    have h := (filter_sublist (l := sel.marks p.2 p.1.lines)
      (p := fun q => q.2 && q.1.kind.isChange)).map Prod.fst
    rwa [marks_fst] at h
  have hle : countKinds ms .context .del ≤ countKinds p.1.lines .context .del :=
    List.Sublist.countP_le hsub
  have hdelta : hunkDelta sel true p = net ms := by
    rw [hunkDelta, countKinds_sub, ← net_filter_isChange, filter_isChange_reverse]
  have hnet := countKinds_sub ms
  rw [hdelta, length_oldSide_bodyScript]
  omega

theorem sum_hunkDelta (sel : Selection) (ps : List (PatchHunk × Nat)) :
    (ps.map (hunkDelta sel true)).sum
      = (ps.map (fun p => net p.1.lines)).sum - (ps.map (unselectedNet sel)).sum := by
  induction ps with
  | nil => rfl
  | cons p ps ih =>
    simp only [map_cons, sum_cons, ih, hunkDelta_reverse]
    omega

theorem neg_le_sum_hunkDelta (sel : Selection) (ps : List (PatchHunk × Nat)) :
    -((ps.map (fun p => (oldSide (bodyScript p.1.lines)).length)).sum : Int)
      ≤ (ps.map (hunkDelta sel true)).sum := by
  induction ps with
  | nil => exact Int.le_refl 0
  | cons p ps ih =>
    have hp := neg_le_hunkDelta sel p
    simp only [map_cons, sum_cons, Nat.cast_add] at ih ⊢
    omega

/-! ## The reverse patch -/

/-- What `h`, the emitted form of the hunk `p` with the hunks `pre` before it, is. Its new side
is the original one, which is found in `Q` at the original position; its new start differs from
the original one by the net change of the unselected lines of the earlier hunks. -/
structure UnstagedHunk (sel : Selection) (Q : List FileLine) (pre : List (PatchHunk × Nat))
    (p : PatchHunk × Nat) (h : PatchHunk) : Prop where
  oldStart : h.oldStart = p.1.oldStart
  newSide : ¬ StrandedMarker (flipMarks (sel.marks p.2 p.1.lines)) →
    EditScript.newSide (bodyScript h.lines) = EditScript.newSide (bodyScript p.1.lines)
  found : ∃ a b, Q = a ++ EditScript.newSide (bodyScript p.1.lines) ++ b ∧ a.length = p.1.newPos
  newStart : (h.newStart : Int) = (p.1.newStart - (pre.map (unselectedNet sel)).sum
    + (zeroAdjust (oldSide (bodyScript h.lines)).length p.1.newCount
      - zeroAdjust p.1.oldCount p.1.newCount)) % 2 ^ 32

section

variable {diff : Text} {file : PatchFile} {sel : Selection} {P Q : List FileLine} {text : Text}

theorem unstagedHunk_emitHunk {hs : List PatchHunk} {pre post : List (PatchHunk × Nat)}
    {p : PatchHunk × Nat} (hcons : Consistent 0 hs) (hP : strictApply hs P = some Q)
    (hsplit : hs.zipIdx = pre ++ p :: post) (htouched : touched sel p = true) :
    UnstagedHunk sel Q pre p (emitHunk p.1 (0 + (pre.map (hunkDelta sel true)).sum)
      (transformHunkLines p.1 p.2 sel true)) := by
  have hhs : hs = pre.map Prod.fst ++ p.1 :: post.map Prod.fst := by
    conv_lhs => rw [← zipIdx_map_fst 0 hs, hsplit]
    simp
  obtain ⟨hnum, hrun⟩ := strictApply_eq_some.mp hP
  have hnp : p.1.Numbered := hnum p.1 (by rw [hhs]; simp)
  rw [hhs] at hcons hrun
  obtain ⟨ho, hn, hstart⟩ := Consistent.split _ 0 hcons
  rw [map_append, map_cons] at hrun
  obtain ⟨a, b, hQ, hlen, hfit⟩ := applyFrom_split _ 0 P Q hrun
  have hgrow : (((pre.map Prod.fst).map PatchHunk.placed).map growth).sum
      = (pre.map (fun q => net q.1.lines)).sum := by
    simp only [map_map]
    congr 1
    exact map_congr_left (fun q _ => growth_placed q.1)
  have hnets : ((pre.map Prod.fst).map (fun g => net g.lines)).sum
      = (pre.map (fun q => net q.1.lines)).sum := by
    rw [map_map]
    rfl
  have hfit' : (pre.map (fun q => (oldSide (bodyScript q.1.lines)).length)).sum ≤ p.1.oldPos := by
    simp only [map_map, Nat.zero_add] at hfit
    exact hfit
  have hpos : p.1.placed.pos = p.1.oldPos := rfl
  rw [hgrow, hpos] at hlen
  rw [hnets] at hstart
  have hD := sum_hunkDelta sel pre
  have hDle := neg_le_sum_hunkDelta sel pre
  have hone := touched_counts htouched
  rw [← ho, ← hn] at hone
  have hnz := hnp.2
  have holdPos := hnp.natCast_oldPos
  refine ⟨rfl, ?_, ⟨a, b, hQ, ?_⟩, ?_⟩
  · intro hns
    show EditScript.newSide (bodyScript (rereadBody _)) = _
    rw [bodyScript_reread, newSide_transformHunkLines hns]
  · -- the original new start is the number of lines before the new side
    unfold PatchHunk.newPos
    unfold zeroAdjust at hstart
    split_ifs at hstart ⊢ <;> omega
  · -- the running delta is the growth so far, less that of the unselected changes
    set oc := countKinds (transformHunkLines p.1 p.2 sel true) .context .del with hoc
    have holen : (oldSide (bodyScript (rereadBody (transformHunkLines p.1 p.2 sel true)))).length
        = oc := by
      rw [bodyScript_reread, length_oldSide_bodyScript]
    have hnc : countKinds (transformHunkLines p.1 p.2 sel true) .context .add = p.1.newCount := by
      rw [countKinds_reverse, hn]
    show ((emittedNewStart p.1.oldStart (0 + (pre.map (hunkDelta sel true)).sum) oc
      (countKinds (transformHunkLines p.1 p.2 sel true) .context .add) : Nat) : Int)
        = (_ + (zeroAdjust (oldSide (bodyScript (rereadBody _))).length _ - _)) % 2 ^ 32
    rw [hnc, holen]
    have hnonneg : 0 ≤ (p.1.oldStart : Int) + (0 + (pre.map (hunkDelta sel true)).sum)
        + zeroAdjust oc p.1.newCount := by
      unfold zeroAdjust
      split_ifs <;> omega
    have heq : (p.1.oldStart : Int) + (0 + (pre.map (hunkDelta sel true)).sum)
          + zeroAdjust oc p.1.newCount
        = p.1.newStart - (pre.map (unselectedNet sel)).sum
          + (zeroAdjust oc p.1.newCount - zeroAdjust p.1.oldCount p.1.newCount) := by
      omega
    rw [emittedNewStart, max_eq_left hnonneg, Int.natCast_mod, Int.toNat_of_nonneg hnonneg, heq]
    rfl

/-- **The hunks of a reverse patch.** One hunk is emitted for each hunk with a selected change, in
order. -/
theorem transform_reverse (hfile : file ∈ parsePatch diff) (hcons : Consistent 0 file.hunks)
    (hP : strictApply file.hunks P = some Q) (ht : transform file sel true = some text) :
    ∃ out, parsePatch text = [out]
      ∧ out.hunks.length = (file.hunks.zipIdx.filter (touched sel)).length
      ∧ ∀ pre p post, file.hunks.zipIdx = pre ++ p :: post → touched sel p = true →
          ∃ h, out.hunks[(pre.filter (touched sel)).length]? = some h
            ∧ UnstagedHunk sel Q pre p h := by
  have hlen : ∀ (ps : List (PatchHunk × Nat)) (delta : Int),
      (emittedHunks sel true delta ps).length = (ps.filter (touched sel)).length := by
    intro ps delta
    have h := @map_emittedHunks Unit sel true (fun _ => ()) (fun _ => ()) ps delta
      (fun _ _ _ => rfl)
    have h' := congrArg List.length h
    rw [length_map, length_map] at h'
    rw [h', ← funext (hasChanges_reverse sel)]
  obtain ⟨out, hout, hhunks⟩ := parsePatch_transform hfile ht
  refine ⟨out, hout, by rw [hhunks, hlen], ?_⟩
  intro pre p post hsplit htouched
  refine ⟨_, ?_, unstagedHunk_emitHunk hcons hP hsplit htouched⟩
  have hc : hasChanges (transformHunkLines p.1 p.2 sel true) = true := by
    rw [hasChanges_reverse]
    exact htouched
  rw [hhunks, hsplit, emittedHunks_append, emittedHunks, if_pos hc, ← hlen pre 0,
    List.getElem?_append_right le_rfl, Nat.sub_self]
  rfl

end

/-! ## Two hunks, the first one not selected -/

/-- Two hunks that insert a line each. -/
def twoHunkDiff : Text :=
  "diff --git a/f b/f\n--- a/f\n+++ b/f\n@@ -1 +1,2 @@\n a\n+b\n@@ -3 +4,2 @@\n c\n+d\n".toList

def twoHunkFile : PatchFile :=
  { header := ["diff --git a/f b/f".toList, "--- a/f".toList, "+++ b/f".toList]
    oldPath := ['f']
    newPath := ['f']
    kind := .modified
    hunks :=
      [{ oldStart := 1, oldCount := 1, newStart := 1, newCount := 2, heading := []
         headerLine := "@@ -1 +1,2 @@".toList, lines := [⟨.context, ['a']⟩, ⟨.add, ['b']⟩] },
       { oldStart := 3, oldCount := 1, newStart := 4, newCount := 2, heading := []
         headerLine := "@@ -3 +4,2 @@".toList, lines := [⟨.context, ['c']⟩, ⟨.add, ['d']⟩] }] }

/-- The lines of a file in which every line ends in a newline. -/
def fileOf (ls : List Text) : List FileLine := ls.map (fun t => ⟨t, false⟩)

/-- Unstaging the second insertion only: the patch says line 3, the original says line 4. -/
theorem twoHunkFile_newStart :
    parsePatch twoHunkDiff = [twoHunkFile] ∧ twoHunkFile.kind = .modified
      ∧ Consistent 0 twoHunkFile.hunks
      ∧ strictApply twoHunkFile.hunks (fileOf [['a'], ['x'], ['c']])
        = some (fileOf [['a'], ['b'], ['x'], ['c'], ['d']])
      ∧ ∃ text out, transform twoHunkFile ⟨{(1, 1)}⟩ true = some text ∧ parsePatch text = [out]
        ∧ out.hunks.map PatchHunk.newStart = [3]
        ∧ (twoHunkFile.hunks.zipIdx.filter (touched ⟨{(1, 1)}⟩)).map (fun p => p.1.newStart)
          = [4] := by
  refine ⟨by decide +kernel, rfl, ?_, by decide +kernel, ?_⟩
  · exact ⟨rfl, rfl, rfl, rfl, rfl, rfl, trivial⟩
  · refine ⟨"diff --git a/f b/f\n--- a/f\n+++ b/f\n@@ -3,1 +3,2 @@\n c\n+d\n".toList,
      { twoHunkFile with
        hunks :=
          [{ oldStart := 3, oldCount := 1, newStart := 3, newCount := 2, heading := []
             headerLine := "@@ -3,1 +3,2 @@".toList
             lines := [⟨.context, ['c']⟩, ⟨.add, ['d']⟩] }] }, ?_, ?_, rfl, ?_⟩
    · decide +kernel
    · decide +kernel
    · decide +kernel

/-- The same patch, read with the correction: `3 = (4 - 1 + (0 - 0)) % 2 ^ 32`. -/
theorem twoHunkFile_unstaged :
    ∃ out h, parsePatch "diff --git a/f b/f\n--- a/f\n+++ b/f\n@@ -3,1 +3,2 @@\n c\n+d\n".toList
        = [out] ∧ out.hunks[0]? = some h
      ∧ UnstagedHunk ⟨{(1, 1)}⟩ (fileOf [['a'], ['b'], ['x'], ['c'], ['d']])
          (twoHunkFile.hunks.zipIdx.take 1) (twoHunkFile.hunks[1], 1) h := by
  have hfile : twoHunkFile ∈ parsePatch twoHunkDiff := by decide +kernel
  have hcons : Consistent 0 twoHunkFile.hunks := ⟨rfl, rfl, rfl, rfl, rfl, rfl, trivial⟩
  have happly : strictApply twoHunkFile.hunks (fileOf [['a'], ['x'], ['c']])
      = some (fileOf [['a'], ['b'], ['x'], ['c'], ['d']]) := by
    decide +kernel
  have ht : transform twoHunkFile ⟨{(1, 1)}⟩ true
      = some "diff --git a/f b/f\n--- a/f\n+++ b/f\n@@ -3,1 +3,2 @@\n c\n+d\n".toList := by
    decide +kernel
  obtain ⟨out, hout, -, hall⟩ := transform_reverse hfile hcons happly ht
  obtain ⟨h, hh, hun⟩ := hall (twoHunkFile.hunks.zipIdx.take 1) (twoHunkFile.hunks[1], 1) [] rfl
    (by decide +kernel)
  exact ⟨out, h, hout, hh, hun⟩

end Thegn.Patch
