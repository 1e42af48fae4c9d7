import Thegn.Search.Exact

set_option autoImplicit false

/-! # Arbitrary edits

Whatever spans and hashes the edits of a line have, the loop only ever replaces in front of its last
edit, where the line is still the original one; so the edits it takes cut the original line into
pieces (`foldlM_editStep`), and the line it leaves has those pieces swapped. A line with a stale
edit is left alone (`applyGroup_outcome`), and no two groups touch the same line
(`applyEdits_safe`).
-/

namespace Thegn.Search

open Text Splice List

/-! ## The edits of one line -/

/-- The start of a text up to a character boundary in front of `head`. -/
theorem exists_cut_before {head rest g t : Text} (h : head ++ rest = g ++ t)
    (hle : byteLen g ≤ byteLen head) : ∃ u, head = g ++ u := by
  rcases append_eq_append_iff.mp h with ⟨u, hg, -⟩ | ⟨u, hhead, -⟩
  · rw [hg, byteLen_append] at hle
    have hnil : u = [] := eq_nil_of_byteLen (by omega)
    exact ⟨[], by rw [hg, hnil, append_nil, append_nil]⟩
  · exact ⟨u, hhead⟩

/-- Where the loop stands: what is before the last edit is the original text, and `taken`, in the
order of the line, has cut off the pieces behind it. -/
structure EditState (orig : Text) (st : Progress) (taken : List Edit) : Prop where
  split : ∃ (head : Text) (ps : List (Piece Char)), orig = head ++ oldOf ps ∧
    st.text = head ++ newOf ps ∧
    taken.map Edit.rep = splices byteLen (byteLen head) ps ∧
    (st.lastStart = byteLen head ∨ ps = [] ∧ st.lastStart = byteLen head + 1)

/-- A span that fits lies before the last edit. -/
theorem exists_cut_of_fits {head rest : Text} {st : Progress} {start stop : Nat}
    (htext : st.text = head ++ rest)
    (hlast : st.lastStart = byteLen head ∨ rest = [] ∧ st.lastStart = byteLen head + 1)
    (hfits : st.fits start stop = true) :
    ∃ g m u, head = g ++ (m ++ u) ∧ byteLen g = start ∧ byteLen g + byteLen m = stop := by
  simp only [Progress.fits, Bool.not_eq_true', Bool.or_eq_false_iff, decide_eq_false_iff_not,
    Nat.not_lt, Bool.not_eq_false'] at hfits
  obtain ⟨⟨⟨⟨hlen, horder⟩, hbefore⟩, hstart⟩, hstop⟩ := hfits
  rw [htext] at hlen hstart hstop
  have hhead : stop ≤ byteLen head := by
    rcases hlast with h | ⟨h, -⟩
    · omega
    · rwa [h, append_nil] at hlen
  obtain ⟨g, t, hg, hglen⟩ := isCharBoundary_iff.mp hstart
  obtain ⟨v, hv⟩ := exists_cut_before hg (by omega)
  obtain ⟨g', t', hg', hglen'⟩ := isCharBoundary_iff.mp hstop
  obtain ⟨u, hu⟩ := exists_cut_before hg' (by omega)
  obtain ⟨m, hm⟩ := exists_cut_before (hu.symm.trans hv) (by omega)
  refine ⟨g, m, u, ?_, hglen, ?_⟩
  · rw [hu, hm, append_assoc]
  · rw [← hglen', hm, byteLen_append]

/-- One round takes the edit or skips it. -/
theorem editStep_state {orig : Text} {st : Progress} {taken : List Edit}
    (h : EditState orig st taken) (e : Edit) :
    ∃ st', editStep st e = some st' ∧
      ((EditState orig st' (e :: taken) ∧ st'.applied = st.applied + 1 ∧ st'.skipped = st.skipped) ∨
        (EditState orig st' taken ∧ st'.applied = st.applied ∧ st'.skipped = st.skipped + 1)) := by
  obtain ⟨head, ps, horig, htext, htaken, hlast⟩ := h.split
  by_cases hfits : st.fits e.byteStart e.byteEnd = true
  · have hlast' : st.lastStart = byteLen head ∨ newOf ps = [] ∧ st.lastStart = byteLen head + 1 :=
      hlast.imp id fun hl => ⟨by rw [hl.1, newOf_nil], hl.2⟩
    obtain ⟨g, m, u, rfl, hstart, hstop⟩ := exists_cut_of_fits htext hlast' hfits
    have hreplace : replaceRange st.text e.byteStart e.byteEnd e.replacement =
        some (g ++ (e.replacement ++ (u ++ newOf ps))) := by
      rw [htext, ← hstart, ← hstop, append_assoc, append_assoc]
      exact replaceRange_append g m (u ++ newOf ps) e.replacement
    refine ⟨⟨g ++ (e.replacement ++ (u ++ newOf ps)), e.byteStart, st.applied + 1, st.skipped⟩, ?_,
      .inl ⟨⟨?_⟩, rfl, rfl⟩⟩
    · unfold editStep replaceStep
      rw [hfits, hreplace]
      rfl
    · refine ⟨g, .swap m e.replacement :: .keep u :: ps, ?_, ?_, ?_, .inl hstart.symm⟩
      · rw [horig, oldOf_cons, oldOf_cons, Piece.old, Piece.old, append_assoc, append_assoc]
      · rw [newOf_cons, newOf_cons]
        rfl
      · have hhead : byteLen (g ++ (m ++ u)) = byteLen g + byteLen m + byteLen u := by
          rw [byteLen_append, byteLen_append, Nat.add_assoc]
        rw [hhead] at htaken
        rw [map_cons, splices, splices, ← htaken, Edit.rep, hstart]
        rw [hstart] at hstop
        rw [hstop]
  · have hskip : editStep st e = some { st with skipped := st.skipped + 1 } := by
      unfold editStep replaceStep
      rw [Bool.not_eq_true _ |>.mp hfits]
      rfl
    exact ⟨_, hskip, .inr ⟨⟨head, ps, horig, htext, htaken, hlast⟩, rfl, rfl⟩⟩

/-- **The loop takes some of the edits**, each once. -/
theorem foldlM_editStep {orig : Text} (es : List Edit) : ∀ {st : Progress} {taken : List Edit},
    EditState orig st taken → ∃ st' new, es.foldlM editStep st = some st' ∧
    EditState orig st' (new ++ taken) ∧
      new.Subperm es ∧ st'.applied = st.applied + new.length ∧
      st'.applied + st'.skipped = st.applied + st.skipped + es.length := by
  induction es with
  | nil =>
    intro st taken h
    exact ⟨st, [], rfl, h, List.Subperm.refl _, rfl, rfl⟩
  | cons e es ih =>
    intro st taken h
    rw [foldlM_cons]
    obtain ⟨st1, hstep, ⟨h1, happlied, hskipped⟩ | ⟨h1, happlied, hskipped⟩⟩ := editStep_state h e
    · obtain ⟨st', new, hfold, h', hsub, happlied', htotal⟩ := ih h1
      refine ⟨st', new ++ [e], ?_, ?_, ?_, ?_, ?_⟩
      · rw [hstep]
        exact hfold
      · rw [append_assoc]
        exact h'
      · exact (perm_append_singleton e new).subperm.trans (((subperm_cons e).mpr hsub))
      · rw [happlied', happlied, length_append, length_singleton]
        omega
      · rw [htotal, happlied, hskipped, length_cons]
        omega
    · obtain ⟨st', new, hfold, h', hsub, happlied', htotal⟩ := ih h1
      refine ⟨st', new, ?_, h', hsub.trans (sublist_cons_self e es).subperm, ?_, ?_⟩
      · rw [hstep]
        exact hfold
      · rw [happlied', happlied]
      · rw [htotal, happlied, hskipped, length_cons]
        omega

/-- The replacement of an edit, in the bytes of its line. -/
def Edit.bytesRep (e : Edit) : Replacement UInt8 where
  start := e.byteStart
  stop := e.byteEnd
  new := utf8 e.replacement

/-- **What becomes of a line.** `taken` are the edits that were applied, from left to right. -/
structure LineOutcome (seg : Text) (group taken : List Edit) (out : Text) : Prop where
  among : taken.Subperm group
  apart : taken.Pairwise fun a b => a.byteEnd ≤ b.byteStart
  within : ∀ e ∈ taken, e.byteStart ≤ e.byteEnd ∧ e.byteEnd ≤ byteLen seg
  substituted : utf8 out = substitute 0 (utf8 seg) (taken.map Edit.bytesRep)
  drifted : (∃ e ∈ group, e.contentHash ≠ fnv1a64 (utf8 seg)) → taken = [] ∧ out = seg

/-- Replacements of pieces stand one behind the other. -/
theorem splices_apart {ps : List (Piece Char)} (pos : Nat) :
    (splices byteLen pos ps).Pairwise (fun a b => a.stop ≤ b.start) ∧
      ∀ r ∈ splices byteLen pos ps, r.start ≤ r.stop ∧ r.stop ≤ pos + byteLen (oldOf ps) := by
  induction ps generalizing pos with
  | nil => exact ⟨.nil, fun r h => absurd h not_mem_nil⟩
  | cons p ps ih =>
    cases p with
    | keep xs =>
      obtain ⟨hpair, hin⟩ := ih (pos + byteLen xs)
      refine ⟨hpair, fun r hr => ⟨(hin r hr).1, ?_⟩⟩
      rw [oldOf_cons, byteLen_append, Piece.old, ← Nat.add_assoc]
      exact (hin r hr).2
    | swap old new =>
      obtain ⟨hpair, hin⟩ := ih (pos + byteLen old)
      rw [splices, oldOf_cons, byteLen_append, Piece.old, ← Nat.add_assoc]
      refine ⟨pairwise_cons.mpr ⟨fun r hr => le_start hr, hpair⟩, ?_⟩
      intro r hr
      rcases mem_cons.mp hr with rfl | hr
      · exact ⟨Nat.le_add_right _ _, Nat.le_add_right _ _⟩
      · exact hin r hr

/-- What the loop leaves of a line. -/
theorem EditState.outcome {seg : Text} {st : Progress} {taken group : List Edit}
    (h : EditState seg st taken)
    (hsub : taken.Subperm group) (hfresh : ¬ ∃ e ∈ group, e.contentHash ≠ fnv1a64 (utf8 seg)) :
    LineOutcome seg group taken st.text := by
  obtain ⟨head, ps, horig, htext, htaken, -⟩ := h.split
  have hrep : taken.map Edit.rep = splices byteLen 0 (.keep head :: ps) := by
    rw [htaken, splices, Nat.zero_add]
  have hold : oldOf (.keep head :: ps) = seg := horig.symm
  have hnew : newOf (.keep head :: ps) = st.text := htext.symm
  obtain ⟨hpair, hin⟩ := @splices_apart (.keep head :: ps) 0
  rw [← hrep] at hpair hin
  refine ⟨hsub, pairwise_map.mp hpair, ?_, ?_, fun hc => absurd hc hfresh⟩
  · intro e he
    have hspan := hin _ (mem_map_of_mem he)
    rw [hold, Nat.zero_add] at hspan
    exact hspan
  · have hbytes : taken.map Edit.bytesRep = splices List.length 0
      ((Piece.keep head :: ps).map (Piece.map utf8)) := by
      rw [splices_map, show (fun xs => (utf8 xs).length) = byteLen from rfl, ← hrep, map_map]
      rfl
    rw [hbytes, ← hold, ← oldOf_map utf8_nil utf8_append, substitute_splices,
      newOf_map utf8_nil utf8_append, hnew]

theorem lineOutcome_nil (seg : Text) (group : List Edit) : LineOutcome seg group [] seg where
  among := nil_subperm
  apart := .nil
  within := fun _ h => absurd h not_mem_nil
  substituted := rfl
  drifted := fun _ => ⟨rfl, rfl⟩

/-! ## A group of edits -/

/-- One group changes one line at most, and counts each of its edits once. -/
structure GroupOutcome (st : LineProgress) (line : Nat) (group taken : List Edit)
    (st' : LineProgress) : Prop where
  applied : st'.applied = st.applied + taken.length
  counted : st'.applied + st'.skipped = st.applied + st.skipped + group.length
  lines : (st.lines[line - 1]? = none ∧ st'.lines = st.lines ∧ taken = []) ∨
    ∃ seg out, st.lines[line - 1]? = some seg ∧ st'.lines = st.lines.set (line - 1) out ∧
      LineOutcome seg group taken out

theorem applyGroup_outcome (st : LineProgress) {line : Nat} (hline : 1 ≤ line) (group : List Edit) :
    ∃ st' taken, applyGroup st line group = some st' ∧ GroupOutcome st line group taken st' := by
  unfold applyGroup
  cases hseg : st.lines[line - 1]? with
  | none => exact ⟨_, [], rfl, rfl, (Nat.add_assoc _ _ _).symm, .inl ⟨hseg, rfl, rfl⟩⟩
  | some seg =>
    dsimp only
    have hkeep : st.lines.set (line - 1) seg = st.lines := by
      obtain ⟨hlt, rfl⟩ := List.getElem?_eq_some_iff.mp hseg
      exact set_getElem_self hlt
    split_ifs with hdrift hzero
    · refine ⟨_, [], rfl, rfl, (Nat.add_assoc _ _ _).symm, .inr ⟨seg, seg, hseg, hkeep.symm, ?_⟩⟩
      exact lineOutcome_nil seg group
    · omega
    · have hstart : EditState seg ⟨seg, byteLen seg + 1, st.applied, st.skipped⟩ [] :=
        ⟨seg, [], by simp, by simp, rfl, .inr ⟨rfl, rfl⟩⟩
      obtain ⟨st', new, hfold, hstate, hsub, happlied, htotal⟩ :=
        foldlM_editStep (sortDown Edit.byteStart group) hstart
      have hperm : (sortDown Edit.byteStart group).Perm group := mergeSort_perm _ _
      have hfresh : ¬ ∃ e ∈ group, e.contentHash ≠ fnv1a64 (utf8 seg) := by
        rintro ⟨e, he, hne⟩
        refine hdrift (any_eq_true.mpr ⟨e, he, ?_⟩)
        exact bne_iff_ne.mpr hne
      rw [hperm.length_eq] at htotal
      rw [append_nil] at hstate
      rw [hfold]
      exact ⟨_, new, rfl, happlied, htotal,
        .inr ⟨seg, st'.text, hseg, rfl, hstate.outcome (hsub.trans hperm.subperm) hfresh⟩⟩

/-! ## All groups -/

/-- What has become of each line, after the groups of the lines `done`. -/
structure FileOutcome (before : List Text) (groups taken : Nat →
    List Edit) (done : List Nat) (after : List Text) :
    Prop where
  length : after.length = before.length
  missing : ∀ line, before[line - 1]? = none → taken line = []
  edited : ∀ i seg, before[i]? = some seg → ∃ out, after[i]? = some out ∧
    (if i + 1 ∈ done then LineOutcome seg (groups (i + 1)) (taken (i + 1)) out else out = seg)

/-- A group of a line that was not touched yet. -/
theorem FileOutcome.group {before : List Text} {groups taken : Nat → List Edit} {done : List Nat}
    {st st' : LineProgress} {k : Nat} {sel : List Edit}
    (h : FileOutcome before groups taken done st.lines)
    (hpos : 1 ≤ k) (hnew : k ∉ done) (hgroup : GroupOutcome st k (groups k) sel st') :
    FileOutcome before groups (fun j => if j = k then sel else taken j) (k :: done) st'.lines := by
  have hindex : k - 1 + 1 = k := Nat.sub_add_cancel hpos
  have hlength : st'.lines.length = st.lines.length := by
    rcases hgroup.lines with ⟨-, hlines, -⟩ | ⟨_, _, -, hlines, -⟩
    · rw [hlines]
    · rw [hlines, length_set]
  -- a line of another number is as it was
  have hother : ∀ i, i + 1 ≠ k → st'.lines[i]? = st.lines[i]? := by
    intro i hi
    rcases hgroup.lines with ⟨-, hlines, -⟩ | ⟨_, _, -, hlines, -⟩
    · rw [hlines]
    · rw [hlines, List.getElem?_set_ne (by omega)]
  refine ⟨hlength.trans h.length, ?_, ?_⟩
  · intro line hline
    split_ifs with heq
    · subst heq
      rcases hgroup.lines with ⟨-, -, hnil⟩ | ⟨seg, _, hseg, -, -⟩
      · exact hnil
      · have hge := List.getElem?_eq_none_iff.mp hline
        rw [List.getElem?_eq_none (by rw [h.length]; exact hge)] at hseg
        cases hseg
    · exact h.missing line hline
  · intro i seg hi
    obtain ⟨out, hout, hcase⟩ := h.edited i seg hi
    by_cases heq : i + 1 = k
    · have hi' : k - 1 = i := by omega
      rw [if_neg (by rw [heq]; exact hnew)] at hcase
      subst hcase
      rcases hgroup.lines with ⟨hnone, -, -⟩ | ⟨seg', out', hseg', hlines, hline⟩
      · rw [hi', hout] at hnone
        cases hnone
      · rw [hi', hout] at hseg'
        cases hseg'
        refine ⟨out', ?_, ?_⟩
        · rw [hlines, hi', List.getElem?_set_self (List.getElem?_eq_some_iff.mp hout).1]
        · rw [heq, if_pos mem_cons_self, if_pos rfl]
          exact hline
    · refine ⟨out, (hother i heq).trans hout, ?_⟩
      simp only [mem_cons, heq, false_or, if_false]
      exact hcase

/-- The groups of distinct lines, one after the other. -/
theorem foldlM_applyGroup {before : List Text} {groups : Nat → List Edit} (ks : List Nat) :
    ∀ {done : List Nat} {taken : Nat → List Edit} {st : LineProgress}, ks.Nodup →
    (∀ k ∈ ks, 1 ≤ k ∧ k ∉ done) →
      FileOutcome before groups taken done st.lines → (∀ k, k ∉ done → taken k = []) →
      ∃ st' taken', (ks.map fun k => (k, groups k)).foldlM (fun st g => applyGroup st g.1 g.2) st =
        some st' ∧
        FileOutcome before groups taken' (ks ++ done) st'.lines ∧
        (∀ k, k ∉ ks ++ done → taken' k = []) ∧
        st'.applied = st.applied + (ks.map fun k => (taken' k).length).sum ∧
        (∀ k, k ∉ ks → taken' k = taken k) ∧
        st'.applied + st'.skipped = st.applied + st.skipped +
          (ks.map fun k => (groups k).length).sum := by
  induction ks with
  | nil =>
    intro done taken st _ _ h hnone
    exact ⟨st, taken, rfl, h, hnone, rfl, fun _ _ => rfl, rfl⟩
  | cons k ks ih =>
    intro done taken st hnodup hks h hnone
    obtain ⟨hk, hnodup'⟩ := nodup_cons.mp hnodup
    obtain ⟨hpos, hnew⟩ := hks k (.head _)
    obtain ⟨st1, sel, hstep, hgroup⟩ := applyGroup_outcome st hpos (groups k)
    have hfile : FileOutcome before groups (fun j => if j = k then sel else taken j) (k :: done)
      st1.lines := h.group hpos hnew hgroup
    have hks' : ∀ j ∈ ks, 1 ≤ j ∧ j ∉ k :: done := by
      intro j hj
      obtain ⟨hjpos, hjnew⟩ := hks j (.tail _ hj)
      refine ⟨hjpos, fun hc => ?_⟩
      rcases mem_cons.mp hc with rfl | hc
      · exact hk hj
      · exact hjnew hc
    have hnone' : ∀ j, j ∉ k :: done → (if j = k then sel else taken j) = [] := by
      intro j hj
      rw [mem_cons, not_or] at hj
      rw [if_neg hj.1]
      exact hnone j hj.2
    obtain ⟨st', taken', hfold, hfile', hnone'', happlied, hsame, htotal⟩ :=
      ih hnodup' hks' hfile hnone'
    have htaken : taken' k = sel := by
      rw [hsame k hk, if_pos rfl]
    have hdone : ∀ j, j ∈ ks ++ k :: done ↔ j ∈ k :: ks ++ done := by
      intro j
      simp only [mem_append, mem_cons]
      tauto
    refine ⟨st', taken', ?_, ⟨hfile'.length, hfile'.missing, ?_⟩, ?_, ?_, ?_, ?_⟩
    · rw [map_cons, foldlM_cons, hstep]
      exact hfold
    · intro i seg hi
      obtain ⟨out, hout, hcase⟩ := hfile'.edited i seg hi
      refine ⟨out, hout, ?_⟩
      simpa only [hdone] using hcase
    · intro j hj
      exact hnone'' j fun hc => hj ((hdone j).mp hc)
    · rw [happlied, hgroup.applied, map_cons, sum_cons, htaken]
      omega
    · intro j hj
      rw [mem_cons, not_or] at hj
      rw [hsame j hj.2, if_neg hj.1]
    · rw [htotal, hgroup.counted, map_cons, sum_cons]
      omega

/-- **Arbitrary edits never corrupt a file.** Nothing panics, and each edit is applied or skipped.
Each line of the result is the original one with its applied edits substituted, all at once; these
do not overlap, and a line that one of its edits does not have the hash of is left alone. -/
theorem applyEdits_safe (original : Text) (edits : List Edit) (hline : ∀ e ∈ edits, 1 ≤ e.line) :
    ∃ (out : AppliedContent) (lines : List Text) (taken : Nat → List Edit),
      applyEdits original edits = some out ∧
      out.content = join ['\n'] lines ∧ lines.length = (splitLines original).length ∧
      out.applied + out.skippedDrift = edits.length ∧
      out.applied = (((edits.map Edit.line).dedup).map fun line => (taken line).length).sum ∧
      (∀ line, (splitLines original)[line - 1]? = none → taken line = []) ∧
      ∀ i seg, (splitLines original)[i]? = some seg → ∃ seg', lines[i]? = some seg' ∧
        LineOutcome seg (edits.filter fun e => e.line == i + 1) (taken (i + 1)) seg' := by
  have hkeys := mergeSort_perm (edits.map Edit.line).dedup (fun a b => decide (a ≤ b))
  have hstart : FileOutcome (splitLines original) (fun k => edits.filter fun e => e.line == k)
    (fun _ => []) [] (splitLines original) :=
    ⟨rfl, fun _ _ => rfl, fun i seg hi => ⟨seg, hi, rfl⟩⟩
  obtain ⟨st, taken, hfold, hfile, hnone, happlied, -, htotal⟩ :=
    @foldlM_applyGroup (splitLines original) (fun k => edits.filter fun e => e.line == k)
      ((edits.map Edit.line).dedup.mergeSort fun a b => decide (a ≤ b)) [] (fun _ => [])
      ⟨splitLines original, 0, 0⟩ (hkeys.nodup_iff.mpr (nodup_dedup _)) (by
        intro k hk
        obtain ⟨e, he, rfl⟩ := mem_map.mp (mem_dedup.mp (hkeys.mem_iff.mp hk))
        exact ⟨hline e he, not_mem_nil⟩) hstart fun _ _ => rfl
  rw [sum_length_filter, Nat.zero_add] at htotal
  rw [Nat.zero_add, (hkeys.map fun k => (taken k).length).sum_eq] at happlied
  refine ⟨⟨join ['\n'] st.lines, st.applied, st.skipped⟩, st.lines, taken, ?_, rfl, hfile.length,
    by rw [htotal, Nat.zero_add], happlied, hfile.missing, ?_⟩
  · unfold applyEdits byLine
    rw [hfold]
    rfl
  · intro i seg hi
    obtain ⟨out, hout, hcase⟩ := hfile.edited i seg hi
    refine ⟨out, hout, ?_⟩
    rw [append_nil] at hcase hnone
    split_ifs at hcase with hmem
    · exact hcase
    · rw [hnone (i + 1) hmem, hcase]
      exact lineOutcome_nil seg _

/-- A stale edit keeps its line, the two edits of the other line overlap and one is skipped. -/
theorem applyEdits_safe_twoLines : ∃ (out : AppliedContent) (lines : List Text),
    applyEdits "aé\nbc".toList
        [⟨1, 0, 1, 0, ['x']⟩, ⟨2, 0, 2, fnv1a64 (utf8 ['b', 'c']), ['y']⟩,
          ⟨2, 1, 2, fnv1a64 (utf8 ['b', 'c']), ['z']⟩] =
      some out ∧ out.content = join ['\n'] lines ∧ lines.length = 2 ∧
      out.applied + out.skippedDrift = 3 := by
  obtain ⟨out, lines, -, happly, hcontent, hlength, hcount, -⟩ := applyEdits_safe "aé\nbc".toList
    [⟨1, 0, 1, 0, ['x']⟩, ⟨2, 0, 2, fnv1a64 (utf8 ['b', 'c']), ['y']⟩,
      ⟨2, 1, 2, fnv1a64 (utf8 ['b', 'c']), ['z']⟩]
    (by simp)
  exact ⟨out, lines, happly, hcontent, hlength, hcount⟩

end Thegn.Search
