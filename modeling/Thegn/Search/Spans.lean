import Thegn.Lib.Splice
import Thegn.Search.Scan

set_option autoImplicit false

/-! # Spans of a line, and the loop that replaces them

The matches of a line do not overlap, are not empty and lie on character boundaries
(`scanLine_ordered`); for a regex this is what its crate promises (`Regex.Ordered`). So a line is
cut into pieces by any choice of them (`exists_pieces`), and the loop that replaces from right to
left swaps exactly the pieces (`foldlM_replaceStep`).
-/

namespace Thegn.Search

open Text Splice List

/-! ## Ordered spans -/

/-- The spans are not empty, lie on character boundaries and do not overlap. -/
structure OrderedSpans (line : Text) (spans : List (Nat × Nat)) : Prop where
  fits : ∀ x ∈ spans, x.1 < x.2 ∧ isCharBoundary line x.1 = true ∧ isCharBoundary line x.2 = true
  order : spans.Pairwise (fun a b => a.2 ≤ b.1)

theorem OrderedSpans.sublist {line : Text} {spans spans' : List (Nat × Nat)}
    (h : OrderedSpans line spans) (hs : spans'.Sublist spans) : OrderedSpans line spans' :=
  ⟨fun x hx => h.fits x (hs.subset hx), h.order.sublist hs⟩

/-- The spans of the matches that a regex finds in a line. -/
def Regex.wholeSpans (re : Regex) (line : Text) : List (Nat × Nat) :=
  (re.capturesIter line).filterMap wholeSpan

/-- What the matches of a regex are like: in order, without overlap, on character boundaries. -/
structure Regex.Ordered (re : Regex) : Prop where
  fits : ∀ line, ∀ x ∈ re.wholeSpans line,
    x.1 ≤ x.2 ∧ isCharBoundary line x.1 = true ∧ isCharBoundary line x.2 = true
  order : ∀ line, (re.wholeSpans line).Pairwise (fun a b => a.2 ≤ b.1)

/-- A regex matcher finds matches in order. -/
def Matcher.Ordered : Matcher → Prop
  | .literal _ _ _ => True
  | .regex re => re.Ordered

def LineMatch.span (m : LineMatch) : Nat × Nat := (m.start, m.stop)

/-- What the loop finds lies behind the byte it starts from. -/
theorem literalLoop_spans {line : Text} {hayCmp needleCmp : List UInt8} {wholeWord : Bool}
    (hne : needleCmp ≠ []) (fuel : Nat) :
    ∀ i, OrderedSpans line ((literalLoop line hayCmp needleCmp wholeWord fuel i).map LineMatch.span)
      ∧ ∀ m ∈ literalLoop line hayCmp needleCmp wholeWord fuel i, i ≤ m.start := by
  have hpos : 0 < needleCmp.length := length_pos_iff.mpr hne
  induction fuel with
  | zero => intro i; exact ⟨⟨by simp [literalLoop], .nil⟩, by simp [literalLoop]⟩
  | succ fuel ih =>
    intro i
    rw [literalLoop]
    split_ifs with hlen hfound
    · obtain ⟨hord, hlow⟩ := ih (i + needleCmp.length)
      have hbound : isCharBoundary line i = true
          ∧ isCharBoundary line (i + needleCmp.length) = true := by
        simp only [foundAt, Bool.and_eq_true] at hfound
        exact hfound.1.2
      refine ⟨⟨?_, ?_⟩, ?_⟩
      · intro x hx
        rcases mem_cons.mp hx with rfl | hx
        · exact ⟨by simp only [LineMatch.span]; omega, hbound⟩
        · exact hord.fits x hx
      · refine pairwise_cons.mpr ⟨?_, hord.order⟩
        intro x hx
        obtain ⟨m, hm, rfl⟩ := mem_map.mp hx
        exact hlow m hm
      · intro m hm
        rcases mem_cons.mp hm with rfl | hm
        · exact le_refl i
        · have hle := hlow m hm
          omega
    · obtain ⟨hord, hlow⟩ := ih (i + 1)
      refine ⟨hord, ?_⟩
      intro m hm
      have hle := hlow m hm
      omega
    · exact ⟨⟨by simp, .nil⟩, by simp⟩

theorem regexMatch_span (line : Text) (capsList : List Captures) :
    (capsList.filterMap (regexMatch line)).map LineMatch.span
      = (capsList.filterMap wholeSpan).filter (fun x => x.1 ≠ x.2) := by
  induction capsList with
  | nil => rfl
  | cons caps capsList ih =>
    cases hwhole : wholeSpan caps with
    | none =>
      have hnone : regexMatch line caps = none := by simp [regexMatch, hwhole]
      rw [filterMap_cons_none hnone, filterMap_cons_none hwhole]
      exact ih
    | some x =>
      obtain ⟨start, stop⟩ := x
      rw [filterMap_cons_some hwhole]
      by_cases heq : start = stop
      · have hnone : regexMatch line caps = none := by simp [regexMatch, hwhole, heq]
        rw [filterMap_cons_none hnone, filter_cons_of_neg (by simp [heq])]
        exact ih
      · have hsome : ∃ captures, regexMatch line caps = some ⟨start, stop, captures⟩ := by
          simp [regexMatch, hwhole, heq]
        obtain ⟨captures, hsome⟩ := hsome
        rw [filterMap_cons_some hsome, filter_cons_of_pos (by simp [heq]), map_cons, ih]
        rfl

/-- **The matches of a line are ordered.** -/
theorem scanLine_ordered {m : Matcher} (hm : m.Ordered) (line : Text) :
    OrderedSpans line ((m.scanLine line).map LineMatch.span) := by
  cases m with
  | literal needle caseSensitive wholeWord =>
    unfold Matcher.scanLine literalScan
    dsimp only
    split_ifs with hnil hcase
    · exact ⟨by simp, .nil⟩
    · apply (literalLoop_spans _ _ _).1
      exact fun h => hnil (eq_nil_of_byteLen (congrArg List.length h))
    · apply (literalLoop_spans _ _ _).1
      intro h
      apply hnil
      apply eq_nil_of_byteLen
      exact congrArg List.length (map_eq_nil_iff.mp h)
  | regex re =>
    have hord : re.Ordered := hm
    show OrderedSpans line (((re.capturesIter line).filterMap (regexMatch line)).map _)
    rw [regexMatch_span]
    constructor
    · intro x hx
      obtain ⟨hx, hne⟩ := mem_filter.mp hx
      obtain ⟨hle, hbounds⟩ := hord.fits line x hx
      have hne' : x.1 ≠ x.2 := by simpa using hne
      exact ⟨by omega, hbounds⟩
    · exact (hord.order line).sublist filter_sublist

/-! ## Pieces -/

/-- A replacement of a span. -/
def Replacement.span (r : Replacement Char) : Nat × Nat := (r.start, r.stop)

/-- The rest `t` of a line is cut into pieces by replacements behind the part `p`. -/
theorem exists_pieces_from (rs : List (Replacement Char)) :
    ∀ p t : Text, OrderedSpans (p ++ t) (rs.map Replacement.span) →
      (∀ r ∈ rs, byteLen p ≤ r.start) →
      ∃ ps, oldOf ps = t ∧ splices byteLen (byteLen p) ps = rs := by
  induction rs with
  | nil => intro p t _ _; exact ⟨[.keep t], by simp [Piece.old], rfl⟩
  | cons r rs ih =>
    intro p t h hlow
    obtain ⟨hlt, hstart, hstop⟩ := h.fits _ (.head _)
    -- the gap before the span, the span, and what is behind it
    obtain ⟨g, t1, rfl, hg⟩ := exists_cut_of_boundary hstart (hlow r (.head _))
    rw [← append_assoc] at hstop
    obtain ⟨m, t2, rfl, hm⟩ := exists_cut_of_boundary hstop (by
      rw [byteLen_append, hg]
      exact hlt.le)
    have hrest := ih (p ++ g ++ m) t2
      (by
        have hsub := h.sublist (sublist_cons_self _ _)
        simpa [append_assoc] using hsub)
      (by
        intro r' hr'
        have hle := (pairwise_cons.mp h.order).1 _ (mem_map_of_mem hr')
        rw [byteLen_append, hm]
        exact hle)
    obtain ⟨ps, hold, hspl⟩ := hrest
    refine ⟨.keep g :: .swap m r.new :: ps, by simp [Piece.old, hold], ?_⟩
    have hr : r = ⟨r.start, r.stop, r.new⟩ := rfl
    have hpos : byteLen p + byteLen g = r.start := hg
    have hend : r.start + byteLen m = r.stop := by
      rw [← hpos, ← byteLen_append]
      exact hm
    have hnext : byteLen (p ++ g ++ m) = r.stop := by
      rw [byteLen_append, byteLen_append, hpos, hend]
    rw [splices, splices, hpos, hend, ← hnext, hspl, hnext]

/-- **A line is cut into pieces** by replacements of ordered spans. -/
theorem exists_pieces {line : Text} {rs : List (Replacement Char)}
    (h : OrderedSpans line (rs.map Replacement.span)) :
    ∃ ps, oldOf ps = line ∧ splices byteLen 0 ps = rs :=
  exists_pieces_from rs [] line h (fun _ _ => Nat.zero_le _)

/-! ## The loop -/

theorem fits_append (a m b : Text) {last : Nat} (hlast : byteLen a + byteLen m ≤ last)
    (applied skipped : Nat) :
    Progress.fits ⟨a ++ (m ++ b), last, applied, skipped⟩ (byteLen a) (byteLen a + byteLen m) =
      true := by
  have hstart := isCharBoundary_append a (m ++ b)
  have hstop := isCharBoundary_append (a ++ m) b
  rw [append_assoc, byteLen_append] at hstop
  simp only [Progress.fits, hstart, hstop, byteLen_append, Bool.not_true, Bool.or_false,
    Bool.not_eq_true', Bool.or_eq_false_iff, decide_eq_false_iff_not]
  omega

/-- One round replaces a piece. -/
theorem replaceStep_append (a m b r : Text) {last applied skipped : Nat} {fresh : Text → Bool}
    (hlast : byteLen a + byteLen m ≤ last) (hfresh : fresh (a ++ (m ++ b)) = true) :
    replaceStep ⟨a ++ (m ++ b), last, applied, skipped⟩ (byteLen a) (byteLen a + byteLen m) r fresh
      = some ⟨a ++ (r ++ b), byteLen a, applied + 1, skipped⟩ := by
  unfold replaceStep
  rw [fits_append a m b hlast, hfresh, replaceRange_append]
  rfl

theorem byteSlice_utf8 (a m b : Text) :
    byteSlice (utf8 (a ++ (m ++ b))) (byteLen a) (byteLen a + byteLen m) = utf8 m := by
  rw [utf8_append, utf8_append]
  exact byteSlice_append (utf8 a) (utf8 m) (utf8 b)

section

variable {ε : Type} (rep : ε → Replacement Char) (fresh : ε → Text → Bool)

/-- A round of the loop for an edit. -/
def stepOf (st : Progress) (e : ε) : Option Progress :=
  replaceStep st (rep e).start (rep e).stop (rep e).new (fresh e)

/-- The loop swaps the pieces, from the last to the first. `orig` is the text before any edit; an
edit is fresh as long as the bytes of its span are those of `orig`. -/
theorem foldlM_stepOf {orig : Text} (ps : List (Piece Char)) :
    ∀ (es : List ε) (tail done : Text) (last applied skipped : Nat),
      es.map rep = splices byteLen 0 ps → orig = oldOf ps ++ tail →
      (∀ e ∈ es, ∀ text, byteSlice (utf8 text) (rep e).start (rep e).stop
        = byteSlice (utf8 orig) (rep e).start (rep e).stop → fresh e text = true) →
      byteLen (oldOf ps) ≤ last →
      ∃ last', es.reverse.foldlM (stepOf rep fresh) ⟨oldOf ps ++ done, last, applied, skipped⟩
        = some ⟨newOf ps ++ done, last', applied + es.length, skipped⟩ := by
  induction ps using List.reverseRecOn with
  | nil =>
    intro es tail done last applied skipped hes _ _ _
    rw [map_eq_nil_iff.mp hes]
    exact ⟨last, rfl⟩
  | append_singleton qs p ih =>
    intro es tail done last applied skipped hes horig hfresh hlast
    rw [splices_append byteLen_nil byteLen_append, Nat.zero_add] at hes
    cases p with
    | keep xs =>
      rw [splices, splices, append_nil] at hes
      simp only [oldOf_append, oldOf_cons, oldOf_nil, Piece.old, append_nil] at horig hlast ⊢
      simp only [newOf_append, newOf_cons, newOf_nil, Piece.new, append_nil, append_assoc]
      rw [append_assoc] at horig
      rw [byteLen_append] at hlast
      exact ih es (xs ++ tail) (xs ++ done) last applied skipped hes horig hfresh (by omega)
    | swap old new =>
      rw [splices, splices] at hes
      obtain ⟨es', e', rfl, hes', he'⟩ := map_eq_append_iff.mp hes
      obtain ⟨e, rfl, he⟩ : ∃ e, e' = [e]
          ∧ rep e = ⟨byteLen (oldOf qs), byteLen (oldOf qs) + byteLen old, new⟩ := by
        obtain ⟨e, rest, rfl, he, hrest⟩ := map_eq_cons_iff.mp he'
        rw [map_eq_nil_iff.mp hrest]
        exact ⟨e, rfl, he⟩
      simp only [oldOf_append, oldOf_cons, oldOf_nil, Piece.old, append_nil,
        append_assoc] at horig hlast ⊢
      rw [byteLen_append] at hlast
      -- both texts have the old piece at the span of the edit
      have hslice : byteSlice (utf8 (oldOf qs ++ (old ++ done))) (rep e).start (rep e).stop
          = byteSlice (utf8 orig) (rep e).start (rep e).stop := by
        rw [he, horig]
        exact (byteSlice_utf8 _ _ _).trans (byteSlice_utf8 _ _ _).symm
      have hnow := hfresh e (by simp) _ hslice
      have hstep : stepOf rep fresh ⟨oldOf qs ++ (old ++ done), last, applied, skipped⟩ e
          = some ⟨oldOf qs ++ (new ++ done), byteLen (oldOf qs), applied + 1, skipped⟩ := by
        unfold stepOf
        rw [he]
        exact replaceStep_append _ old done new hlast hnow
      obtain ⟨last', hrest⟩ := ih es' (old ++ tail) (new ++ done) (byteLen (oldOf qs)) (applied + 1)
        skipped hes' horig (fun e he => hfresh e (by simp [he])) (le_refl _)
      refine ⟨last', ?_⟩
      rw [reverse_append, reverse_singleton, singleton_append, foldlM_cons, hstep]
      show es'.reverse.foldlM (stepOf rep fresh) _ = _
      rw [hrest]
      simp [Piece.new, Nat.add_assoc, Nat.add_comm 1]

end

/-! ## Sorting -/

/-- However the edits are listed, they are applied from the last to the first. -/
theorem sortDown_eq {ε : Type} {start : ε → Nat} {es group : List ε} (hp : group.Perm es)
    (h : es.Pairwise (fun a b => start a < start b)) : sortDown start group = es.reverse := by
  have hperm : (sortDown start group).Perm es.reverse :=
    ((mergeSort_perm _ _).trans hp).trans (reverse_perm es).symm
  have hsorted : (sortDown start group).Pairwise (fun a b =>
    decide (start b ≤ start a) = true) := by
    apply pairwise_mergeSort
    · intro a b c hab hbc
      simp only [decide_eq_true_eq] at *
      omega
    · intro a b
      simp only [Bool.or_eq_true, decide_eq_true_eq]
      omega
  have hreverse : es.reverse.Pairwise (fun a b => decide (start b ≤ start a) = true) := by
    rw [pairwise_reverse]
    exact h.imp (fun hab => by simpa using hab.le)
  refine hperm.eq_of_pairwise ?_ hsorted hreverse
  intro a b ha hb hab hba
  simp only [decide_eq_true_eq] at hab hba
  by_contra hne
  have hmem : a ∈ es := by simpa using hperm.subset ha
  have hsymm := h.imp (S := fun a b => start a ≠ start b) (fun hlt => hlt.ne)
  have hinst : Std.Symm (fun a b : ε => start a ≠ start b) := ⟨fun _ _ hab => hab.symm⟩
  exact hsymm.forall hmem (mem_reverse.mp hb) hne (by omega)

end Thegn.Search
