import Thegn.Pipeline.Language
import Thegn.Lib.Worklist

set_option autoImplicit false

/-! # Comparing patterns is exact

Both loops search the graph of a walk through two patterns (`Wildcard.Edge`), so their answer is
the one of the walk (`segmentLoop_spec`, `patternLoop_spec`). The budget is enough: a node is
charged once, and the nodes of all searches of a pair of canonical patterns are fewer than the
budget of a pair (`patternLoop_work`).
-/

namespace Thegn.Pipeline

open Text Wildcard Thegn.Graph List

/-! ## The edges of the segment search -/

section

variable (as bs : List UInt8)

/-- The edges the code follows are those of the walk, and the loop from two stars to themselves. -/
theorem mem_segmentEdges {i j : Nat} {y : Nat × Nat} :
    y ∈ segmentEdges (as.map asciiLower) (bs.map asciiLower) i j
      ↔ Edge SameByte (as.map segmentToken) (bs.map segmentToken) (i, j) y
        ∨ (y = (i, j) ∧ as[i]? = some starByte ∧ bs[j]? = some starByte) := by
  have hstar : ∀ x : UInt8, asciiLower x = starByte ↔ x = starByte := fun _ => asciiLower_eq_star
  rw [edge_iff]
  simp only [segmentEdges, List.getElem?_map, mem_append, SameByte]
  rcases hx : as[i]? with _ | x <;> rcases hz : bs[j]? with _ | z
  · simp
  · by_cases hzs : z = starByte <;> simp [hstar, segmentToken, hzs]
  · by_cases hxs : x = starByte <;> simp [hstar, segmentToken, hxs]
  · simp only [Option.map_some, Option.some.injEq, hstar, segmentToken]
    by_cases hxs : x = starByte
    · by_cases hzs : z = starByte
      · simp [hxs, hzs]
      · simp [hxs, hzs]
    · by_cases hzs : z = starByte
      · simp [hxs, hzs]
      · simp [hxs, hzs, and_comm]

/-- **The segment search answers as the walk does.** -/
theorem segmentLoop_spec {pending : List (Nat × Nat)} {seen : Finset (Nat × Nat)} {w w' : Work}
    {r : Bool}
    (hwork : Worklist (Edge SameByte (as.map segmentToken) (bs.map segmentToken))
      (AtEnd (as.map segmentToken) (bs.map segmentToken)) (0, 0) pending seen)
    (h : segmentLoop (as.map asciiLower) (bs.map asciiLower) pending seen w = .ok (r, w')) :
    r = true ↔ Reaches (Edge SameByte (as.map segmentToken) (bs.map segmentToken))
      (AtEnd (as.map segmentToken) (bs.map segmentToken)) (0, 0) := by
  fun_induction segmentLoop (as.map asciiLower) (bs.map asciiLower) pending seen w with
  | case1 =>
    cases h
    simpa using hwork.exhausted
  | case2 seen w i j rest hmem ih => exact ih (hwork.skip hmem) h
  | case3 => cases h
  | case4 seen w i j rest hmem w1 hw hend =>
    cases h
    have hgoal : AtEnd (as.map segmentToken) (bs.map segmentToken) (i, j) := by
      simpa [AtEnd] using hend
    simpa using hwork.found hgoal
  | case5 seen w i j rest hmem w1 hw hend ih =>
    refine ih (hwork.visit ?_ ?_ ?_) h
    · simpa [AtEnd] using hend
    · intro y hy
      rcases (mem_segmentEdges as bs).mp (mem_reverse.mp hy) with hedge | ⟨rfl, -⟩
      · exact .inl hedge
      · exact .inr rfl
    · intro y hy
      exact mem_reverse.mpr ((mem_segmentEdges as bs).mpr (.inl hy))

end

/-! ## The budget of the segment search -/

/-- The nodes of a walk through patterns of these lengths. -/
def grid (m n : Nat) : Finset (Nat × Nat) := Finset.range (m + 1) ×ˢ Finset.range (n + 1)

theorem mem_grid {m n : Nat} {x : Nat × Nat} : x ∈ grid m n ↔ x.1 ≤ m ∧ x.2 ≤ n := by
  simp [grid]

theorem edge_mem_grid {α : Type} {rel : α → α → Prop} {ps qs : List (Token α)} {x y : Nat × Nat}
    (h : Edge rel ps qs x y) (hx : x ∈ grid ps.length qs.length) :
    y ∈ grid ps.length qs.length := by
  rw [mem_grid] at hx ⊢
  have hlt : ∀ {l : List (Token α)} {i : Nat} {t : Token α}, l[i]? = some t → i < l.length :=
    fun h => (List.getElem?_eq_some_iff.mp h).1
  cases h with
  | skipLeft h => exact ⟨hlt h, hx.2⟩
  | skipRight h => exact ⟨hx.1, hlt h⟩
  | eatLeft _ hq => exact ⟨hx.1, hlt hq⟩
  | eatRight hp _ => exact ⟨hlt hp, hx.2⟩
  | both hp hq _ => exact ⟨hlt hp, hlt hq⟩

/-- The work `w'` is `w` and at most `n` more. -/
def Within (w w' : Work) (n : Nat) : Prop := w'.pair ≤ w.pair + n ∧ w'.total ≤ w.total + n

/-- There is room for `n` more units of work. -/
def Room (w : Work) (n : Nat) : Prop :=
  w.pair + n ≤ maxPairMatchWork ∧ w.total + n ≤ maxTotalMatchWork

theorem Room.charge {w : Work} {n : Nat} (h : Room w n) (hn : 0 < n) :
    chargeMatchWork w = .ok { pair := w.pair + 1, total := w.total + 1 } := by
  unfold chargeMatchWork
  dsimp only
  rw [if_neg]
  obtain ⟨hp, ht⟩ := h
  omega

theorem segmentLoop_work (as bs : List UInt8) (pending : List (Nat × Nat))
    (seen : Finset (Nat × Nat)) (w : Work) (hpend : ∀ x ∈ pending, x ∈ grid as.length bs.length)
    (hroom : Room w (unpaid (fun _ => 1) (grid as.length bs.length) seen)) :
    ∃ r w', segmentLoop (as.map asciiLower) (bs.map asciiLower) pending seen w = .ok (r, w')
      ∧ Within w w' (unpaid (fun _ => 1) (grid as.length bs.length) seen) := by
  fun_induction segmentLoop (as.map asciiLower) (bs.map asciiLower) pending seen w with
  | case1 seen w => exact ⟨false, w, rfl, Nat.le_add_right _ _, Nat.le_add_right _ _⟩
  | case2 seen w i j rest hmem ih =>
    exact ih (fun x hx => hpend x (.tail _ hx)) hroom
  | case3 seen w i j rest hmem e hw =>
    have hpay := unpaid_insert (fun _ => 1) (hpend _ (.head _)) hmem
    rw [hroom.charge (by omega)] at hw
    cases hw
  | case4 seen w i j rest hmem w1 hw hend =>
    have hpay := unpaid_insert (fun _ => 1) (hpend _ (.head _)) hmem
    rw [hroom.charge (by omega)] at hw
    cases hw
    refine ⟨true, _, rfl, ?_, ?_⟩
    · simp only
      omega
    · simp only
      omega
  | case5 seen w i j rest hmem w1 hw hend ih =>
    have hpay := unpaid_insert (fun _ => 1) (hpend _ (.head _)) hmem
    rw [hroom.charge (by omega)] at hw
    cases hw
    have hnext : ∀ x ∈ (segmentEdges (as.map asciiLower) (bs.map asciiLower) i j).reverse ++ rest,
        x ∈ grid as.length bs.length := by
      intro x hx
      rcases mem_append.mp hx with hx | hx
      · have hij := hpend _ (.head _)
        rcases (mem_segmentEdges as bs).mp (mem_reverse.mp hx) with hedge | ⟨rfl, -⟩
        · simpa using edge_mem_grid hedge (by simpa using hij)
        · exact hij
      · exact hpend x (.tail _ hx)
    obtain ⟨hp, ht⟩ := hroom
    obtain ⟨r, w', hr, hp', ht'⟩ := ih hnext ⟨by simp only; omega, by simp only; omega⟩
    simp only at hp' ht'
    exact ⟨r, w', hr, by omega, by omega⟩

/-- **A segment search ends with an answer if there is room for its nodes.** -/
theorem segmentIntersects_work (a b : Text) (w : Work)
    (hroom : Room w ((byteLen a + 1) * (byteLen b + 1))) :
    ∃ r w', segmentIntersects a b w = .ok (r, w')
      ∧ Within w w' ((byteLen a + 1) * (byteLen b + 1)) := by
  have hcost : unpaid (fun _ => 1) (grid (utf8 a).length (utf8 b).length) ∅
      = (byteLen a + 1) * (byteLen b + 1) := by
    simp [unpaid, grid, byteLen]
  rw [← hcost] at hroom ⊢
  refine segmentLoop_work (utf8 a) (utf8 b) [(0, 0)] ∅ w ?_ hroom
  intro x hx
  rw [mem_singleton.mp hx, mem_grid]
  exact ⟨Nat.zero_le _, Nat.zero_le _⟩

/-- **A segment search decides whether two segment patterns have a segment in common.** -/
theorem segmentIntersects_spec {a b : Text} {w w' : Work} {r : Bool} (ha : '/' ∉ a) (hb : '/' ∉ b)
    (h : segmentIntersects a b w = .ok (r, w')) :
    r = true ↔ ∃ x ∈ segmentLanguage a, ∃ y ∈ segmentLanguage b, SameText x y := by
  rw [segmentLoop_spec (utf8 a) (utf8 b) Worklist.init h]
  have hletters : ∀ t : Text, '/' ∉ t → ∀ letters, .one letters ∈ (utf8 t).map segmentToken →
      ∃ b ∈ letters, b ∈ inSegment := by
    intro t ht letters hl
    obtain ⟨c, hc, htok⟩ := mem_map.mp hl
    unfold segmentToken at htok
    split at htok
    · cases htok
    · cases htok
      refine ⟨c, rfl, ?_⟩
      rintro rfl
      exact slash_not_mem_utf8 ht hc
  have hwalk : Reaches (Edge SameByte ((utf8 a).map segmentToken) ((utf8 b).map segmentToken))
      (AtEnd ((utf8 a).map segmentToken) ((utf8 b).map segmentToken)) (0, 0)
      ↔ Meet inSegment SameByte ((utf8 a).map segmentToken) ((utf8 b).map segmentToken) :=
    reaches_end_iff (fun _ => rfl) (hletters a ha) (hletters b hb)
  rw [hwalk]
  have hforall : ∀ u v : List UInt8, List.Forall₂ SameByte u v ↔ SameText u v := by
    intro u v
    unfold SameText
    rw [← forall₂_eq_eq_eq, forall₂_map_left_iff, forall₂_map_right_iff]
    rfl
  unfold Meet
  simp only [hforall]
  constructor
  · rintro ⟨u, v, hu, hv, huv⟩
    exact ⟨u, hu, v, hv, huv⟩
  · rintro ⟨u, hu, v, hv, huv⟩
    exact ⟨u, v, hu, hv, huv⟩

/-! ## The pattern search -/

section

variable (as bs : List Text)

theorem literalPair_eq_some {i j : Nat} {x y : Text} (h : literalPair as bs i j = some (x, y)) :
    as[i]? = some x ∧ bs[j]? = some y ∧ x ≠ doubleStar ∧ y ≠ doubleStar := by
  unfold literalPair at h
  split at h
  · rename_i x' y' hx hy
    split_ifs at h with hne
    cases h
    exact ⟨hx, hy, hne.1, hne.2⟩
  · cases h

theorem pathToken_ne {x : Text} (h : x ≠ doubleStar) :
    pathToken x = .one (segmentLanguage x) := if_neg h

/-- Where both sides want a segment, the walk goes on if the segment patterns meet. -/
theorem edge_of_literalPair {i j : Nat} {x y : Text} (h : literalPair as bs i j = some (x, y))
    (z : Nat × Nat) :
    Edge SameText (as.map pathToken) (bs.map pathToken) (i, j) z ↔ z = (i + 1, j + 1)
        ∧ ∃ u ∈ segmentLanguage x, ∃ v ∈ segmentLanguage y, SameText u v := by
  obtain ⟨hx, hy, hxs, hys⟩ := literalPair_eq_some as bs h
  rw [edge_iff]
  simp [List.getElem?_map, hx, hy, pathToken_ne hxs, pathToken_ne hys]

/-- Elsewhere the edges the code follows are those of the walk, and the loop from two `**` to
themselves. -/
theorem mem_patternEdges {i j : Nat} (h : literalPair as bs i j = none) {z : Nat × Nat} :
    z ∈ patternEdges as bs i j ↔ Edge SameText (as.map pathToken) (bs.map pathToken) (i, j) z
        ∨ (z = (i, j) ∧ as[i]? = some doubleStar ∧ bs[j]? = some doubleStar) := by
  rw [edge_iff]
  simp only [patternEdges, literalPair, List.getElem?_map, mem_append] at h ⊢
  rcases hx : as[i]? with _ | x <;> rcases hy : bs[j]? with _ | y
  · have hi : ¬ i < as.length := by simpa using hx
    simp [hi]
  · have hi : ¬ i < as.length := by simpa using hx
    by_cases hys : y = doubleStar <;> simp [pathToken, hys, hi]
  · have hj : ¬ j < bs.length := by simpa using hy
    by_cases hxs : x = doubleStar <;> simp [pathToken, hxs, hj]
  · have hi : i < as.length := (List.getElem?_eq_some_iff.mp hx).1
    have hj : j < bs.length := (List.getElem?_eq_some_iff.mp hy).1
    by_cases hxs : x = doubleStar
    · by_cases hys : y = doubleStar
      · simp [pathToken, hxs, hys, hi, hj]
      · simp [pathToken, hxs, hys, hi, hj]
    · by_cases hys : y = doubleStar
      · simp [pathToken, hxs, hys, hi, hj]
      · simp [hx, hy, hxs, hys] at h

/-- **The pattern search answers as the walk does.** -/
theorem patternLoop_spec {pending : List (Nat × Nat)} {seen : Finset (Nat × Nat)} {w w' : Work}
    {r : Bool} (ha : ∀ x ∈ as, '/' ∉ x) (hb : ∀ y ∈ bs, '/' ∉ y)
    (hwork : Worklist (Edge SameText (as.map pathToken) (bs.map pathToken))
      (AtEnd (as.map pathToken) (bs.map pathToken)) (0, 0) pending seen)
    (h : patternLoop as bs pending seen w = .ok (r, w')) :
    r = true ↔ Reaches (Edge SameText (as.map pathToken) (bs.map pathToken))
      (AtEnd (as.map pathToken) (bs.map pathToken)) (0, 0) := by
  fun_induction patternLoop as bs pending seen w with
  | case1 =>
    cases h
    simpa using hwork.exhausted
  | case2 seen w i j rest hmem ih => exact ih (hwork.skip hmem) h
  | case3 => cases h
  | case4 => cases h
  | case5 seen w i j rest hmem w1 hw x y hlit hit w2 hs ih =>
    obtain ⟨hx, hy, -, -⟩ := literalPair_eq_some as bs hlit
    have hseg := segmentIntersects_spec (ha x (mem_of_getElem? hx)) (hb y (mem_of_getElem? hy)) hs
    have hedge := edge_of_literalPair as bs hlit
    have hend : ¬ AtEnd (as.map pathToken) (bs.map pathToken) (i, j) := by
      intro hend
      have hi := (List.getElem?_eq_some_iff.mp hx).1
      simp only [AtEnd, length_map, Prod.mk.injEq] at hend
      omega
    cases hit with
    | true =>
      have hvisit : Worklist (Edge SameText (as.map pathToken) (bs.map pathToken))
          (AtEnd (as.map pathToken) (bs.map pathToken)) (0, 0)
          ([(i + 1, j + 1)] ++ rest) (insert (i, j) seen) := by
        apply hwork.visit hend
        · intro z hz
          exact .inl ((hedge z).mpr ⟨mem_singleton.mp hz, hseg.mp rfl⟩)
        · intro z hz
          exact mem_singleton.mpr ((hedge z).mp hz).1
      exact ih hvisit h
    | false =>
      have hvisit : Worklist (Edge SameText (as.map pathToken) (bs.map pathToken))
          (AtEnd (as.map pathToken) (bs.map pathToken)) (0, 0)
          ([] ++ rest) (insert (i, j) seen) := by
        apply hwork.visit hend
        · simp
        · intro z hz
          cases hseg.mpr ((hedge z).mp hz).2
      exact ih hvisit h
  | case6 seen w i j rest hmem w1 hw hlit hend =>
    cases h
    have hgoal : AtEnd (as.map pathToken) (bs.map pathToken) (i, j) := by
      simpa [AtEnd] using hend
    simpa using hwork.found hgoal
  | case7 seen w i j rest hmem w1 hw hlit hend ih =>
    refine ih (hwork.visit ?_ ?_ ?_) h
    · simpa [AtEnd] using hend
    · intro z hz
      rcases (mem_patternEdges as bs hlit).mp (mem_reverse.mp hz) with hedge | ⟨rfl, -⟩
      · exact .inl hedge
      · exact .inr rfl
    · intro z hz
      exact mem_reverse.mpr ((mem_patternEdges as bs hlit).mpr (.inl hz))

/-! ## The budget of the pattern search -/

/-- The bytes of segment `i`, and one more. -/
def segmentSize (i : Nat) : Nat :=
  match as[i]? with
  | some s => byteLen s + 1
  | none => 0

/-- What a node can cost: itself, and a segment search. -/
def nodeCost (x : Nat × Nat) : Nat := 1 + segmentSize as x.1 * segmentSize bs x.2

theorem nodeCost_pos (x : Nat × Nat) : 0 < nodeCost as bs x := Nat.add_pos_left Nat.one_pos _

theorem patternLoop_work (pending : List (Nat × Nat)) (seen : Finset (Nat × Nat)) (w : Work)
    (hpend : ∀ x ∈ pending, x ∈ grid as.length bs.length)
    (hroom : Room w (unpaid (nodeCost as bs) (grid as.length bs.length) seen)) :
    ∃ r w', patternLoop as bs pending seen w = .ok (r, w') := by
  fun_induction patternLoop as bs pending seen w with
  | case1 seen w => exact ⟨false, w, rfl⟩
  | case2 seen w i j rest hmem ih =>
    exact ih (fun x hx => hpend x (.tail _ hx)) hroom
  | case3 seen w i j rest hmem e hw =>
    have hpay := unpaid_insert (nodeCost as bs) (hpend _ (.head _)) hmem
    have hcost := nodeCost_pos as bs (i, j)
    rw [hroom.charge (by omega)] at hw
    cases hw
  | case4 seen w i j rest hmem w1 hw x y hlit e hs =>
    have hpay := unpaid_insert (nodeCost as bs) (hpend _ (.head _)) hmem
    obtain ⟨hx, hy, -, -⟩ := literalPair_eq_some as bs hlit
    simp only [nodeCost, segmentSize, hx, hy] at hpay
    rw [hroom.charge (by omega)] at hw
    cases hw
    obtain ⟨hp, ht⟩ := hroom
    obtain ⟨r, w', hok, -⟩ := segmentIntersects_work x y
      { pair := w.pair + 1, total := w.total + 1 } ⟨by simp only; omega, by simp only; omega⟩
    rw [hok] at hs
    cases hs
  | case5 seen w i j rest hmem w1 hw x y hlit hit w2 hs ih =>
    have hpay := unpaid_insert (nodeCost as bs) (hpend _ (.head _)) hmem
    obtain ⟨hx, hy, -, -⟩ := literalPair_eq_some as bs hlit
    simp only [nodeCost, segmentSize, hx, hy] at hpay
    rw [hroom.charge (by omega)] at hw
    cases hw
    obtain ⟨hp, ht⟩ := hroom
    obtain ⟨r, w', hok, hp', ht'⟩ := segmentIntersects_work x y
      { pair := w.pair + 1, total := w.total + 1 } ⟨by simp only; omega, by simp only; omega⟩
    rw [hok] at hs
    cases hs
    simp only at hp' ht'
    apply ih
    · intro z hz
      have hi := (List.getElem?_eq_some_iff.mp hx).1
      have hj := (List.getElem?_eq_some_iff.mp hy).1
      split at hz
      · rcases mem_cons.mp hz with rfl | hz
        · exact mem_grid.mpr ⟨hi, hj⟩
        · exact hpend z (.tail _ hz)
      · exact hpend z (.tail _ hz)
    · exact ⟨by omega, by omega⟩
  | case6 seen w i j rest hmem w1 hw hlit hend => exact ⟨true, w1, rfl⟩
  | case7 seen w i j rest hmem w1 hw hlit hend ih =>
    have hpay := unpaid_insert (nodeCost as bs) (hpend _ (.head _)) hmem
    have hcost := nodeCost_pos as bs (i, j)
    rw [hroom.charge (by omega)] at hw
    cases hw
    obtain ⟨hp, ht⟩ := hroom
    apply ih
    · intro z hz
      rcases mem_append.mp hz with hz | hz
      · have hij := hpend _ (.head _)
        rcases (mem_patternEdges as bs hlit).mp (mem_reverse.mp hz) with hedge | ⟨rfl, -⟩
        · simpa using edge_mem_grid hedge (by simpa using hij)
        · exact hij
      · exact hpend z (.tail _ hz)
    · exact ⟨by simp only; omega, by simp only; omega⟩

theorem sum_segmentSize :
    ∑ i ∈ Finset.range (as.length + 1), segmentSize as i = (as.map fun s => byteLen s + 1).sum := by
  have hlast : segmentSize as as.length = 0 := by simp [segmentSize]
  rw [Finset.sum_range_succ, hlast, Nat.add_zero]
  induction as with
  | nil => rfl
  | cons s as ih =>
    have hhead : segmentSize (s :: as) 0 = byteLen s + 1 := rfl
    have htail : ∀ i, segmentSize (s :: as) (i + 1) = segmentSize as i := fun i => rfl
    rw [length_cons, Finset.sum_range_succ', map_cons, sum_cons, hhead]
    simp only [htail]
    rw [ih (by simp [segmentSize]), Nat.add_comm]

/-- The nodes of all searches of two patterns. -/
theorem unpaid_nodeCost :
    unpaid (nodeCost as bs) (grid as.length bs.length) ∅ = (as.length + 1) * (bs.length + 1)
        + (as.map fun s => byteLen s + 1).sum * (bs.map fun s => byteLen s + 1).sum := by
  rw [← sum_segmentSize, ← sum_segmentSize, Finset.sum_mul_sum, ← Finset.sum_product']
  unfold unpaid nodeCost grid
  rw [Finset.sdiff_empty, Finset.sum_add_distrib]
  simp

end

/-! ## Canonical patterns -/

theorem canonicalPattern_bounds {p : Text} (h : canonicalPattern p = true) :
    byteLen p ≤ 256 ∧ (p.splitOn '/').length ≤ 32 := by
  unfold canonicalPattern canonicalRepoRelativePath at h
  rw [beq_iff_eq] at h
  dsimp only at h
  split_ifs at h with hlen hbad
  rw [Option.some.injEq] at h
  rw [h] at hbad
  simp only [Bool.or_eq_true, decide_eq_true_eq, not_or] at hbad
  exact ⟨Nat.le_of_not_lt hlen, Nat.le_of_not_lt hbad.1.1.1.1.1.1.2⟩

/-- **Two canonical patterns are compared within the budget of a pair.** -/
theorem patternsIntersect_ok {a b : Text} (ha : canonicalPattern a = true)
    (hb : canonicalPattern b = true) {total : Nat} (ht : total ≤ 49000000) :
    ∃ r total', patternsIntersect a b total = .ok (r, total') := by
  obtain ⟨hal, has⟩ := canonicalPattern_bounds ha
  obtain ⟨hbl, hbs⟩ := canonicalPattern_bounds hb
  have hcost : unpaid (nodeCost (a.splitOn '/') (b.splitOn '/'))
      (grid (a.splitOn '/').length (b.splitOn '/').length) ∅ ≤ 67138 := by
    rw [unpaid_nodeCost, sum_byteLen_splitOn, sum_byteLen_splitOn]
    have hgrid : ((a.splitOn '/').length + 1) * ((b.splitOn '/').length + 1) ≤ 33 * 33 :=
      Nat.mul_le_mul (Nat.add_le_add_right has 1) (Nat.add_le_add_right hbs 1)
    have hbytes : (byteLen a + 1) * (byteLen b + 1) ≤ 257 * 257 :=
      Nat.mul_le_mul (Nat.add_le_add_right hal 1) (Nat.add_le_add_right hbl 1)
    omega
  obtain ⟨r, w, hw⟩ := patternLoop_work (a.splitOn '/') (b.splitOn '/') [(0, 0)] ∅
    { pair := 0, total := total } (by simp [mem_grid]) (by
      constructor
      · simp only [maxPairMatchWork]
        omega
      · simp only [maxTotalMatchWork]
        omega)
  refine ⟨r, w.total, ?_⟩
  unfold patternsIntersect
  rw [if_neg (by simp [ha, hb]), hw]
  rfl

/-- **An answer is right**, whatever work was done before. -/
theorem patternsIntersect_spec {a b : Text} {total total' : Nat} {r : Bool}
    (h : patternsIntersect a b total = .ok (r, total')) : r = true ↔ Common a b := by
  unfold patternsIntersect at h
  split_ifs at h
  cases hloop : patternLoop (a.splitOn '/') (b.splitOn '/') [(0, 0)] ∅
    { pair := 0, total := total } with
  | error e =>
    rw [hloop] at h
    cases h
  | ok res =>
    rw [hloop] at h
    cases h
    have hletters : ∀ t : Text, ∀ letters, .one letters ∈ (t.splitOn '/').map pathToken →
        ∃ w ∈ letters, w ∈ isSegment := by
      intro t letters hl
      obtain ⟨seg, hseg, htok⟩ := mem_map.mp hl
      unfold pathToken at htok
      split at htok
      · cases htok
      · cases htok
        obtain ⟨w, hw⟩ := segmentLanguage_nonempty seg
        exact ⟨w, hw, segmentLanguage_subset (Split.not_mem_of_mem_splitOn hseg) hw⟩
    have hwalk : Reaches (Edge SameText ((a.splitOn '/').map pathToken)
          ((b.splitOn '/').map pathToken))
        (AtEnd ((a.splitOn '/').map pathToken) ((b.splitOn '/').map pathToken)) (0, 0)
        ↔ Meet isSegment SameText ((a.splitOn '/').map pathToken) ((b.splitOn '/').map pathToken) :=
      reaches_end_iff (fun _ => rfl) (hletters a) (hletters b)
    rw [← meet_iff_common, ← hwalk]
    exact patternLoop_spec _ _ (fun x hx => Split.not_mem_of_mem_splitOn hx)
      (fun y hy => Split.not_mem_of_mem_splitOn hy) Worklist.init hloop

end Thegn.Pipeline
