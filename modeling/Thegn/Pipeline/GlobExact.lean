import Thegn.Pipeline.Glob
import Thegn.Pipeline.Intersect

set_option autoImplicit false

/-! # Matching a path is exact

`matchSegmentLoop` only goes back to its last star. That loses nothing: what is between two stars is
found at the earliest place, and a later place for it leaves less for what follows (`Pending.star`).
`matchSegmentsFrom` remembers only right results, and visits each pair of positions once, so its
limit on the work is never reached (`Visited`). Together with soundness this makes `globMatch` the
language of the pattern (`globMatch_iff`).
-/

namespace Thegn.Pipeline

open Text Wildcard List

/-! ## The language, over characters -/

def globToken (seg : Text) : Token Text :=
  if seg = doubleStar then .star else .one {w | Accepts Set.univ (seg.map charToken) w}

/-- **The paths a pattern stands for**: `*` is any run of characters in a segment, a segment `**`
any number of segments, and every other character is itself. -/
def globLanguage (pattern : Text) : Set Text :=
  {path | Accepts Set.univ ((pattern.splitOn '/').map globToken) (path.splitOn '/')}

/-! ## One segment -/

section Segment

variable {p t : Text}

/-- What is left of the pattern accepts what is left of the segment. -/
def Rest (p t : Text) (i k : Nat) : Prop := Accepts Set.univ ((p.drop i).map charToken) (t.drop k)

theorem charToken_star : charToken '*' = .star := rfl

theorem Rest.star_inv {i k : Nat} (h : Rest p t i k) (hp : p[i]? = some '*') (hk : k ≤ t.length) :
    ∃ l, k ≤ l ∧ l ≤ t.length ∧ Rest p t (i + 1) l := by
  unfold Rest at h
  rw [drop_eq_cons hp, map_cons, charToken_star] at h
  generalize hps : Token.star :: (p.drop (i + 1)).map charToken = ps at h
  generalize hw : t.drop k = w at h
  induction h generalizing k with
  | nil => cases hps
  | one _ _ _ => cases hps
  | @skip ps w rest _ =>
    cases hps
    exact ⟨k, Nat.le_refl k, hk, by rw [Rest, hw]; exact rest⟩
  | @eat ps a w _ _ ih =>
    obtain ⟨hget, hdrop⟩ := getElem?_of_drop hw
    have hlt := (List.getElem?_eq_some_iff.mp hget).1
    obtain ⟨l, hl, hlen, hrest⟩ := ih hlt hps hdrop.symm
    exact ⟨l, by omega, hlen, hrest⟩

theorem Rest.one_inv {i k : Nat} {c : Char} (h : Rest p t i k) (hp : p[i]? = some c)
    (hc : c ≠ '*') : t[k]? = some c ∧ Rest p t (i + 1) (k + 1) := by
  unfold Rest at h
  rw [drop_eq_cons hp, map_cons, charToken, if_neg hc] at h
  generalize hw : t.drop k = w at h
  cases h with
  | one ha rest =>
    obtain ⟨hget, hdrop⟩ := getElem?_of_drop hw
    rw [Set.mem_singleton_iff.mp ha] at hget
    exact ⟨hget, by rw [Rest, ← hdrop]; exact rest⟩

/-- A block of the pattern without stars takes as many characters as it has. -/
theorem Rest.block {i k : Nat} (n : Nat) (h : Rest p t i k) (hk : k ≤ t.length)
    (hn : i + n ≤ p.length)
    (hstars : ∀ x, i ≤ x → x < i + n → p[x]? ≠ some '*') :
    k + n ≤ t.length ∧ Rest p t (i + n) (k + n) := by
  induction n with
  | zero => exact ⟨hk, h⟩
  | succ n ih =>
    obtain ⟨-, hrest⟩ := ih (by omega) fun x hx hlt => hstars x hx (by omega)
    have hget : p[i + n]? = some p[i + n] := List.getElem?_eq_getElem (by omega)
    obtain ⟨ht, hrest'⟩ := hrest.one_inv hget fun hc =>
      hstars (i + n) (by omega) (by omega) (hget.trans (congrArg some hc))
    exact ⟨(List.getElem?_eq_some_iff.mp ht).1, hrest'⟩

/-- A match of the whole is one of what is left, or one that begins later behind the last star. -/
def Pending (p t : Text) (pi ti : Nat) (star : Option Nat) (mark : Nat) : Prop :=
  Rest p t pi ti ∨ ∃ sp, star = some sp ∧ ∃ m, mark < m ∧ m ≤ t.length ∧ Rest p t (sp + 1) m

/-- The block behind the last star was found from `mark` on. -/
structure Block (p t : Text) (pi ti sp mark : Nat) : Prop where
  behind : sp < pi
  bound : pi ≤ p.length
  place : ti = mark + (pi - (sp + 1))
  plain : ∀ x, sp + 1 ≤ x → x < pi → p[x]? ≠ some '*'

/-- A match that begins later also ends later. -/
theorem Block.later {pi ti sp mark m : Nat} (h : Block p t pi ti sp mark) (hm : mark < m)
    (hlen : m ≤ t.length)
    (hrest : Rest p t (sp + 1) m) : ∃ l, ti < l ∧ l ≤ t.length ∧ Rest p t pi l := by
  have hb := h.behind
  have hbound := h.bound
  have hplain := h.plain
  obtain ⟨hle, hrest'⟩ :=
    hrest.block (pi - (sp + 1)) hlen (by omega) fun x hx hlt => hplain x hx (by omega)
  rw [show sp + 1 + (pi - (sp + 1)) = pi by omega] at hrest'
  exact ⟨m + (pi - (sp + 1)), by rw [h.place]; omega, hle, hrest'⟩

/-- **Going on from a new star loses nothing**: the block before it may as well stay where it was
found. -/
theorem Pending.star {pi ti mark : Nat} {star : Option Nat} (h : Pending p t pi ti star mark)
    (hti : ti ≤ t.length)
    (hp : p[pi]? = some '*') (hblock : ∀ sp, star = some sp → Block p t pi ti sp mark) :
    Pending p t (pi + 1) ti (some pi) ti := by
  have hbehind : ∀ l, ti ≤ l → l ≤ t.length → Rest p t (pi + 1) l →
    Pending p t (pi + 1) ti (some pi) ti := by
    intro l hl hlen hrest
    rcases Nat.eq_or_lt_of_le hl with rfl | hlt
    · exact .inl hrest
    · exact .inr ⟨pi, rfl, l, hlt, hlen, hrest⟩
  rcases h with hrest | ⟨sp, hsp, m, hm, hlen, hrest⟩
  · obtain ⟨l, hl, hlen, hrest'⟩ := hrest.star_inv hp hti
    exact hbehind l hl hlen hrest'
  · obtain ⟨l, hl, hlen', hrest'⟩ := (hblock sp hsp).later hm hlen hrest
    obtain ⟨l', hl', hlen'', hrest''⟩ := hrest'.star_inv hp hlen'
    exact hbehind l' (by omega) hlen'' hrest''

/-- A character that the pattern does not want next. -/
theorem not_rest_of_ne {pi ti : Nat} (hlt : ti < t.length) (hns : ¬ p[pi]? = some '*')
    (hp : ¬ p[pi]? = some t[ti]) : ¬ Rest p t pi ti := by
  intro hrest
  cases hget : p[pi]? with
  | none =>
    unfold Rest at hrest
    rw [drop_eq_nil_of_le (List.getElem?_eq_none_iff.mp hget),
      drop_eq_cons (List.getElem?_eq_getElem hlt)] at hrest
    cases hrest
  | some c =>
    obtain ⟨ht, -⟩ := hrest.one_inv hget fun hc => hns (hget.trans (congrArg some hc))
    rw [List.getElem?_eq_getElem hlt] at ht
    exact hp (hget.trans ht.symm)

/-- What is left of the pattern accepts nothing only if it is stars. -/
theorem all_star_of_accepts {p : Text} (h : Accepts Set.univ (p.map charToken) []) :
    p.all (· == '*') = true := by
  induction p with
  | nil => rfl
  | cons c p ih =>
    rw [map_cons, charToken] at h
    split_ifs at h with hc
    · cases h with
      | skip rest => rw [all_cons, hc, ih rest]; rfl
    · cases h

theorem matchSegmentLoop_complete {pi ti : Nat} {star : Option Nat} {mark : Nat} {hle : mark ≤ ti}
    (hti : ti ≤ t.length) (hpending : Pending p t pi ti star mark)
    (hblock : ∀ sp, star = some sp → p[sp]? = some '*' ∧ Block p t pi ti sp mark) :
    matchSegmentLoop p t pi ti star mark hle = true := by
  fun_induction matchSegmentLoop p t pi ti star mark hle with
  | case1 pi ti star mark hle hlt hp ih =>
    refine ih hti (hpending.star hti hp fun sp hsp => (hblock sp hsp).2) ?_
    rintro sp ⟨⟩
    have hbound := (List.getElem?_eq_some_iff.mp hp).1
    exact ⟨hp, ⟨Nat.lt_succ_self pi, hbound, by omega, fun x hx hlt => by omega⟩⟩
  | case2 pi ti star mark hle hlt hns hp ih =>
    refine ih hlt ?_ ?_
    · rcases hpending with hrest | hlater
      · refine .inl (hrest.one_inv hp fun hc => hns (hp.trans (congrArg some hc))).2
      · exact .inr hlater
    · intro sp hsp
      obtain ⟨hstar, hb⟩ := hblock sp hsp
      have hbehind := hb.behind
      refine ⟨hstar, ⟨by omega, (List.getElem?_eq_some_iff.mp hp).1, by rw [hb.place]; omega,
        fun x hx hlt' => ?_⟩⟩
      rcases Nat.lt_succ_iff_lt_or_eq.mp hlt' with hlt' | rfl
      · exact hb.plain x hx hlt'
      · exact hns
  | case3 pi ti mark hle hlt hns hp sp ih =>
    have hnow := not_rest_of_ne hlt hns hp
    obtain ⟨hstar, hb⟩ := hblock sp rfl
    refine ih (by omega) ?_ ?_
    · rcases hpending with hrest | ⟨sp', hsp', m, hm, hlen, hrest⟩
      · exact absurd hrest hnow
      · cases hsp'
        rcases Nat.eq_or_lt_of_le (Nat.succ_le_of_lt hm) with rfl | hlt'
        · exact .inl hrest
        · exact .inr ⟨sp, rfl, m, hlt', hlen, hrest⟩
    · rintro sp' ⟨⟩
      exact ⟨hstar, ⟨Nat.lt_succ_self sp, (List.getElem?_eq_some_iff.mp hstar).1, by omega,
        fun x hx hlt' => by omega⟩⟩
  | case4 pi ti mark hle hlt hns hp =>
    rcases hpending with hrest | ⟨sp, hsp, -⟩
    · exact absurd hrest (not_rest_of_ne hlt hns hp)
    · cases hsp
  | case5 pi ti star mark hle hge =>
    have hfull : ti = t.length := by omega
    rcases hpending with hrest | ⟨sp, hsp, m, hm, hlen, hrest⟩
    · unfold Rest at hrest
      rw [drop_eq_nil_of_le (by omega : t.length ≤ ti)] at hrest
      exact all_star_of_accepts hrest
    · obtain ⟨l, hl, hlen', -⟩ := (hblock sp hsp).2.later hm hlen hrest
      omega

theorem matchSegment_iff {pat seg : Text} :
    matchSegment pat seg = true ↔ Accepts Set.univ (pat.map charToken) seg := by
  constructor
  · intro h
    have hstart : Matched pat seg 0 0 := Accepts.nil
    exact matchSegmentLoop_sound (Nat.zero_le _) hstart (by simp) h
  · intro h
    refine matchSegmentLoop_complete (Nat.zero_le _) (.inl ?_) (by simp)
    rw [Rest, drop_zero, drop_zero]
    exact h

end Segment

/-! ## All segments -/

/-- The segment patterns accept the segments. -/
def Segments (p s : List Text) : Prop := Accepts Set.univ (p.map globToken) s

theorem segments_nil {s : List Text} : Segments [] s ↔ s.isEmpty = true := by
  rw [List.isEmpty_iff]
  constructor
  · intro h
    cases h
    rfl
  · rintro rfl
    exact .nil

theorem segments_star_nil {p : List Text} : Segments (doubleStar :: p) [] ↔ Segments p [] := by
  unfold Segments
  rw [map_cons, globToken, if_pos rfl]
  constructor
  · intro h
    cases h with
    | skip rest => exact rest
  · exact .skip

theorem segments_star_cons {p s : List Text} {seg : Text} :
    Segments (doubleStar :: p) (seg :: s) ↔ Segments p (seg :: s) ∨
    Segments (doubleStar :: p) s := by
  unfold Segments
  rw [map_cons, globToken, if_pos rfl]
  constructor
  · intro h
    cases h with
    | skip rest => exact .inl rest
    | eat _ rest => exact .inr rest
  · rintro (h | h)
    · exact .skip h
    · exact .eat (Set.mem_univ _) h

theorem segments_one_nil {p : List Text} {pat : Text} (hpat : pat ≠ doubleStar) :
    ¬ Segments (pat :: p) [] := by
  unfold Segments
  rw [map_cons, globToken, if_neg hpat]
  intro h
  cases h

theorem segments_one_cons {p s : List Text} {pat seg : Text} (hpat : pat ≠ doubleStar) :
    Segments (pat :: p) (seg :: s) ↔ matchSegment pat seg = true ∧ Segments p s := by
  unfold Segments
  rw [map_cons, globToken, if_neg hpat, matchSegment_iff]
  constructor
  · intro h
    cases h with
    | one ha rest => exact ⟨ha, rest⟩
  · rintro ⟨ha, rest⟩
    exact .one ha rest

/-- The positions with a remembered result. -/
def Memo.keys (memo : Memo) : List (Nat × Nat) := memo.results.map Prod.fst

/-- What is remembered for the patterns `P` and the segments `S`, `depth` calls deep: each position
once, each result right, and no more work than positions and open calls. -/
structure Visited (P S : List Text) (depth : Nat) (memo : Memo) : Prop where
  nodup : memo.keys.Nodup
  within : ∀ x ∈ memo.keys, x.1 ≤ P.length ∧ x.2 ≤ S.length
  right : ∀ i j b, ((i, j), b) ∈ memo.results → (b = true ↔ Segments (P.drop i) (S.drop j))
  work : memo.work ≤ memo.keys.length + depth

/-- What a call at `(i, j)` answers and leaves. -/
structure Answer (P S p s : List Text) (depth i j : Nat) (memo : Memo) (r : Bool × Memo) :
    Prop where
  visited : Visited P S depth r.2
  answer : r.1 = true ↔ Segments p s
  later : ∀ x ∈ r.2.keys, x ∈ memo.keys ∨ i ≤ x.1 ∧ j ≤ x.2

theorem Visited.keys_length {P S : List Text} {depth : Nat} {memo : Memo}
    (h : Visited P S depth memo) : memo.keys.length ≤ (P.length + 1) * (S.length + 1) := by
  have hsub : memo.keys.toFinset ⊆ Finset.range (P.length + 1) ×ˢ Finset.range (S.length + 1) := by
    intro x hx
    obtain ⟨hi, hj⟩ := h.within x (mem_toFinset.mp hx)
    rw [Finset.mem_product, Finset.mem_range, Finset.mem_range]
    omega
  have hcard := Finset.card_le_card hsub
  rwa [toFinset_card_of_nodup h.nodup, Finset.card_product, Finset.card_range,
    Finset.card_range] at hcard

theorem lookup_none_iff {i j : Nat} {l : List ((Nat × Nat) × Bool)} :
    l.lookup (i, j) = none ↔ (i, j) ∉ l.map Prod.fst := by
  rw [lookup_eq_none_iff]
  constructor
  · intro h hmem
    obtain ⟨x, hx, heq⟩ := mem_map.mp hmem
    have hne := h x hx
    rw [heq] at hne
    simp at hne
  · intro h x hx
    rw [bne_iff_ne]
    intro heq
    exact h (heq ▸ mem_map_of_mem hx)

/-- One more call is open. -/
theorem Visited.tick {P S : List Text} {depth : Nat} {memo : Memo} (h : Visited P S depth memo) :
    Visited P S (depth + 1) memo.tick :=
  ⟨h.nodup, h.within, h.right, Nat.succ_le_succ h.work⟩

/-- A call ends: its result is remembered. -/
theorem Visited.remember {P S p s : List Text} {depth i j : Nat} (memo : Memo) {r : Bool × Memo}
    (h : Visited P S (depth + 1) r.2) (hlook : memo.results.lookup (i, j) = none)
    (hp : p = P.drop i) (hs : s = S.drop j)
    (hi : i ≤ P.length) (hj : j ≤ S.length) (hanswer : r.1 = true ↔ Segments p s)
    (hlater : ∀ x ∈ r.2.keys, x ∈ memo.keys ∨ x ≠ (i, j) ∧ i ≤ x.1 ∧ j ≤ x.2) :
    Answer P S p s depth i j memo (remember i j r) := by
  have hfresh : (i, j) ∉ r.2.keys := by
    intro hmem
    rcases hlater _ hmem with hold | ⟨hne, -⟩
    · exact lookup_none_iff.mp hlook hold
    · exact hne rfl
  refine ⟨⟨nodup_cons.mpr ⟨hfresh, h.nodup⟩, ?_, ?_, ?_⟩, hanswer, ?_⟩
  · intro x hx
    rcases mem_cons.mp hx with rfl | hx
    · exact ⟨hi, hj⟩
    · exact h.within x hx
  · intro i' j' b hmem
    rcases mem_cons.mp hmem with heq | hmem
    · cases heq
      rw [← hp, ← hs]
      exact hanswer
    · exact h.right i' j' b hmem
  · have hwork := h.work
    show r.2.work ≤ ((i, j) :: r.2.keys).length + depth
    rw [length_cons]
    omega
  · intro x hx
    rcases mem_cons.mp hx with rfl | hx
    · exact .inr ⟨le_rfl, le_rfl⟩
    · exact (hlater x hx).imp id fun hx => hx.2

/-- The keys after a call with a greater position are not this position. -/
theorem later_ne {i j i' j' : Nat} {keys keys' : List (Nat × Nat)}
    (h : ∀ x ∈ keys', x ∈ keys ∨ i' ≤ x.1 ∧ j' ≤ x.2) (hi : i ≤ i') (hj : j ≤ j')
    (hne : i < i' ∨ j < j') : ∀ x ∈ keys', x ∈ keys ∨ x ≠ (i, j) ∧ i ≤ x.1 ∧ j ≤ x.2 := by
  intro x hx
  refine (h x hx).imp id fun hx => ⟨?_, by omega, by omega⟩
  rintro rfl
  dsimp only at hx
  omega

/-- **The matcher is exact**, and its limit on the work is out of reach. -/
theorem matchSegmentsFrom_answer {P S : List Text}
    (hsmall : (P.length + 1) * (S.length + 1) + P.length + S.length < maxPairMatchWork)
    {p s : List Text} {i j : Nat}
    {memo : Memo} {depth : Nat} (hp : p = P.drop i) (hs : s = S.drop j) (hi : i ≤ P.length)
    (hj : j ≤ S.length) (hdepth : depth ≤ i + j) (hv : Visited P S depth memo) :
    Answer P S p s depth i j memo (matchSegmentsFrom p s i j memo) := by
  have hlt : ∀ {l : List Text} {x : Text} {L : List Text} {k : Nat}, x :: l = L.drop k →
    k + 1 ≤ L.length := by
    intro l x L k h
    exact (List.getElem?_eq_some_iff.mp (getElem?_of_drop h.symm).1).1
  fun_induction matchSegmentsFrom p s i j memo generalizing depth with
  | case1 p s i j memo result hlook =>
    refine ⟨hv, ?_, fun x hx => .inl hx⟩
    rw [hp, hs]
    exact hv.right i j result (mem_of_lookup hlook)
  | case2 p s i j memo hlook hwork =>
    have hkeys := hv.keys_length
    have hle := hv.work
    omega
  | case3 i j memo hlook hwork s =>
    exact hv.tick.remember memo hlook hp hs hi hj segments_nil.symm fun x hx => .inl hx
  | case4 i j memo hlook hwork p ih =>
    have hrec := ih (drop_succ_eq hp) hs (hlt hp) hj (by omega) hv.tick
    refine hrec.visited.remember memo hlook hp hs hi hj ?_
      (later_ne hrec.later (Nat.le_succ i) (Nat.le_refl j) (.inl (Nat.lt_succ_self i)))
    rw [hrec.answer, segments_star_nil]
  | case5 i j memo hlook hwork pat p hpat =>
    refine hv.tick.remember memo hlook hp hs hi hj ?_ fun x hx => .inl hx
    exact ⟨fun h => (Bool.false_ne_true h).elim, fun h => (segments_one_nil hpat h).elim⟩
  | case6 i j memo hlook hwork p seg s r hr =>
    rename_i ih
    have hrec := ih (drop_succ_eq hp) hs (hlt hp) hj (by omega) hv.tick
    refine hrec.visited.remember memo hlook hp hs hi hj ?_
      (later_ne hrec.later (Nat.le_succ i) (Nat.le_refl j) (.inl (Nat.lt_succ_self i)))
    rw [segments_star_cons]
    exact ⟨fun h => .inl (hrec.answer.mp h), fun _ => hr⟩
  | case7 i j memo hlook hwork p seg s r hr =>
    rename_i ih2 ih1
    have hfirst := ih2 (drop_succ_eq hp) hs (hlt hp) hj (by omega) hv.tick
    have hrec := ih1 hp (drop_succ_eq hs) hi (hlt hs) (by omega) hfirst.visited
    refine hrec.visited.remember memo hlook hp hs hi hj ?_ ?_
    · have hno : ¬ Segments p (seg :: s) := fun h => hr (hfirst.answer.mpr h)
      rw [hrec.answer, segments_star_cons]
      exact ⟨.inr, fun h => h.resolve_left hno⟩
    · intro x hx
      rcases later_ne hrec.later (Nat.le_refl i) (Nat.le_succ j) (.inr (Nat.lt_succ_self j)) x hx
        with hx | hx
      · exact later_ne hfirst.later (Nat.le_succ i) (Nat.le_refl j) (.inl (Nat.lt_succ_self i)) x hx
      · exact .inr hx
  | case8 i j memo hlook hwork pat p seg s hpat hmatch ih =>
    have hrec := ih (drop_succ_eq hp) (drop_succ_eq hs) (hlt hp) (hlt hs) (by omega) hv.tick
    refine hrec.visited.remember memo hlook hp hs hi hj ?_
      (later_ne hrec.later (Nat.le_succ i) (Nat.le_succ j) (.inl (Nat.lt_succ_self i)))
    rw [hrec.answer, segments_one_cons hpat]
    exact ⟨fun h => ⟨hmatch, h⟩, fun h => h.2⟩
  | case9 i j memo hlook hwork pat p seg s hpat hmatch =>
    refine hv.tick.remember memo hlook hp hs hi hj ?_ fun x hx => .inl hx
    rw [segments_one_cons hpat]
    exact ⟨fun h => (Bool.false_ne_true h).elim, fun h => absurd h.1 hmatch⟩

/-- **The chunk glob matcher equals its language**, for every canonical pattern and every path of at
most 32 segments within the limit on its bytes. -/
theorem globMatch_iff {pattern path : Text} (hpattern : canonicalPattern pattern = true)
    (hsegments : (path.splitOn '/').length ≤ maxSegments)
    (hbytes : byteLen path ≤ maxPatternBytes * maxSegments) :
    globMatch pattern path = true ↔ path ∈ globLanguage pattern := by
  obtain ⟨hlen, hcount⟩ := canonicalPattern_bounds hpattern
  have haccepted : ¬ (byteLen pattern > maxPatternBytes ∨
    byteLen path > maxPatternBytes * maxSegments ∨
      canonicalPattern pattern = false ∨ (path.splitOn '/').length > maxSegments) := by
    rw [hpattern]
    rintro (h | h | h | h)
    · exact absurd hlen (Nat.not_le.mpr h)
    · exact absurd hbytes (Nat.not_le.mpr h)
    · cases h
    · exact absurd hsegments (Nat.not_le.mpr h)
  have hsmall : ((pattern.splitOn '/').length + 1) * ((path.splitOn '/').length + 1) +
      (pattern.splitOn '/').length + (path.splitOn '/').length < maxPairMatchWork := by
    have hcells := Nat.mul_le_mul (Nat.add_le_add_right hcount 1) (Nat.add_le_add_right hsegments 1)
    rw [maxSegments] at hcells hsegments
    rw [maxPairMatchWork]
    omega
  have hstart : Visited (pattern.splitOn '/') (path.splitOn '/') 0 { results := [], work := 0 } :=
    ⟨nodup_nil, fun x hx => absurd hx not_mem_nil, fun i j b hx => absurd hx not_mem_nil,
      Nat.zero_le _⟩
  rw [globMatch, if_neg haccepted]
  exact (matchSegmentsFrom_answer hsmall (drop_zero).symm (drop_zero).symm (Nat.zero_le _)
    (Nat.zero_le _)
    (Nat.zero_le _) hstart).answer

/-- Two stars in a segment, and a `**` for two segments. -/
theorem globMatch_iff_config : globMatch "src/**/c*_*.rs".toList "src/a/b/c_x_y.rs".toList = true ↔
    "src/a/b/c_x_y.rs".toList ∈ globLanguage "src/**/c*_*.rs".toList :=
  globMatch_iff (by decide) (by decide +kernel) (by decide +kernel)

end Thegn.Pipeline
