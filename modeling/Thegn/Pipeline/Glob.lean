import Thegn.Pipeline.Language

set_option autoImplicit false

/-! # Matching a path is sound

A path that `globMatch` assigns to a pattern is in the language of the pattern. `matchSegmentLoop`
keeps the part of the pattern it has passed matched with the part of the segment it has passed, and
`matchSegmentsFrom` only remembers results that are right.
-/

namespace Thegn.Pipeline

open Text Wildcard List

/-! ## One segment -/

/-- The tokens of a segment pattern, over characters. -/
def charToken (c : Char) : Token Char := if c = '*' then .star else .one {c}

/-- The first `i` characters of the pattern match the first `k` characters of the segment. -/
def Matched (p t : Text) (i k : Nat) : Prop :=
  Accepts Set.univ ((p.take i).map charToken) (t.take k)

theorem Matched.star {p t : Text} {i k l : Nat} (h : Matched p t i k) (hp : p[i]? = some '*')
    (hkl : k ≤ l) : Matched p t (i + 1) l := by
  unfold Matched
  have htake : t.take l = t.take k ++ (t.drop k).take (l - k) := by
    rw [← take_add, Nat.add_sub_cancel' hkl]
  have hstar : charToken '*' = .star := rfl
  rw [take_add_one, hp, map_append, htake]
  refine Accepts.append h ?_
  rw [Option.toList_some, map_singleton, hstar]
  exact accepts_star fun _ _ => Set.mem_univ _

theorem Matched.one {p t : Text} {i k : Nat} {c : Char} (h : Matched p t i k)
    (hp : p[i]? = some c) (ht : t[k]? = some c) (hc : c ≠ '*') : Matched p t (i + 1) (k + 1) := by
  unfold Matched
  rw [take_add_one, hp, map_append, take_add_one, ht]
  refine Accepts.append h ?_
  rw [Option.toList_some, map_singleton, charToken, if_neg hc]
  exact .one rfl .nil

theorem accepts_stars {p : Text} (h : p.all (· == '*') = true) :
    Accepts Set.univ (p.map charToken) [] := by
  induction p with
  | nil => exact .nil
  | cons c p ih =>
    rw [all_cons, Bool.and_eq_true, beq_iff_eq] at h
    rw [map_cons, charToken, if_pos h.1]
    exact .skip (ih h.2)

theorem matchSegmentLoop_sound {p t : Text} {pi ti : Nat} {star : Option Nat} {mark : Nat}
    {hle : mark ≤ ti} (hti : ti ≤ t.length) (hm : Matched p t pi ti)
    (hstar : ∀ sp, star = some sp → p[sp]? = some '*' ∧ ∃ k ≤ mark, Matched p t sp k)
    (h : matchSegmentLoop p t pi ti star mark hle = true) :
    Accepts Set.univ (p.map charToken) t := by
  fun_induction matchSegmentLoop p t pi ti star mark hle with
  | case1 pi ti star mark hle hlt hp ih =>
    refine ih hti (hm.star hp le_rfl) ?_ h
    intro sp hsp
    cases hsp
    exact ⟨hp, ti, le_rfl, hm⟩
  | case2 pi ti star mark hle hlt hns hp ih =>
    refine ih hlt (hm.one hp (List.getElem?_eq_getElem hlt) ?_) hstar h
    intro heq
    exact hns (hp.trans (congrArg some heq))
  | case3 pi ti mark hle hlt hns hp sp ih =>
    obtain ⟨hsp, k, hk, hmk⟩ := hstar sp rfl
    refine ih (by omega) (hmk.star hsp (by omega)) ?_ h
    intro sp' hsp'
    cases hsp'
    exact ⟨hsp, k, by omega, hmk⟩
  | case4 => cases h
  | case5 pi ti star mark hle hge =>
    have hfull : ti = t.length := by omega
    have hrest := accepts_stars h
    unfold Matched at hm
    rw [hfull, take_length] at hm
    have happ := hm.append hrest
    rw [← map_append, take_append_drop, append_nil] at happ
    exact happ

/-- Bytes without `/` match themselves. -/
theorem accepts_self {bs : List UInt8} (h : slash ∉ bs) :
    Accepts inSegment (bs.map segmentToken) bs := by
  induction bs with
  | nil => exact .nil
  | cons b bs ih =>
    rw [mem_cons, not_or] at h
    rw [map_cons, segmentToken]
    split
    · exact .eat (Ne.symm h.1) (.skip (ih h.2))
    · exact .one rfl (ih h.2)

/-- What matches as characters matches as bytes. -/
theorem accepts_utf8 {pat seg : Text} (h : Accepts Set.univ (pat.map charToken) seg)
    (hseg : '/' ∉ seg) : utf8 seg ∈ segmentLanguage pat := by
  unfold segmentLanguage
  rw [Set.mem_ofPred_eq]
  generalize hps : pat.map charToken = ps at h
  induction h generalizing pat with
  | nil =>
    rw [map_eq_nil_iff.mp hps]
    exact .nil
  | @one letters ps a w ha _ ih =>
    obtain ⟨c, pat, rfl, hc, rfl⟩ := map_eq_cons_iff.mp hps
    rw [mem_cons, not_or] at hseg
    unfold charToken at hc
    split at hc
    · cases hc
    · cases hc
      rw [Set.mem_singleton_iff.mp ha] at hseg ⊢
      have hself := accepts_self (slash_not_mem_encode (Ne.symm hseg.1))
      have happ := hself.append (ih hseg.2 rfl)
      rw [← map_append] at happ
      exact happ
  | @skip ps w _ ih =>
    obtain ⟨c, pat, rfl, hc, rfl⟩ := map_eq_cons_iff.mp hps
    unfold charToken at hc
    split at hc
    · rename_i hstar
      rw [hstar]
      exact .skip (ih hseg rfl)
    · cases hc
  | @eat ps a w _ _ ih =>
    obtain ⟨c, pat, rfl, hc, rfl⟩ := map_eq_cons_iff.mp hps
    rw [mem_cons, not_or] at hseg
    unfold charToken at hc
    split at hc
    · rename_i hstar
      have hrest := ih hseg.2 hps
      rw [hstar] at hrest ⊢
      -- the star runs over the bytes of `a` one after another
      have heat : ∀ bs : List UInt8, slash ∉ bs →
          Accepts inSegment ((utf8 ('*' :: pat)).map segmentToken) (bs ++ utf8 w) := by
        intro bs hbs
        induction bs with
        | nil => exact hrest
        | cons b bs ihb =>
          rw [mem_cons, not_or] at hbs
          exact .eat (Ne.symm hbs.1) (ihb hbs.2)
      exact heat _ (slash_not_mem_encode (Ne.symm hseg.1))
    · cases hc

theorem matchSegment_sound {pat seg : Text} (h : matchSegment pat seg = true) (hseg : '/' ∉ seg) :
    utf8 seg ∈ segmentLanguage pat := by
  apply accepts_utf8 _ hseg
  have hstart : Matched pat seg 0 0 := Accepts.nil
  exact matchSegmentLoop_sound (Nat.zero_le _) hstart (by simp) h

/-! ## All segments -/

/-- The segment patterns match the segments. -/
def SegmentsMatch (p s : List Text) : Prop := Accepts isSegment (p.map pathToken) (s.map utf8)

/-- Every remembered match is one, for patterns `P` and segments `S`. -/
def MemoOk (P S : List Text) (memo : Memo) : Prop :=
  ∀ i j, ((i, j), true) ∈ memo.results → SegmentsMatch (P.drop i) (S.drop j)

theorem mem_of_lookup {i j : Nat} {b : Bool} {l : List ((Nat × Nat) × Bool)}
    (h : l.lookup (i, j) = some b) : ((i, j), b) ∈ l := by
  induction l with
  | nil => cases h
  | cons x l ih =>
    obtain ⟨k, v⟩ := x
    rw [lookup_cons] at h
    split at h
    · rename_i heq
      rw [beq_iff_eq] at heq
      cases h
      rw [heq]
      exact .head _
    · exact .tail _ (ih h)

/-- The result is right for these patterns and segments, and so is what is remembered. -/
def ResultOk (P S p s : List Text) (r : Bool × Memo) : Prop :=
  MemoOk P S r.2 ∧ (r.1 = true → SegmentsMatch p s)

theorem ResultOk.remember {P S p s : List Text} {r : Bool × Memo} {i j : Nat}
    (h : ResultOk P S p s r) (hp : p = P.drop i) (hs : s = S.drop j) :
    ResultOk P S p s (remember i j r) := by
  obtain ⟨hmemo, hr⟩ := h
  refine ⟨?_, hr⟩
  intro i' j' hmem
  rcases mem_cons.mp hmem with heq | hmem
  · rw [Prod.mk.injEq, Prod.mk.injEq] at heq
    obtain ⟨⟨rfl, rfl⟩, htrue⟩ := heq
    rw [← hp, ← hs]
    exact hr htrue.symm
  · exact hmemo i' j' hmem

theorem drop_succ_eq {P p : List Text} {pat : Text} {i : Nat} (h : pat :: p = P.drop i) :
    p = P.drop (i + 1) := (getElem?_of_drop h.symm).2

/-- Reading on at a `**`: it may stand for nothing, or for one segment more. -/
theorem SegmentsMatch.skip {p s : List Text} (h : SegmentsMatch p s) :
    SegmentsMatch (doubleStar :: p) s := by
  unfold SegmentsMatch at h ⊢
  rw [map_cons, pathToken, if_pos rfl]
  exact .skip h

theorem SegmentsMatch.eat {p s : List Text} {seg : Text} (h : SegmentsMatch (doubleStar :: p) s)
    (hseg : '/' ∉ seg) : SegmentsMatch (doubleStar :: p) (seg :: s) := by
  unfold SegmentsMatch at h ⊢
  rw [map_cons, pathToken, if_pos rfl] at h ⊢
  exact .eat (slash_not_mem_utf8 hseg) h

theorem matchSegmentsFrom_sound {P S p s : List Text} {i j : Nat} {memo : Memo}
    (hslash : ∀ seg ∈ S, '/' ∉ seg) (hp : p = P.drop i) (hs : s = S.drop j)
    (hmemo : MemoOk P S memo) : ResultOk P S p s (matchSegmentsFrom p s i j memo) := by
  have hseg : ∀ {seg : Text} {s : List Text} {j : Nat}, seg :: s = S.drop j → '/' ∉ seg := by
    intro seg s j h
    exact hslash seg (mem_of_getElem? (getElem?_of_drop h.symm).1)
  fun_induction matchSegmentsFrom p s i j memo with
  | case1 p s i j memo result hlook =>
    refine ⟨hmemo, ?_⟩
    intro hr
    rw [hp, hs]
    exact hmemo i j (mem_of_lookup (hr ▸ hlook))
  | case2 p s i j memo hlook hwork => exact ⟨hmemo, by simp⟩
  | case3 i j memo hlook hwork s =>
    refine ResultOk.remember ⟨hmemo, ?_⟩ hp hs
    intro hempty
    rw [List.isEmpty_iff.mp hempty]
    exact .nil
  | case4 i j memo hlook hwork p ih =>
    have hrec := ih (drop_succ_eq hp) hs hmemo
    refine ResultOk.remember ⟨hrec.1, ?_⟩ hp hs
    intro hr
    exact (hrec.2 hr).skip
  | case5 i j memo hlook hwork pat p hpat =>
    exact ResultOk.remember ⟨hmemo, by simp⟩ hp hs
  | case6 i j memo hlook hwork p seg s r hr ih =>
    have hrec := ih (drop_succ_eq hp) hs hmemo
    refine ResultOk.remember ⟨hrec.1, ?_⟩ hp hs
    intro hr
    exact (hrec.2 hr).skip
  | case7 i j memo hlook hwork p seg s r hr ih2 ih1 =>
    have hfirst := ih2 (drop_succ_eq hp) hs hmemo
    have hrec := ih1 hp (drop_succ_eq hs) hfirst.1
    refine ResultOk.remember ⟨hrec.1, ?_⟩ hp hs
    intro hr
    exact (hrec.2 hr).eat (hseg hs)
  | case8 i j memo hlook hwork pat p seg s hpat hmatch ih =>
    have hrec := ih (drop_succ_eq hp) (drop_succ_eq hs) hmemo
    refine ResultOk.remember ⟨hrec.1, ?_⟩ hp hs
    intro hr
    unfold SegmentsMatch
    rw [map_cons, pathToken, if_neg hpat]
    exact .one (matchSegment_sound hmatch (hseg hs)) (hrec.2 hr)
  | case9 i j memo hlook hwork pat p seg s hpat hmatch =>
    exact ResultOk.remember ⟨hmemo, by simp⟩ hp hs

/-- **A matched path is in the language of the pattern.** -/
theorem globMatch_sound {pattern path : Text} (h : globMatch pattern path = true) :
    utf8 path ∈ language pattern := by
  unfold globMatch at h
  split_ifs at h
  unfold language
  rw [Set.mem_ofPred_eq, splitOn_utf8]
  have hstart : MemoOk (pattern.splitOn '/') (path.splitOn '/') { results := [], work := 0 } := by
    intro i j hmem
    cases hmem
  have hsound := matchSegmentsFrom_sound (fun seg hseg => Split.not_mem_of_mem_splitOn hseg)
    (drop_zero).symm (drop_zero).symm hstart
  exact hsound.2 h

end Thegn.Pipeline
