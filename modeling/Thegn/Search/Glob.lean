import Thegn.Lib.Boundary

set_option autoImplicit false

/-! # Glob patterns

`glob_match` of `thegn-core/src/search_replace.rs`, which walks over the bytes of a pattern and of a
path, and the language of a pattern, over any letters: over characters it is the one that the
documentation describes, over bytes the one that the matcher decides (`globMatchInner_iff`). The two
differ where a `?` meets a character of more than one byte, and only there (`glob_chars_iff`).
-/

namespace Thegn.Search

open Text List

/-! ## The language -/

/-- The letters with a meaning. -/
structure Special (α : Type) where
  star : α
  any : α
  slash : α
  /-- What `any` stands for. -/
  one : α → Prop
  any_ne : any ≠ star
  slash_ne : slash ≠ star

/-- **The language of a pattern.** The pattern after a run of stars does not begin with one. -/
inductive Glob {α : Type} (sp : Special α) : List α → List α → Prop
  | nil : Glob sp [] []
  | letter {c p t} (hstar : c ≠ sp.star) (hany : c ≠ sp.any) (rest : Glob sp p t) :
      Glob sp (c :: p) (c :: t)
  | any {c p t} (hone : sp.one c) (rest : Glob sp p t) : Glob sp (sp.any :: p) (c :: t)
  | star {p w t} (hrun : p.head? ≠ some sp.star) (hw : sp.slash ∉ w) (rest : Glob sp p t) :
      Glob sp (sp.star :: p) (w ++ t)
  | deep {n p w t} (hrun : p.head? ≠ some sp.star) (rest : Glob sp p t) :
      Glob sp (List.replicate (n + 2) sp.star ++ p) (w ++ t)
  | skip {n p t} (rest : Glob sp p t) : Glob sp (List.replicate (n + 2) sp.star ++ sp.slash :: p) t

/-- The special characters. -/
def charSpecial : Special Char := ⟨'*', '?', '/', (· ≠ '/'), by decide, by decide⟩

/-- The special characters, with a `?` that stands for ASCII alone. -/
def asciiSpecial : Special Char :=
  ⟨'*', '?', '/', fun c => c ≠ '/' ∧ c.toNat < 128, by decide, by decide⟩

/-- The special bytes. -/
def byteSpecial : Special UInt8 := ⟨42, 63, 47, (· ≠ 47), by decide, by decide⟩

/-- What is behind the last `/`. -/
def basename (path : Text) : Text := (path.splitOn '/').getLastD path

/-- **The paths a pattern selects.** -/
def globPaths (pattern : Text) : Set Text :=
  {path | Glob charSpecial pattern path ∨ '/' ∉ pattern ∧ Glob charSpecial pattern (basename path)}

/-! ## The matcher -/

/-- The loop for a single star: any run that does not go over a slash. -/
def withinSegment (f : List UInt8 → Bool) : List UInt8 → Bool
  | [] => f []
  | b :: t => f (b :: t) || (b != byteSpecial.slash && withinSegment f t)

/-- `glob_match_inner`, on what is left of the pattern and of the path. -/
def globMatchInner (pat txt : List UInt8) : Bool :=
  match pat with
  | [] => txt.isEmpty
  | c :: rest =>
    if c = byteSpecial.star then
      let tail := rest.dropWhile (· == byteSpecial.star)
      if rest.head? = some byteSpecial.star then
        (decide (tail.head? = some byteSpecial.slash) && globMatchInner tail.tail txt) ||
          txt.tails.any fun t => globMatchInner tail t
      else withinSegment (fun t => globMatchInner tail t) txt
    else if c = byteSpecial.any then
      match txt with
      | [] => false
      | b :: t => b != byteSpecial.slash && globMatchInner rest t
    else
      match txt with
      | [] => false
      | b :: t => b == c && globMatchInner rest t
termination_by pat.length
decreasing_by
  all_goals
    have hle := List.Sublist.length_le (dropWhile_sublist (· == byteSpecial.star) (l := rest))
    simp only [length_cons, length_tail]
    omega

def globMatch (pattern path : Text) : Bool :=
  globMatchInner (utf8 pattern) (utf8 path) ||
    (decide ('/' ∉ pattern) && globMatchInner (utf8 pattern) (utf8 (basename path)))

/-! ## Reading a pattern from the left -/

section Inversion

variable {α : Type} {sp : Special α} {p t : List α}

theorem glob_nil : Glob sp [] t ↔ t = [] := by
  constructor
  · intro h
    generalize hp : ([] : List α) = q at h
    cases h with
    | nil => rfl
    | letter _ _ _ => cases hp
    | any _ _ => cases hp
    | star _ _ _ => cases hp
    | deep _ _ => cases hp
    | skip _ => cases hp
  · rintro rfl
    exact .nil

theorem glob_letter {c : α} (hstar : c ≠ sp.star) (hany : c ≠ sp.any) :
    Glob sp (c :: p) t ↔ ∃ t', t = c :: t' ∧ Glob sp p t' := by
  constructor
  · intro h
    generalize hp : c :: p = q at h
    cases h with
    | nil => cases hp
    | letter _ _ rest =>
      cases hp
      exact ⟨_, rfl, rest⟩
    | any _ _ => exact absurd (List.cons.inj hp).1 hany
    | star _ _ _ => exact absurd (List.cons.inj hp).1 hstar
    | deep _ _ => exact absurd (List.cons.inj hp).1 hstar
    | skip _ => exact absurd (List.cons.inj hp).1 hstar
  · rintro ⟨t', rfl, rest⟩
    exact .letter hstar hany rest

theorem glob_letters {cs : List α} (h : ∀ c ∈ cs, c ≠ sp.star ∧ c ≠ sp.any) :
    Glob sp (cs ++ p) t ↔ ∃ t', t = cs ++ t' ∧ Glob sp p t' := by
  induction cs generalizing t with
  | nil => simp
  | cons c cs ih =>
    obtain ⟨hstar, hany⟩ := h c (.head _)
    rw [cons_append, glob_letter hstar hany]
    constructor
    · rintro ⟨t', rfl, hrest⟩
      obtain ⟨t'', rfl, hrest'⟩ := (ih fun c hc => h c (.tail _ hc)).mp hrest
      exact ⟨t'', rfl, hrest'⟩
    · rintro ⟨t', rfl, hrest⟩
      exact ⟨_, rfl, (ih fun c hc => h c (.tail _ hc)).mpr ⟨t', rfl, hrest⟩⟩

theorem glob_any : Glob sp (sp.any :: p) t ↔ ∃ c t', t = c :: t' ∧ sp.one c ∧ Glob sp p t' := by
  constructor
  · intro h
    generalize hp : sp.any :: p = q at h
    cases h with
    | nil => cases hp
    | letter _ hany _ => exact absurd (List.cons.inj hp).1.symm hany
    | any hone rest =>
      cases hp
      exact ⟨_, _, rfl, hone, rest⟩
    | star _ _ _ => exact absurd (List.cons.inj hp).1 sp.any_ne
    | deep _ _ => exact absurd (List.cons.inj hp).1 sp.any_ne
    | skip _ => exact absurd (List.cons.inj hp).1 sp.any_ne
  · rintro ⟨c, t', rfl, hone, rest⟩
    exact .any hone rest

theorem head?_stars {n : Nat} {q : List α} :
    (List.replicate (n + 1) sp.star ++ q).head? = some sp.star := rfl

/-- A star alone. -/
theorem glob_star (hrun : p.head? ≠ some sp.star) :
    Glob sp (sp.star :: p) t ↔ ∃ w t', t = w ++ t' ∧ sp.slash ∉ w ∧ Glob sp p t' := by
  constructor
  · intro h
    generalize hp : sp.star :: p = q at h
    cases h with
    | nil => cases hp
    | letter hstar _ _ => exact absurd (List.cons.inj hp).1.symm hstar
    | any _ _ => exact absurd (List.cons.inj hp).1.symm sp.any_ne
    | star _ hw rest =>
      cases hp
      exact ⟨_, _, rfl, hw, rest⟩
    | deep _ _ =>
      refine absurd ?_ hrun
      rw [(List.cons.inj hp).2]
      exact head?_stars
    | skip _ =>
      refine absurd ?_ hrun
      rw [(List.cons.inj hp).2]
      exact head?_stars
  · rintro ⟨w, t', rfl, hw, rest⟩
    exact .star hrun hw rest

/-- The run at the start of a pattern and what is behind it are determined. -/
theorem stars_append_inj {n m : Nat} {q : List α} (hp : p.head? ≠ some sp.star)
    (hq : q.head? ≠ some sp.star)
    (h : List.replicate n sp.star ++ p = List.replicate m sp.star ++ q) : n = m ∧ p = q := by
  induction n generalizing m with
  | zero =>
    cases m with
    | zero => exact ⟨rfl, h⟩
    | succ m =>
      refine absurd ?_ hp
      rw [show p = List.replicate (m + 1) sp.star ++ q from h]
      exact head?_stars
  | succ n ih =>
    cases m with
    | zero =>
      refine absurd ?_ hq
      rw [show q = List.replicate (n + 1) sp.star ++ p from h.symm]
      exact head?_stars
    | succ m =>
      obtain ⟨hnm, hpq⟩ := ih (List.cons.inj h).2
      exact ⟨congrArg _ hnm, hpq⟩

theorem head?_slash {q : List α} : (sp.slash :: q).head? ≠ some sp.star :=
  fun h => sp.slash_ne (Option.some.inj h)

/-- A run of more stars. -/
theorem glob_deep {n : Nat} (hrun : p.head? ≠ some sp.star) :
    Glob sp (List.replicate (n + 2) sp.star ++ p) t ↔
      (∃ p', p = sp.slash :: p' ∧ Glob sp p' t) ∨ ∃ w t', t = w ++ t' ∧ Glob sp p t' := by
  constructor
  · intro h
    generalize hp : List.replicate (n + 2) sp.star ++ p = q at h
    cases h with
    | nil => cases hp
    | letter hstar _ _ => exact absurd (List.cons.inj hp).1.symm hstar
    | any _ _ => exact absurd (List.cons.inj hp).1.symm sp.any_ne
    | @star p' w t' hrun' _ _ =>
      have hone : List.replicate (n + 2) sp.star ++ p = List.replicate 1 sp.star ++ p' := hp
      exact absurd (stars_append_inj hrun hrun' hone).1 (by omega)
    | deep hrun' rest =>
      obtain ⟨-, rfl⟩ := stars_append_inj hrun hrun' hp
      exact .inr ⟨_, _, rfl, rest⟩
    | skip rest =>
      obtain ⟨-, rfl⟩ := stars_append_inj hrun head?_slash hp
      exact .inl ⟨_, rfl, rest⟩
  · rintro (⟨p', rfl, rest⟩ | ⟨w, t', rfl, rest⟩)
    · exact .skip rest
    · exact .deep hrun rest

/-- How a pattern begins. -/
theorem pattern_cases [DecidableEq α] (sp : Special α) (p : List α) :
    p = [] ∨ (∃ c p', p = c :: p' ∧ c ≠ sp.star ∧ c ≠ sp.any) ∨ (∃ p', p = sp.any :: p') ∨
      (∃ p', p = sp.star :: p' ∧ p'.head? ≠ some sp.star) ∨
      ∃ n p', p = List.replicate (n + 2) sp.star ++ p' ∧ p'.head? ≠ some sp.star := by
  induction p with
  | nil => exact .inl rfl
  | cons c p ih =>
    refine .inr ?_
    by_cases hstar : c = sp.star
    · refine .inr (.inr ?_)
      subst hstar
      by_cases hrun : p.head? = some sp.star
      · refine .inr ?_
        rcases ih with rfl | ⟨c, p', rfl, hc, -⟩ | ⟨p', rfl⟩ | ⟨p', rfl, hp'⟩ | ⟨n, p', rfl, hp'⟩
        · cases hrun
        · exact absurd (Option.some.inj hrun) hc
        · exact absurd (Option.some.inj hrun) sp.any_ne
        · exact ⟨0, p', rfl, hp'⟩
        · exact ⟨n + 1, p', rfl, hp'⟩
      · exact .inl ⟨p, rfl, hrun⟩
    · by_cases hany : c = sp.any
      · exact .inr (.inl ⟨p, by rw [hany]⟩)
      · exact .inl ⟨c, p, rfl, hstar, hany⟩

theorem dropWhile_stars [DecidableEq α] {n : Nat} (hrun : p.head? ≠ some sp.star) :
    (List.replicate n sp.star ++ p).dropWhile (· == sp.star) = p := by
  induction n with
  | zero =>
    cases p with
    | nil => rfl
    | cons c p =>
      have hc : (c == sp.star) = false := beq_eq_false_iff_ne.mpr fun h => hrun (congrArg some h)
      rw [replicate_zero, nil_append, dropWhile_cons, hc]
      rfl
  | succ n ih =>
    rw [replicate_succ, cons_append, dropWhile_cons, beq_self_eq_true]
    exact ih

end Inversion

/-! ## The matcher decides the language over bytes -/

theorem withinSegment_iff {f : List UInt8 → Bool} {txt : List UInt8} :
    withinSegment f txt = true ↔ ∃ w t, txt = w ++ t ∧ byteSpecial.slash ∉ w ∧ f t = true := by
  induction txt with
  | nil =>
    rw [withinSegment]
    constructor
    · exact fun h => ⟨[], [], rfl, not_mem_nil, h⟩
    · rintro ⟨w, t, heq, -, h⟩
      obtain ⟨rfl, rfl⟩ := append_eq_nil_iff.mp heq.symm
      exact h
  | cons b txt ih =>
    rw [withinSegment, Bool.or_eq_true, Bool.and_eq_true, bne_iff_ne, ih]
    constructor
    · rintro (h | ⟨hb, w, t, rfl, hw, h⟩)
      · exact ⟨[], _, rfl, not_mem_nil, h⟩
      · refine ⟨b :: w, t, rfl, ?_, h⟩
        rw [mem_cons, not_or]
        exact ⟨Ne.symm hb, hw⟩
    · rintro ⟨w, t, heq, hw, h⟩
      cases w with
      | nil => exact .inl (heq ▸ h)
      | cons x w =>
        obtain ⟨rfl, rfl⟩ := List.cons.inj heq
        rw [mem_cons, not_or] at hw
        exact .inr ⟨Ne.symm hw.1, w, t, rfl, hw.2, h⟩

theorem any_tails_iff {f : List UInt8 → Bool} {txt : List UInt8} :
    txt.tails.any f = true ↔ ∃ w t, txt = w ++ t ∧ f t = true := by
  rw [any_eq_true]
  constructor
  · rintro ⟨t, ht, h⟩
    obtain ⟨w, rfl⟩ := (mem_tails _ _).mp ht
    exact ⟨w, t, rfl, h⟩
  · rintro ⟨w, t, rfl, h⟩
    exact ⟨t, (mem_tails _ _).mpr (suffix_append w t), h⟩

section Matcher

variable {p txt : List UInt8}

theorem globMatchInner_letter {c : UInt8} (hstar : c ≠ byteSpecial.star)
    (hany : c ≠ byteSpecial.any) :
    globMatchInner (c :: p) txt = true ↔ ∃ t, txt = c :: t ∧ globMatchInner p t = true := by
  rw [globMatchInner.eq_def]
  dsimp only
  rw [if_neg hstar, if_neg hany]
  cases txt with
  | nil => simp
  | cons b t =>
    rw [Bool.and_eq_true, beq_iff_eq]
    constructor
    · rintro ⟨rfl, h⟩
      exact ⟨t, rfl, h⟩
    · rintro ⟨t', heq, h⟩
      obtain ⟨rfl, rfl⟩ := List.cons.inj heq
      exact ⟨rfl, h⟩

theorem globMatchInner_any :
    globMatchInner (byteSpecial.any :: p) txt = true ↔
      ∃ c t, txt = c :: t ∧ byteSpecial.one c ∧ globMatchInner p t = true := by
  rw [globMatchInner.eq_def]
  dsimp only
  rw [if_neg byteSpecial.any_ne, if_pos rfl]
  cases txt with
  | nil => simp
  | cons b t =>
    rw [Bool.and_eq_true, bne_iff_ne]
    constructor
    · exact fun h => ⟨b, t, rfl, h⟩
    · rintro ⟨c, t', heq, h⟩
      obtain ⟨rfl, rfl⟩ := List.cons.inj heq
      exact h

theorem globMatchInner_star (hrun : p.head? ≠ some byteSpecial.star) :
    globMatchInner (byteSpecial.star :: p) txt = true ↔
      ∃ w t, txt = w ++ t ∧ byteSpecial.slash ∉ w ∧ globMatchInner p t = true := by
  have hdrop := @dropWhile_stars _ byteSpecial p _ 0 hrun
  rw [replicate_zero, nil_append] at hdrop
  rw [globMatchInner.eq_def]
  dsimp only
  rw [if_pos rfl, if_neg hrun, hdrop, withinSegment_iff]

theorem globMatchInner_deep {n : Nat} (hrun : p.head? ≠ some byteSpecial.star) :
    globMatchInner (List.replicate (n + 2) byteSpecial.star ++ p) txt = true ↔
      (∃ p', p = byteSpecial.slash :: p' ∧ globMatchInner p' txt = true) ∨
        ∃ w t, txt = w ++ t ∧ globMatchInner p t = true := by
  have hcons : List.replicate (n + 2) byteSpecial.star ++ p =
      byteSpecial.star :: (List.replicate (n + 1) byteSpecial.star ++ p) := rfl
  rw [hcons, globMatchInner.eq_def]
  dsimp only
  rw [if_pos rfl, if_pos head?_stars, dropWhile_stars hrun, Bool.or_eq_true, any_tails_iff,
    Bool.and_eq_true, decide_eq_true_eq]
  refine or_congr ?_ Iff.rfl
  constructor
  · rintro ⟨hhead, h⟩
    cases p with
    | nil => cases hhead
    | cons c p' => exact ⟨p', by rw [Option.some.inj hhead], h⟩
  · rintro ⟨p', rfl, h⟩
    exact ⟨rfl, h⟩

end Matcher

/-- **The matcher decides the language over bytes.** The induction is on the length of the
pattern. -/
theorem globMatchInner_iff (n : Nat) : ∀ {pat txt : List UInt8}, pat.length ≤ n →
    (globMatchInner pat txt = true ↔ Glob byteSpecial pat txt) := by
  induction n with
  | zero =>
    intro pat txt hn
    rw [eq_nil_of_length_eq_zero (Nat.le_zero.mp hn), globMatchInner, glob_nil, List.isEmpty_iff]
  | succ n ih =>
    intro pat txt hn
    rcases pattern_cases byteSpecial pat with rfl | ⟨c, p, rfl, hstar, hany⟩ | ⟨p, rfl⟩
      | ⟨p, rfl, hrun⟩ | ⟨k, p, rfl, hrun⟩
    · rw [globMatchInner, glob_nil, List.isEmpty_iff]
    · have hp : p.length ≤ n := Nat.le_of_succ_le_succ hn
      rw [globMatchInner_letter hstar hany, glob_letter hstar hany]
      simp only [ih hp]
    · have hp : p.length ≤ n := Nat.le_of_succ_le_succ hn
      rw [globMatchInner_any, glob_any]
      simp only [ih hp]
    · have hp : p.length ≤ n := Nat.le_of_succ_le_succ hn
      rw [globMatchInner_star hrun, glob_star hrun]
      simp only [ih hp]
    · rw [length_append, length_replicate] at hn
      have hp : p.length ≤ n := by omega
      rw [globMatchInner_deep hrun, glob_deep hrun]
      simp only [ih hp]
      refine or_congr ?_ Iff.rfl
      refine exists_congr fun p' => and_congr_right fun heq => ?_
      rw [heq, length_cons] at hp
      exact ih (by omega)

/-! ## Bytes and characters -/

/-- Every character has one byte. -/
def Ascii (t : Text) : Prop := ∀ c ∈ t, c.toNat < 128

/-- A text whose bytes begin with the byte of an ASCII character begins with that character. -/
theorem head?_utf8 {t : Text} {d : Char} (hd : d.toNat < 128) :
    (utf8 t).head? = some (UInt8.ofNat d.toNat) ↔ t.head? = some d := by
  cases t with
  | nil => simp
  | cons c t =>
    rw [utf8_cons]
    obtain ⟨b, bs, hcons, -, -⟩ := encode_eq_cons c
    rw [hcons]
    show some b = _ ↔ some c = _
    rw [Option.some.injEq, Option.some.injEq]
    constructor
    · rintro rfl
      by_contra hne
      exact encode_special hd hne (by rw [hcons]; exact .head _)
    · rintro rfl
      rw [encode_of_lt hd] at hcons
      exact (List.cons.inj hcons).1.symm

theorem utf8_stars (n : Nat) (p : Text) :
    utf8 (List.replicate n '*' ++ p) = List.replicate n byteSpecial.star ++ utf8 p := by
  induction n with
  | zero => rfl
  | succ n ih =>
    rw [replicate_succ, cons_append, utf8_cons, ih]
    rfl

theorem encode_letters {c : Char} (hstar : c ≠ '*') (hany : c ≠ '?') :
    ∀ a ∈ String.utf8EncodeChar c, a ≠ byteSpecial.star ∧ a ≠ byteSpecial.any := by
  intro a ha
  constructor
  · rintro rfl
    exact encode_special (d := '*') (by decide) hstar ha
  · rintro rfl
    exact encode_special (d := '?') (by decide) hany ha

/-- A character of ASCII has no byte inside. -/
theorem not_continuation {c : Char} (h : c.toNat < 128) {b : UInt8}
    (hb : b ∈ String.utf8EncodeChar c) : ¬ Continuation b := by
  rintro ⟨hge, -⟩
  rw [encode_of_lt h, mem_singleton] at hb
  rw [hb, UInt8.toNat_ofNat', Nat.mod_eq_of_lt (by omega)] at hge
  omega

/-- A rest that begins inside a character: the text before that character is there whole. -/
theorem exists_inside_of_utf8 {t : Text} : ∀ {w x : List UInt8} {b : UInt8}, utf8 t = w ++ b :: x →
    Continuation b → ∃ u c v, t = u ++ c :: v ∧ ¬ c.toNat < 128 ∧ utf8 u <+: w := by
  induction t with
  | nil =>
    intro w x b h _
    exact absurd (append_eq_nil_iff.mp h.symm).2 (cons_ne_nil b x)
  | cons c t ih =>
    intro w x b h hb
    rw [utf8_cons] at h
    rcases append_eq_append_iff.mp h with ⟨y, rfl, ht⟩ | ⟨y, henc, hx⟩
    · obtain ⟨u, d, v, rfl, hd, hu⟩ := ih ht hb
      exact ⟨c :: u, d, v, rfl, hd, by rwa [utf8_cons, prefix_append_right_inj]⟩
    · cases y with
      | nil =>
        obtain ⟨u, d, v, rfl, hd, hu⟩ := ih (w := []) hx.symm hb
        refine ⟨c :: u, d, v, rfl, hd, ?_⟩
        rw [utf8_cons, prefix_nil.mp hu, henc, append_nil, append_nil]
      | cons b' y =>
        obtain ⟨rfl, -⟩ := List.cons.inj hx
        refine ⟨[], c, t, rfl, fun hc => not_continuation hc ?_ hb, nil_prefix⟩
        rw [henc]
        exact mem_append_right _ (.head _)

/-- **A `?` meets a character of more than one byte**: what is before it in the pattern takes what
is before that character. -/
def Meets (p t : Text) : Prop :=
  ∃ p1 p2 s1 c s2, p = p1 ++ '?' :: p2 ∧ t = s1 ++ c :: s2 ∧ ¬ c.toNat < 128 ∧
    Glob charSpecial p1 s1

/-- What is met behind a step of the pattern is met by the whole. -/
theorem Meets.append {p t q u : Text} (h : Meets p t)
    (hstep : ∀ p1 s1, (p1.head? = some '*' → p.head? = some '*') →
    Glob charSpecial p1 s1 → Glob charSpecial (q ++ p1) (u ++ s1)) : Meets (q ++ p) (u ++ t) := by
  obtain ⟨p1, p2, s1, c, s2, rfl, rfl, hc, hglob⟩ := h
  refine ⟨q ++ p1, p2, u ++ s1, c, s2, by rw [append_assoc], by rw [append_assoc], hc,
    hstep _ _ ?_ hglob⟩
  intro hhead
  rw [List.head?_append, hhead]
  rfl

section Steps

variable {p t : Text}

theorem Meets.letter {c : Char} (hstar : c ≠ '*') (hany : c ≠ '?') (h : Meets p t) :
    Meets (c :: p) (c :: t) :=
  h.append (q := [c]) (u := [c]) fun _ _ _ rest => .letter hstar hany rest

theorem Meets.any {c : Char} (hslash : c ≠ '/') (h : Meets p t) : Meets ('?' :: p) (c :: t) :=
  h.append (q := ['?']) (u := [c]) fun _ _ _ rest =>
    @Glob.any _ charSpecial _ _ _ hslash rest

theorem Meets.star {w : Text} (hrun : p.head? ≠ some '*') (hw : '/' ∉ w) (h : Meets p t) :
    Meets ('*' :: p) (w ++ t) :=
  h.append (q := ['*']) fun _ _ hhead rest =>
    @Glob.star _ charSpecial _ _ _ (fun hstar => hrun (hhead hstar)) hw rest

theorem Meets.deep {n : Nat} (w : Text) (hrun : p.head? ≠ some '*') (h : Meets p t) :
    Meets (List.replicate (n + 2) '*' ++ p) (w ++ t) :=
  h.append fun _ _ hhead rest =>
    @Glob.deep _ charSpecial _ _ _ _ (fun hstar => hrun (hhead hstar)) rest

theorem Meets.skip {n : Nat} (h : Meets p t) :
    Meets (List.replicate (n + 2) '*' ++ '/' :: p) t := by
  have hskip := h.append (q := List.replicate (n + 2) '*' ++ ['/']) (u := []) fun p1 s1 _ rest => by
    rw [append_assoc]
    exact @Glob.skip _ charSpecial _ _ _ rest
  rwa [append_assoc] at hskip

/-- A `?` at the start meets the first character. -/
theorem Meets.first {c : Char} (hc : ¬ c.toNat < 128) : Meets ('?' :: p) (c :: t) :=
  ⟨[], p, [], c, t, rfl, rfl, hc, .nil⟩

end Steps

/-- Where no `?` meets a character of more than one byte, each takes one of ASCII. -/
theorem Glob.ascii {p t : Text} (h : Glob charSpecial p t) (hclean : ¬ Meets p t) :
    Glob asciiSpecial p t := by
  induction h with
  | nil => exact .nil
  | letter hstar hany _ ih => exact .letter hstar hany (ih fun h => hclean (h.letter hstar hany))
  | any hone _ ih =>
    refine @Glob.any _ asciiSpecial _ _ _ ⟨hone, ?_⟩ (ih fun h => hclean (h.any hone))
    by_contra hc
    exact hclean (.first hc)
  | star hrun hw _ ih => exact .star hrun hw (ih fun h => hclean (h.star hrun hw))
  | deep hrun _ ih => exact .deep hrun (ih fun h => hclean (h.deep _ hrun))
  | skip _ ih => exact .skip (ih fun h => hclean h.skip)

theorem Glob.of_ascii {p t : Text} (h : Glob asciiSpecial p t) : Glob charSpecial p t := by
  induction h with
  | nil => exact .nil
  | letter hstar hany _ ih => exact .letter hstar hany ih
  | any hone _ ih => exact @Glob.any _ charSpecial _ _ _ hone.1 ih
  | star hrun hw _ ih => exact .star hrun hw ih
  | deep hrun _ ih => exact .deep hrun ih
  | skip _ ih => exact .skip ih

theorem head?_pattern {p : Text} (hrun : p.head? ≠ some '*') :
    (utf8 p).head? ≠ some byteSpecial.star :=
  fun h => hrun ((head?_utf8 (d := '*') (by decide)).mp h)

/-- The bytes of a text are taken where each `?` takes a character of ASCII. -/
theorem Glob.to_bytes {p t : Text} (h : Glob asciiSpecial p t) :
    Glob byteSpecial (utf8 p) (utf8 t) := by
  induction h with
  | nil => exact .nil
  | @letter c p t hstar hany _ ih =>
    rw [utf8_cons, utf8_cons, glob_letters (encode_letters hstar hany)]
    exact ⟨_, rfl, ih⟩
  | @any c p t hone _ ih =>
    have hpattern : utf8 (asciiSpecial.any :: p) = byteSpecial.any :: utf8 p := utf8_cons '?' p
    rw [hpattern, utf8_cons, encode_of_lt hone.2]
    refine .any (fun heq => encode_special (c := c) (d := '/') (by decide) hone.1 ?_) ih
    rw [encode_of_lt hone.2, heq]
    exact mem_singleton_self _
  | @star p w t hrun hw _ ih =>
    have hpattern : utf8 (asciiSpecial.star :: p) = byteSpecial.star :: utf8 p := utf8_cons '*' p
    rw [hpattern, utf8_append]
    exact .star (head?_pattern hrun) (utf8_special (d := '/') (by decide) hw) ih
  | @deep n p w t hrun _ ih =>
    have hpattern : utf8 (List.replicate (n + 2) asciiSpecial.star ++ p) = _ := utf8_stars (n + 2) p
    rw [hpattern, utf8_append]
    exact .deep (head?_pattern hrun) ih
  | @skip n p t _ ih =>
    have hpattern : utf8 (List.replicate (n + 2) asciiSpecial.star ++ asciiSpecial.slash :: p) =
      _ := utf8_stars (n + 2) ('/' :: p)
    rw [hpattern, utf8_cons]
    exact .skip ih

/-- What is left of a path behind a run is a text, or the pattern goes on with a `?` inside a
character. -/
theorem exists_rest {p t : Text} {w x : List UInt8} (hrun : p.head? ≠ some '*')
    (heq : utf8 t = w ++ x) (hx : Glob byteSpecial (utf8 p) x) :
    (∃ u v, t = u ++ v ∧ utf8 u = w ∧ utf8 v = x) ∨
      ∃ p' u c v, p = '?' :: p' ∧ t = u ++ c :: v ∧ ¬ c.toNat < 128 ∧ utf8 u <+: w := by
  by_cases hcut : ∀ b, x.head? = some b → ¬ Continuation b
  · exact .inl (exists_cut_of_utf8 heq hcut)
  · push Not at hcut
    obtain ⟨b, hb, hcont⟩ := hcut
    obtain ⟨x, rfl⟩ : ∃ x', x = b :: x' := ⟨x.tail, (cons_head?_tail hb).symm⟩
    cases p with
    | nil =>
      rw [utf8_nil, glob_nil] at hx
      cases hx
    | cons c p =>
      by_cases hany : c = '?'
      · obtain ⟨u, d, v, rfl, hd, hu⟩ := exists_inside_of_utf8 heq hcont
        exact .inr ⟨p, u, d, v, by rw [hany], rfl, hd, hu⟩
      · have hstar : c ≠ '*' := fun h => hrun (congrArg some h)
        obtain ⟨b0, bs, hcons, hfirst, -⟩ := encode_eq_cons c
        rw [utf8_cons, glob_letters (encode_letters hstar hany), hcons] at hx
        obtain ⟨t', ht', -⟩ := hx
        exact absurd ((List.cons.inj ht').1 ▸ hcont) hfirst

theorem utf8_eq_nil {t : Text} : utf8 t = [] ↔ t = [] := by
  constructor
  · exact fun h => eq_nil_of_byteLen (congrArg List.length h)
  · rintro rfl
    rfl

/-- **The bytes are taken only where the characters are**, unless a `?` meets a character of more
than one byte. The induction is on the length of the pattern. -/
theorem glob_of_bytes (n : Nat) : ∀ {p t : Text}, p.length ≤ n → ¬ Meets p t →
    Glob byteSpecial (utf8 p) (utf8 t) → Glob charSpecial p t := by
  induction n with
  | zero =>
    intro p t hn _
    rw [eq_nil_of_length_eq_zero (Nat.le_zero.mp hn), utf8_nil, glob_nil, glob_nil, utf8_eq_nil]
    exact id
  | succ n ih =>
    intro p t hn hclean
    rcases pattern_cases charSpecial p with rfl | ⟨c, p, rfl, hstar, hany⟩ | ⟨p, rfl⟩
      | ⟨p, rfl, hrun⟩ | ⟨k, p, rfl, hrun⟩
    · rw [utf8_nil, glob_nil, glob_nil, utf8_eq_nil]
      exact id
    · have hp : p.length ≤ n := Nat.le_of_succ_le_succ hn
      rw [utf8_cons, glob_letters (encode_letters hstar hany)]
      rintro ⟨x, hx, h⟩
      obtain ⟨t', rfl, rfl⟩ := utf8_eq_encode_append.mp hx
      exact .letter hstar hany (ih hp (fun h => hclean (h.letter hstar hany)) h)
    · have hp : p.length ≤ n := Nat.le_of_succ_le_succ hn
      have hpattern : utf8 (charSpecial.any :: p) = byteSpecial.any :: utf8 p := utf8_cons '?' p
      rw [hpattern, glob_any]
      rintro ⟨b, x, hx, hb, h⟩
      cases t with
      | nil => cases hx
      | cons c t =>
        have hlt : c.toNat < 128 := by
          by_contra hc
          exact hclean (.first hc)
        rw [utf8_cons, encode_of_lt hlt] at hx
        obtain ⟨rfl, rfl⟩ := List.cons.inj hx
        have hslash : c ≠ '/' := by
          rintro rfl
          exact hb rfl
        exact .any hslash (ih hp (fun h => hclean (h.any hslash)) h)
    · have hp : p.length ≤ n := Nat.le_of_succ_le_succ hn
      have hpattern : utf8 (charSpecial.star :: p) = byteSpecial.star :: utf8 p := utf8_cons '*' p
      rw [hpattern, glob_star (head?_pattern hrun)]
      rintro ⟨w, x, hx, hw, h⟩
      have hslash {u : Text} (hu : utf8 u <+: w) : '/' ∉ u :=
        fun hmem => hw (hu.subset (mem_utf8_special (d := '/') (by decide) hmem))
      rcases exists_rest hrun hx h with ⟨u, v, rfl, rfl, rfl⟩ | ⟨p', u, c, v, rfl, rfl, hc, hu⟩
      · have hu := hslash prefix_rfl
        exact .star hrun hu (ih hp (fun h => hclean (h.star hrun hu)) h)
      · exact absurd (Meets.star hrun (hslash hu) (.first hc)) hclean
    · rw [length_append, length_replicate] at hn
      have hp : p.length ≤ n := by omega
      have hpattern : utf8 (List.replicate (k + 2) charSpecial.star ++ p) =
          List.replicate (k + 2) byteSpecial.star ++ utf8 p := utf8_stars (k + 2) p
      rw [hpattern, glob_deep (head?_pattern hrun)]
      rintro (⟨x, hx, h⟩ | ⟨w, x, hx, h⟩)
      · have hslash : utf8 p = String.utf8EncodeChar '/' ++ x := hx
        obtain ⟨p', rfl, rfl⟩ := utf8_eq_encode_append.mp hslash
        rw [length_cons] at hp
        exact .skip (ih (by omega) (fun h => hclean h.skip) h)
      · rcases exists_rest hrun hx h with ⟨u, v, rfl, rfl, rfl⟩ | ⟨p', u, c, v, rfl, rfl, hc, -⟩
        · exact .deep hrun (ih hp (fun h => hclean (h.deep u hrun)) h)
        · exact absurd (Meets.deep u hrun (.first hc)) hclean

/-- Bytes stand for characters where no `?` meets a character of more than one byte. -/
theorem glob_chars_iff {p t : Text} (h : ¬ Meets p t) :
    Glob charSpecial p t ↔ Glob byteSpecial (utf8 p) (utf8 t) :=
  ⟨fun hglob => (hglob.ascii h).to_bytes, glob_of_bytes _ le_rfl h⟩

/-! ## The whole matcher -/

theorem basename_ascii {path : Text} (h : Ascii path) : Ascii (basename path) := by
  intro c hc
  unfold basename at hc
  rw [getLastD_eq_getLast?] at hc
  cases hlast : (path.splitOn '/').getLast? with
  | none =>
    rw [hlast] at hc
    exact h c hc
  | some s =>
    rw [hlast] at hc
    exact h c (Split.mem_of_mem_splitOn (mem_of_getLast? hlast) hc)

theorem basename_of_not_mem {path : Text} (h : '/' ∉ path) : basename path = path := by
  have hsplit := Split.splitOn_append_of_not_mem h []
  rw [append_nil] at hsplit
  rw [basename, hsplit, splitOn_nil, modifyHead_cons, append_nil]
  rfl

/-- **The `?` meets no character of more than one byte** in the path, nor in the basename where that
is looked at; or the pattern selects one of them without it. -/
def Untouched (pattern path : Text) : Prop :=
  (Glob asciiSpecial pattern path ∨ '/' ∉ pattern ∧ Glob asciiSpecial pattern (basename path)) ∨
    ¬ Meets pattern path ∧ ('/' ∉ pattern → ¬ Meets pattern (basename path))

theorem globMatch_iff_glob {pattern path : Text} :
    globMatch pattern path = true ↔ Glob byteSpecial (utf8 pattern) (utf8 path) ∨
      '/' ∉ pattern ∧ Glob byteSpecial (utf8 pattern) (utf8 (basename path)) := by
  rw [globMatch, Bool.or_eq_true, Bool.and_eq_true, decide_eq_true_eq,
    globMatchInner_iff _ le_rfl, globMatchInner_iff _ le_rfl]

/-- Where the `?` meets no character of more than one byte, the matcher selects the paths of the
pattern. -/
theorem globMatch_of_untouched {pattern path : Text} (h : Untouched pattern path) :
    globMatch pattern path = true ↔ path ∈ globPaths pattern := by
  rw [globMatch_iff_glob]
  rcases h with h | ⟨hpath, hbase⟩
  · exact iff_of_true (h.imp Glob.to_bytes (.imp id Glob.to_bytes))
      (h.imp Glob.of_ascii (.imp id Glob.of_ascii))
  · exact or_congr (glob_chars_iff hpath).symm (and_congr_right fun hslash =>
      (glob_chars_iff (hbase hslash)).symm)

theorem not_meets {p t : Text} (h : '?' ∉ p ∨ Ascii t) : ¬ Meets p t := by
  rintro ⟨p1, p2, s1, c, s2, rfl, rfl, hc, -⟩
  rcases h with h | h
  · exact h (mem_append_right _ (.head _))
  · exact hc (h c (mem_append_right _ (.head _)))

theorem untouched_of_side {pattern path : Text} (h : '?' ∉ pattern ∨ Ascii path) :
    Untouched pattern path :=
  .inr ⟨not_meets h, fun _ => not_meets (h.imp id basename_ascii)⟩

/-- A pattern of single characters and slashes for a path. -/
def mask (path : Text) : Text := path.map fun c => if c = '/' then '/' else '?'

theorem glob_mask (path : Text) : Glob charSpecial (mask path) path := by
  induction path with
  | nil => exact .nil
  | cons c path ih =>
    by_cases hc : c = '/'
    · subst hc
      exact .letter (by decide) (by decide) ih
    · have hmask : mask (c :: path) = charSpecial.any :: mask path := by
        rw [mask, map_cons, if_neg hc]
        rfl
      rw [hmask]
      exact .any hc ih

/-- Without stars a pattern takes as many letters as it has. -/
theorem Glob.length_eq {α : Type} {sp : Special α} {p t : List α} (h : Glob sp p t)
    (hstar : sp.star ∉ p) : t.length = p.length := by
  induction h with
  | nil => rfl
  | letter _ _ _ ih => rw [length_cons, length_cons, ih fun h => hstar (mem_cons_of_mem _ h)]
  | any _ _ ih => rw [length_cons, length_cons, ih fun h => hstar (mem_cons_of_mem _ h)]
  | star _ _ _ _ => exact absurd (.head _) hstar
  | deep _ _ _ => exact absurd (mem_append_left _ (mem_replicate.mpr ⟨by omega, rfl⟩)) hstar
  | skip _ _ => exact absurd (mem_append_left _ (mem_replicate.mpr ⟨by omega, rfl⟩)) hstar

theorem mask_ascii (path : Text) : Ascii (mask path) := by
  intro c hc
  obtain ⟨d, -, rfl⟩ := mem_map.mp hc
  split_ifs <;> decide

theorem two_le_charLen {c : Char} (h : ¬ c.toNat < 128) : 2 ≤ charLen c := by
  by_contra hlt
  have hone : charLen c = 1 := by
    have hpos := charLen_pos c
    omega
  obtain ⟨b, hb⟩ := length_eq_one_iff.mp hone
  unfold String.utf8EncodeChar at hb
  dsimp only at hb
  have hgt : ¬ c.val.toNat ≤ 127 := fun hle => h (Nat.lt_succ_of_le hle)
  rw [if_neg hgt] at hb
  split_ifs at hb <;> cases hb

theorem length_lt_byteLen {path : Text} (h : ¬ Ascii path) : path.length < byteLen path := by
  induction path with
  | nil => exact absurd (fun c hc => absurd hc not_mem_nil) h
  | cons c path ih =>
    rw [byteLen_cons, length_cons]
    have hpos := charLen_pos c
    by_cases hrest : Ascii path
    · have hc : ¬ c.toNat < 128 := by
        intro hc
        refine h fun d hd => ?_
        rcases mem_cons.mp hd with rfl | hd
        · exact hc
        · exact hrest d hd
      have htwo := two_le_charLen hc
      have hlen := byteLen_eq_length fun d hd => charLen_of_lt (hrest d hd)
      omega
    · have hlt := ih hrest
      omega

/-- A path with a character of more than one byte does not match its own mask. -/
theorem globMatch_mask {path : Text} (h : ¬ Ascii path) : globMatch (mask path) path = false := by
  have hno : globMatchInner (utf8 (mask path)) (utf8 path) = false := by
    rw [← Bool.not_eq_true, globMatchInner_iff _ le_rfl]
    intro hglob
    have hstar : byteSpecial.star ∉ utf8 (mask path) := by
      refine utf8_special (d := '*') (by decide) fun hmem => ?_
      obtain ⟨c, -, hc⟩ := mem_map.mp hmem
      split_ifs at hc <;> exact absurd hc (by decide)
    have hlen : byteLen path = byteLen (mask path) := hglob.length_eq hstar
    rw [byteLen_eq_length fun d hd => charLen_of_lt (mask_ascii path d hd), mask,
      length_map] at hlen
    have hlt := length_lt_byteLen h
    omega
  rw [globMatch, hno, Bool.false_or]
  by_cases hslash : '/' ∈ mask path
  · rw [decide_eq_false (not_not.mpr hslash), Bool.false_and]
  · have hpath : '/' ∉ path := by
      intro hmem
      refine hslash (mem_map.mpr ⟨'/', hmem, ?_⟩)
      rw [if_pos rfl]
    rw [basename_of_not_mem hpath, hno, Bool.and_false]

/-- **The glob matcher accepts its documented language** of every pattern and path whose `?` meets
no character of more than one byte. It does for every pattern exactly when the path is ASCII, and
for every path where the pattern has no `?`. -/
theorem globMatch_exact (path : Text) :
    (∀ pattern, Untouched pattern path → (globMatch pattern path = true ↔
      path ∈ globPaths pattern)) ∧
      ((∀ pattern, globMatch pattern path = true ↔ path ∈ globPaths pattern) ↔ Ascii path) ∧
      ∀ pattern, '?' ∉ pattern → (globMatch pattern path = true ↔ path ∈ globPaths pattern) := by
  refine ⟨fun pattern => globMatch_of_untouched, ⟨fun h => ?_, fun h pattern => ?_⟩,
    fun pattern h => ?_⟩
  · by_contra hascii
    have htrue := (h (mask path)).mpr (.inl (glob_mask path))
    rw [globMatch_mask hascii] at htrue
    cases htrue
  · exact globMatch_of_untouched (untouched_of_side (.inr h))
  · exact globMatch_of_untouched (untouched_of_side (.inl h))

/-- A single character against `?`. -/
theorem globMatch_accent : globMatch ['?'] ['é'] = false ∧ ['é'] ∈ globPaths ['?'] :=
  ⟨@globMatch_mask ['é'] (by intro h; exact absurd (h 'é' (.head _)) (by decide)),
    .inl (glob_mask ['é'])⟩

/-- The characters outside ASCII are not before the `?`. -/
example : Untouched ['a', '?', 'c', '/', 'é'] ['a', 'b', 'c', '/', 'é'] :=
  .inl (.inl (.letter (by decide) (by decide)
    (.any ⟨by decide, by decide⟩ (.letter (by decide) (by decide)
    (.letter (by decide) (by decide) (.letter (by decide) (by decide) .nil))))))

end Thegn.Search
