import Thegn.Dns.Filter
import Thegn.Lib.Words

set_option autoImplicit false

/-! # What the filter decides

A pattern stands for names by their labels (`Pattern.Matches`), and a policy forwards a name that no
blocked pattern matches and, if it has allowed patterns, one of them does (`Decides`). The filter
compares texts in which the labels are joined by dots. The two agree under every policy exactly for
the names that are `Faithful`.
-/

namespace Thegn.Dns

open Text Pipeline List

/-! ## Names as lists of labels -/

/-- A label of a well-formed name. -/
structure IsLabel (l : Text) : Prop where
  nonempty : l ≠ []
  no_dot : '.' ∉ l
  no_space : ∀ c ∈ l, isWhitespace c = false

/-- The text of a name. -/
def dotted (ls : List Text) : Text := join ['.'] ls

theorem dotted_singleton (l : Text) : dotted [l] = l := by
  rw [dotted, join, intercalate_singleton]

theorem dotted_cons {l : Text} {ls : List Text} (h : ls ≠ []) :
    dotted (l :: ls) = l ++ '.' :: dotted ls := by
  rw [dotted, join, intercalate_cons_of_ne_nil h]
  simp [dotted, join]

theorem dotted_append {as bs : List Text} (ha : as ≠ []) (hb : bs ≠ []) :
    dotted (as ++ bs) = dotted as ++ '.' :: dotted bs := by
  induction as with
  | nil => exact absurd rfl ha
  | cons a as ih =>
    by_cases has : as = []
    · subst has
      rw [singleton_append, dotted_cons hb, dotted_singleton]
    · rw [cons_append, dotted_cons (by simp [hb]), ih has, dotted_cons has]
      simp

section Labels

variable {ls ms ps : List Text}

theorem splitOn_dotted (hne : ls ≠ []) (h : ∀ l ∈ ls, IsLabel l) : (dotted ls).splitOn '.' = ls :=
  splitOn_intercalate '.' (fun l hl => (h l hl).no_dot) hne

theorem dotted_injective (hls : ls ≠ []) (hms : ms ≠ []) (h : ∀ l ∈ ls, IsLabel l)
    (h' : ∀ l ∈ ms, IsLabel l) (heq : dotted ls = dotted ms) : ls = ms := by
  rw [← splitOn_dotted hls h, ← splitOn_dotted hms h', heq]

/-- A suffix behind a dot is a proper suffix of the labels. -/
theorem dotted_suffix_iff (hms : ms ≠ []) (hps : ps ≠ []) (h : ∀ l ∈ ms, IsLabel l)
    (h' : ∀ l ∈ ps, IsLabel l) :
    '.' :: dotted ps <:+ dotted ms ↔ ps <:+ ms ∧ ps.length < ms.length := by
  constructor
  · rintro ⟨w, hw⟩
    have hsplit := splitOn_dotted hms h
    rw [← hw, splitOn_append_cons_self, splitOn_dotted hps h'] at hsplit
    have hpos : 0 < (w.splitOn '.').length := length_pos_iff.mpr (splitOn_ne_nil _ _)
    refine ⟨⟨_, hsplit⟩, ?_⟩
    rw [← hsplit, length_append]
    omega
  · rintro ⟨⟨q, rfl⟩, hlt⟩
    have hq : q ≠ [] := by
      rintro rfl
      simp at hlt
    exact ⟨dotted q, (dotted_append hq hps).symm⟩

theorem mem_dotted {c : Char} (h : c ∈ dotted ls) : c = '.' ∨ ∃ l ∈ ls, c ∈ l := by
  induction ls with
  | nil => simp [dotted, join] at h
  | cons l ls ih =>
    by_cases hls : ls = []
    · subst hls
      rw [dotted_singleton] at h
      exact .inr ⟨l, by simp, h⟩
    · rw [dotted_cons hls] at h
      rcases mem_append.mp h with h | h
      · exact .inr ⟨l, by simp, h⟩
      · rcases mem_cons.mp h with rfl | h
        · exact .inl rfl
        · rcases ih h with rfl | ⟨m, hm, hc⟩
          · exact .inl rfl
          · exact .inr ⟨m, .tail _ hm, hc⟩

theorem dotted_ne_nil (hne : ls ≠ []) (h : ∀ l ∈ ls, IsLabel l) : dotted ls ≠ [] := by
  intro hnil
  have hsplit := splitOn_dotted hne h
  rw [hnil, splitOn_nil] at hsplit
  exact (h [] (hsplit ▸ mem_singleton_self _)).nonempty rfl

end Labels

/-! ## Normalising -/

theorem lower_lower (l : Text) : lower (lower l) = lower l := by
  rw [lower, lower, map_map]
  exact map_congr_left fun c _ => toLower_toLower c

theorem isLabel_lower {l : Text} (h : IsLabel l) : IsLabel (lower l) where
  nonempty := by simpa [lower] using h.nonempty
  no_dot := by
    intro hmem
    obtain ⟨c, hc, heq⟩ := mem_map.mp hmem
    rw [toLower_eq_iff (by decide)] at heq
    exact h.no_dot (heq ▸ hc)
  no_space := by
    intro c' hmem
    obtain ⟨c, hc, rfl⟩ := mem_map.mp hmem
    rw [isWhitespace_toLower]
    exact h.no_space c hc

theorem isLabel_of_lower {l : Text} (h : IsLabel (lower l)) : IsLabel l where
  nonempty := by
    rintro rfl
    exact h.nonempty rfl
  no_dot := by
    intro hmem
    have hlow : Char.toLower '.' ∈ lower l := mem_map_of_mem hmem
    exact h.no_dot hlow
  no_space := by
    intro c hc
    rw [← isWhitespace_toLower]
    exact h.no_space _ (mem_map_of_mem hc)

theorem isLabel_map_lower {ls : List Text} (h : ∀ l ∈ ls, IsLabel l) :
    ∀ l ∈ ls.map lower, IsLabel l := by
  intro l hl
  obtain ⟨m, hm, rfl⟩ := mem_map.mp hl
  exact isLabel_lower (h m hm)

theorem lower_dotted (ls : List Text) : lower (dotted ls) = dotted (ls.map lower) := by
  induction ls with
  | nil => rfl
  | cons l ls ih =>
    by_cases hls : ls = []
    · subst hls
      rw [map_singleton, dotted_singleton, dotted_singleton]
    · rw [map_cons, dotted_cons hls, dotted_cons (by simpa using hls), ← ih]
      simp only [lower, map_append, map_cons]
      rfl

theorem no_space_dotted {ls : List Text} (h : ∀ l ∈ ls, IsLabel l) :
    ∀ c ∈ dotted ls, isWhitespace c = false := by
  intro c hc
  rcases mem_dotted hc with rfl | ⟨l, hl, hcl⟩
  · decide
  · exact (h l hl).no_space c hcl

/-- A text whose last part is a label does not end in a dot. -/
theorem stripSuffix_of_splitOn {t : Text} {q ls : List Text} (hne : ls ≠ [])
    (h : ∀ l ∈ ls, IsLabel l) (ht : t.splitOn '.' = q ++ ls) : stripSuffix ['.'] t = none := by
  rw [Option.eq_none_iff_forall_ne_some]
  intro w hw
  rw [stripSuffix, List.dropSuffix?_eq_some_iff] at hw
  obtain ⟨s', hs', hbeq⟩ := hw
  have heq : s' = ['.'] := by simpa using hbeq
  rw [hs', heq, splitOn_append_cons_self, splitOn_nil] at ht
  have hlast := congrArg List.getLast? ht
  rw [List.getLast?_concat, List.getLast?_append_of_ne_nil _ hne] at hlast
  exact (h [] (mem_of_getLast? hlast.symm)).nonempty rfl

/-- What is neither empty nor has spaces or empty parts is a name. -/
theorem norm_eq (value : Text) {w : Text}
    (hw : (stripSuffix ['.'] (trim value)).getD (trim value) = w) :
    norm value = if w.isEmpty || w.any isWhitespace || (w.splitOn '.').any List.isEmpty then none
      else some (lower w) := by
  simp only [norm, hw]
  rfl

/-- A name, with or without a dot at its end, is normalised to lower case. -/
theorem norm_dotted {ls : List Text} (hne : ls ≠ []) (h : ∀ l ∈ ls, IsLabel l) {t : Text}
    (ht : t = dotted ls ∨ t = dotted ls ++ ['.']) : norm t = some (dotted (ls.map lower)) := by
  have hspace := no_space_dotted h
  have hw : (stripSuffix ['.'] (trim t)).getD (trim t) = dotted ls := by
    rcases ht with rfl | rfl
    · rw [(trimmed_of_forall hspace).trim_eq,
        stripSuffix_of_splitOn (t := dotted ls) (q := []) hne h (splitOn_dotted hne h),
        Option.getD_none]
    · have hspace' : ∀ c ∈ dotted ls ++ ['.'], isWhitespace c = false := by
        intro c hc
        rcases mem_append.mp hc with hc | hc
        · exact hspace c hc
        · rw [mem_singleton.mp hc]
          decide
      have hstrip : stripSuffix ['.'] (dotted ls ++ ['.']) = some (dotted ls) := by
        rw [stripSuffix, List.dropSuffix?_eq_some_iff]
        exact ⟨['.'], rfl, by simp⟩
      rw [(trimmed_of_forall hspace').trim_eq, hstrip, Option.getD_some]
  rw [norm_eq t hw, if_neg, lower_dotted]
  rw [splitOn_dotted hne h]
  simp only [Bool.or_eq_true, List.isEmpty_iff, any_eq_true, not_or, not_exists, not_and]
  refine ⟨⟨dotted_ne_nil hne h, ?_⟩, ?_⟩
  · intro c hc
    rw [hspace c hc]
    decide
  · exact fun l hl => (h l hl).nonempty

/-- Behind a dot a name is read as it is. -/
theorem exists_norm_append {ls : List Text} (hne : ls ≠ []) (h : ∀ l ∈ ls, IsLabel l) {x n : Text}
    (hn : norm (x ++ '.' :: dotted ls) = some n) : ∃ y, n = y ++ '.' :: dotted (ls.map lower) := by
  have hstart : trimStart (x ++ '.' :: dotted ls) = trimStart x ++ '.' :: dotted ls := by
    rw [trimStart, dropWhile_append]
    split
    · rename_i hnil
      rw [trimStart, List.isEmpty_iff.mp hnil]
      rfl
    · rfl
  have htrim : trim (x ++ '.' :: dotted ls) = trimStart x ++ '.' :: dotted ls := by
    rw [trim, hstart]
    refine trimEndMatches_eq_self fun c hc => no_space_dotted h c ?_
    rw [append_cons, List.getLast?_append_of_ne_nil _ (dotted_ne_nil hne h)] at hc
    exact mem_of_mem_getLast? hc
  have hstrip : stripSuffix ['.'] (trimStart x ++ '.' :: dotted ls) = none := by
    refine stripSuffix_of_splitOn (q := (trimStart x).splitOn '.') hne h ?_
    rw [splitOn_append_cons_self, splitOn_dotted hne h]
  rw [norm_eq _ rfl, htrim, hstrip, Option.getD_none] at hn
  split at hn
  · cases hn
  · cases hn
    refine ⟨lower (trimStart x), ?_⟩
    rw [← lower_dotted, lower, map_append]
    rfl

/-- What is normalised to something is a name. -/
theorem exists_of_norm {t n : Text} (h : norm t = some n) :
    ∃ ms, ms ≠ [] ∧ (∀ l ∈ ms, IsLabel l) ∧ ms.map lower = ms ∧ n = dotted ms := by
  rw [norm_eq t rfl] at h
  generalize (stripSuffix ['.'] (trim t)).getD (trim t) = w at h
  split at h
  · cases h
  · rename_i hw
    cases h
    simp only [Bool.or_eq_true, List.isEmpty_iff, any_eq_true, not_or, not_exists, not_and] at hw
    obtain ⟨⟨-, hspace⟩, hparts⟩ := hw
    have hlabels : ∀ l ∈ w.splitOn '.', IsLabel l := by
      intro l hl
      refine ⟨hparts l hl, Split.not_mem_of_mem_splitOn hl, ?_⟩
      intro c hc
      simpa using hspace c (Split.mem_of_mem_splitOn hl hc)
    have hdotted : dotted (w.splitOn '.') = w := intercalate_splitOn '.'
    refine ⟨(w.splitOn '.').map lower, by simp, isLabel_map_lower hlabels, ?_, ?_⟩
    · rw [map_map]
      exact map_congr_left fun l _ => lower_lower l
    · rw [← lower_dotted, hdotted]

/-! ## Patterns -/

inductive Pattern
  | any
  | name (labels : List Text)
  | below (labels : List Text)

/-- The labels a pattern is written with. -/
def Pattern.written : Pattern → List Text
  | .any => [['*']]
  | .name ls => ls
  | .below ls => ['*'] :: ls

/-- A pattern of well-formed labels; a plain one does not begin with `*`, which makes it another. -/
def Pattern.WellFormed : Pattern → Prop
  | .any => True
  | .name ls => ls ≠ [] ∧ ls.head? ≠ some ['*'] ∧ ∀ l ∈ ls, IsLabel l
  | .below ls => ls ≠ [] ∧ ∀ l ∈ ls, IsLabel l

/-- `t` is the text of the pattern, which may end in a dot. -/
def Pattern.Writes (p : Pattern) (t : Text) : Prop :=
  t = dotted p.written ∨ t = dotted p.written ++ ['.']

/-- The labels are the last ones of the name, without regard to ASCII case. -/
def EndsIn (labels : List Bytes) (ps : List Text) : Prop :=
  ps.map (fun p => lowerLabel (utf8 p)) <:+ labels.map lowerLabel

/-- **The names a pattern stands for**, as lists of labels. -/
def Pattern.Matches (labels : List Bytes) : Pattern → Prop
  | .any => True
  | .name ps => EndsIn labels ps
  | .below ps => EndsIn labels ps ∧ ps.length < labels.length

/-- **What a policy decides of a name.** -/
def Decides (block allow : List Pattern) (labels : List Bytes) : Prop :=
  (∀ p ∈ block, ¬ p.Matches labels) ∧ (allow = [] ∨ ∃ p ∈ allow, p.Matches labels)

section Written

variable {p : Pattern} {t : Text}

theorem isLabel_star : IsLabel ['*'] where
  nonempty := by simp
  no_dot := by simp
  no_space := by
    intro c hc
    rw [mem_singleton.mp hc]
    decide

theorem Pattern.WellFormed.written_ne_nil (h : p.WellFormed) : p.written ≠ [] := by
  cases p with
  | any => simp [Pattern.written]
  | name ls => exact h.1
  | below ls => simp [Pattern.written]

theorem Pattern.WellFormed.isLabel (h : p.WellFormed) : ∀ l ∈ p.written, IsLabel l := by
  cases p with
  | any =>
    intro l hl
    rw [mem_singleton.mp hl]
    exact isLabel_star
  | name ls => exact h.2.2
  | below ls =>
    intro l hl
    rcases mem_cons.mp hl with rfl | hl
    · exact isLabel_star
    · exact h.2 l hl

theorem lower_eq_star {l : Text} : lower l = ['*'] ↔ l = ['*'] := by
  rw [lower, map_eq_singleton_iff]
  constructor
  · rintro ⟨c, rfl, hc⟩
    rw [(toLower_eq_iff (by decide)).mp hc]
  · rintro rfl
    exact ⟨'*', rfl, rfl⟩

theorem dotted_star_cons {ls : List Text} (h : ls ≠ []) :
    dotted (['*'] :: ls) = '*' :: '.' :: dotted ls :=
  dotted_cons h

/-- A name with another first label is not taken for a wildcard. -/
theorem not_wildcard {ls : List Text} (hne : ls ≠ []) (hhead : ls.head? ≠ some ['*'])
    (h : ∀ l ∈ ls, IsLabel l) :
    dotted (ls.map lower) ≠ ['*'] ∧ stripPrefix ['*', '.'] (dotted (ls.map lower)) = none := by
  have hsplit := splitOn_dotted (show ls.map lower ≠ [] by simpa using hne) (isLabel_map_lower h)
  have hfirst : ∀ rest, ls.map lower ≠ ['*'] :: rest := by
    intro rest heq
    cases ls with
    | nil => exact hne rfl
    | cons l ls =>
      rw [map_cons, List.cons.injEq, lower_eq_star] at heq
      exact hhead (by rw [List.head?_cons, heq.1])
  constructor
  · intro heq
    rw [heq] at hsplit
    exact hfirst [] hsplit.symm
  · rw [Option.eq_none_iff_forall_ne_some]
    intro r hr
    rw [stripPrefix_eq_some] at hr
    rw [hr, show ['*', '.'] ++ r = ['*'] ++ '.' :: r from rfl, splitOn_append_cons_self] at hsplit
    exact hfirst _ hsplit.symm

/-- The comparison with a normalised name, given by its labels. -/
def Pattern.MatchesNormal (name : Option (List Text)) : Pattern → Prop
  | .any => True
  | .name ls => ∃ ms, name = some ms ∧ ls.map lower <:+ ms
  | .below ls => ∃ ms, name = some ms ∧ ls.map lower <:+ ms ∧ ls.length < ms.length

/-- **How a pattern compares with a normalised name**: by the labels of the two. -/
theorem matchesPattern_iff (h : p.WellFormed) (ht : p.Writes t) {name : Option (List Text)}
    (hname : ∀ ms, name = some ms → ms ≠ [] ∧ ∀ l ∈ ms, IsLabel l) :
    matchesPattern (name.map dotted) t = true ↔ p.MatchesNormal name := by
  unfold matchesPattern Pattern.MatchesNormal
  rw [norm_dotted h.written_ne_nil h.isLabel ht]
  cases p with
  | any =>
    simp only [Pattern.written, map_singleton, dotted_singleton, matchesNormalized]
    simp [lower_eq_star]
  | name ls =>
    obtain ⟨hne, hhead, hlabels⟩ := h
    obtain ⟨hstar, hprefix⟩ := not_wildcard hne hhead hlabels
    simp only [Pattern.written, matchesNormalized, if_neg hstar, hprefix]
    cases name with
    | none => simp
    | some ms =>
      obtain ⟨hms, hml⟩ := hname ms rfl
      have hne' : ls.map lower ≠ [] := by simpa using hne
      simp only [Option.map_some, Bool.or_eq_true, beq_iff_eq, endsWith, isSuffixOf_iff_suffix,
        Option.some.injEq, exists_eq_left',
        dotted_suffix_iff hms hne' hml (isLabel_map_lower hlabels)]
      constructor
      · rintro (heq | ⟨hsuffix, -⟩)
        · exact dotted_injective hms hne' hml (isLabel_map_lower hlabels) heq ▸ suffix_rfl
        · exact hsuffix
      · intro hsuffix
        by_cases hlen : (ls.map lower).length < ms.length
        · exact .inr ⟨hsuffix, hlen⟩
        · have hle := hsuffix.length_le
          exact .inl (congrArg dotted (hsuffix.eq_of_length (by omega)).symm)
  | below ls =>
    obtain ⟨hne, hlabels⟩ := h
    have hne' : ls.map lower ≠ [] := by simpa using hne
    have hwritten : dotted ((['*'] :: ls).map lower) = '*' :: '.' :: dotted (ls.map lower) := by
      rw [map_cons, lower_eq_star.mpr rfl, dotted_star_cons hne']
    simp only [Pattern.written, hwritten, matchesNormalized]
    rw [if_neg (by simp), show stripPrefix ['*', '.'] ('*' :: '.' :: dotted (ls.map lower))
      = some (dotted (ls.map lower)) from stripPrefix_append _ _]
    cases name with
    | none => simp
    | some ms =>
      obtain ⟨hms, hml⟩ := hname ms rfl
      simp only [Option.map_some, endsWith, isSuffixOf_iff_suffix, Option.some.injEq,
        exists_eq_left', dotted_suffix_iff hms hne' hml (isLabel_map_lower hlabels), length_map]

end Written

end Thegn.Dns
