import Thegn.Dns.Decision

set_option autoImplicit false

/-! # Questions and how the filter decides them

A packet with a question holds the labels of its name behind twelve bytes of header. The filter
decides such a packet as the labels say exactly when the name and the lists are `Undisturbed`, and
under every policy exactly when the name is `Faithful` (`filter_decides_by_labels`); a packet
without a readable question passes a list without `*`.
-/

namespace Thegn.Dns

open Text Pipeline List

/-! ## Packets with a question -/

/-- The labels as they stand in a packet, with the empty label at the end. -/
def encodeName (labels : List Bytes) : Bytes :=
  labels.flatMap (fun l => UInt8.ofNat l.length :: l) ++ [0]

def question (header : Bytes) (labels : List Bytes) (tail : Bytes) : Bytes :=
  header ++ encodeName labels ++ tail

/-- A label that a packet can hold without compression. -/
def Sized (l : Bytes) : Prop := 0 < l.length ∧ l.length < 64

/-- The name the filter reads. -/
def queryName (labels : List Bytes) : Text := dotted (labels.map fromUtf8Lossy)

theorem extractLabels_encodeName {labels : List Bytes} (h : ∀ l ∈ labels, Sized l) (tail : Bytes) :
    extractLabels (encodeName labels ++ tail) = some (labels.map fromUtf8Lossy) := by
  induction labels with
  | nil => simp [encodeName, extractLabels]
  | cons l labels ih =>
    obtain ⟨hpos, hlt⟩ := h l mem_cons_self
    have hlen : (UInt8.ofNat l.length).toNat = l.length := by
      rw [UInt8.toNat_ofNat']
      exact Nat.mod_eq_of_lt (by omega)
    have hne : UInt8.ofNat l.length ≠ 0 := by
      intro h0
      have hzero := congrArg UInt8.toNat h0
      rw [hlen] at hzero
      exact absurd hzero (Nat.pos_iff_ne_zero.mp hpos)
    have hbytes : encodeName (l :: labels) ++ tail
        = UInt8.ofNat l.length :: (l ++ (encodeName labels ++ tail)) := by
      simp [encodeName]
    rw [hbytes, extractLabels, if_neg hne, hlen, if_neg (by simp), drop_left, take_left,
      ih (fun l hl => h l (mem_cons_of_mem _ hl))]
    rfl

theorem extractQueryName_question {header : Bytes} (hheader : header.length = 12)
    {labels : List Bytes} (h : ∀ l ∈ labels, Sized l) (tail : Bytes) :
    extractQueryName (question header labels tail) = some (queryName labels) := by
  have hlong : ¬ (question header labels tail).length < 13 := by
    simp [question, encodeName, hheader]
    omega
  have hdrop : (question header labels tail).drop 12 = encodeName labels ++ tail := by
    rw [question, append_assoc]
    exact drop_left' hheader
  rw [extractQueryName, if_neg hlong, hdrop, extractLabels_encodeName h]
  rfl

/-! ## Names the filter decides faithfully -/

/-- A label that a well-formed pattern can hold. -/
def Clean (l : Bytes) : Prop := ∃ t, IsLabel t ∧ utf8 t = l

/-- The text of the name says what its labels say: they are all clean; or nothing can match the last
one and the name is no name to the filter either; or the same holds of a label before the last clean
ones, of which the filter makes a `*` that no pattern begins with. -/
inductive Faithful (labels : List Bytes) : Prop
  | clean : (∀ l ∈ labels, Clean l) → Faithful labels
  | unread {l : Bytes} : labels.getLast? = some l → ¬ Clean l → norm (queryName labels) = none →
      Faithful labels
  | star {init : List Bytes} {l : Bytes} {ts : List Text} : labels = init ++ l :: ts.map utf8 →
      ¬ Clean l →
      (∀ t ∈ ts, IsLabel t) → norm (queryName labels) = some (dotted (['*'] :: ts.map lower)) →
        Faithful labels

/-- The patterns as they are written in the lists of a policy. -/
structure Written (policy : DnsPolicy) (block allow : List Pattern) : Prop where
  block : List.Forall₂ (fun p t => p.WellFormed ∧ p.Writes t) block policy.block
  allow : List.Forall₂ (fun p t => p.WellFormed ∧ p.Writes t) allow policy.allow

/-- The server forwards the packet. -/
def Forwards (policy : DnsPolicy) (packet : Bytes) : Prop :=
  ∀ policyId ring, (serve policy policyId ring packet).2 = .forward packet

theorem forwards_iff {policy : DnsPolicy} {packet : Bytes} :
    Forwards policy packet ↔ policy.allows ((extractQueryName packet).getD []) = true := by
  simp only [Forwards, serve]
  by_cases h : policy.allows ((extractQueryName packet).getD []) = true
  · simp [h]
  · simp [h]

/-- The decision of a policy from what its patterns match. -/
theorem allows_iff {policy : DnsPolicy} {name : Text} :
    policy.allows name = true ↔ (∀ t ∈ policy.block, matchesPattern (norm name) t = false) ∧
      (policy.allow = [] ∨ ∃ t ∈ policy.allow, matchesPattern (norm name) t = true) := by
  simp only [DnsPolicy.allows]
  by_cases hblock : policy.block.any (matchesPattern (norm name)) = true
  · simp only [hblock, if_true, Bool.false_eq_true, false_iff, not_and]
    obtain ⟨t, ht, hm⟩ := any_eq_true.mp hblock
    intro h
    rw [h t ht] at hm
    cases hm
  · have hnone : ∀ t ∈ policy.block, matchesPattern (norm name) t = false := by
      intro t ht
      by_contra hm
      exact hblock (any_eq_true.mpr ⟨t, ht, by simpa using hm⟩)
    rw [if_neg hblock]
    cases hallow : policy.allow with
    | nil => simpa using hnone
    | cons t ts => simpa using fun _ => hnone

/-- The decision in terms of the patterns, of which the filter takes those with `R` to match. -/
theorem allows_iff_of {policy : DnsPolicy} {block allow : List Pattern}
    (hw : Written policy block allow) {name : Text} {R : Pattern → Prop}
    (hR : ∀ p t, Pattern.WellFormed p → p.Writes t → (matchesPattern (norm name) t = true ↔ R p)) :
    policy.allows name = true ↔ (∀ p ∈ block, ¬ R p) ∧ (allow = [] ∨ ∃ p ∈ allow, R p) := by
  have hmatch : ∀ {ps : List Pattern} {ts : List Text},
    List.Forall₂ (fun p t => p.WellFormed ∧ p.Writes t) ps ts →
      ((∃ t ∈ ts, matchesPattern (norm name) t = true) ↔ ∃ p ∈ ps, R p) := by
    intro ps ts hpt
    induction hpt with
    | nil => simp
    | cons hpt _ ih => simp only [mem_cons, exists_eq_or_imp, ih, hR _ _ hpt.1 hpt.2]
  have hblock := not_congr (hmatch hw.block)
  simp only [not_exists, not_and, Bool.not_eq_true] at hblock
  have hnil : policy.allow = [] ↔ allow = [] := by
    rw [← length_eq_zero_iff, ← hw.allow.length_eq, length_eq_zero_iff]
  rw [allows_iff, hblock, hnil, hmatch hw.allow]

/-- The filter agrees with the labels of a name on every pattern. -/
def Agrees (labels : List Bytes) : Prop :=
  ∀ p t, Pattern.WellFormed p → p.Writes t →
    (matchesPattern (norm (queryName labels)) t = true ↔ p.Matches labels)

/-- To agree on every pattern is to decide alike under every policy. -/
theorem policies_iff_agrees {header : Bytes} (hheader : header.length = 12) {labels : List Bytes}
    (h : ∀ l ∈ labels, Sized l) (tail : Bytes) :
    (∀ policy block allow, Written policy block allow →
      (Forwards policy (question header labels tail) ↔ Decides block allow labels)) ↔
      Agrees labels := by
  simp only [forwards_iff, extractQueryName_question hheader h, Option.getD_some]
  constructor
  · intro hall p t hp ht
    have hw : Written ⟨[], [t], none⟩ [p] [] := ⟨.cons ⟨hp, ht⟩ .nil, .nil⟩
    have hiff := hall ⟨[], [t], none⟩ [p] [] hw
    simp only [allows_iff, mem_singleton, forall_eq, true_or, and_true, Decides] at hiff
    rw [← Bool.not_eq_false, not_iff_comm, hiff]
  · intro hagree policy block allow hw
    exact allows_iff_of hw hagree

/-! ## Suffixes of labels -/

section EndsIn

variable {labels : List Bytes} {ps ts : List Text}

theorem map_lowerLabel_utf8 (ps : List Text) :
    ps.map (fun p => lowerLabel (utf8 p)) = (ps.map lower).map utf8 := by
  rw [map_map]
  exact map_congr_left fun p _ => lowerLabel_utf8 p

theorem map_lowerLabel_map_utf8 (ts : List Text) :
    (ts.map utf8).map lowerLabel = (ts.map lower).map utf8 := by
  rw [← map_lowerLabel_utf8, map_map]
  rfl

theorem endsIn_iff : EndsIn labels ps ↔ (ps.map lower).map utf8 <:+ labels.map lowerLabel := by
  rw [EndsIn, map_lowerLabel_utf8]

/-- The labels of a name that a pattern ends it in are clean. -/
theorem exists_of_endsIn (hps : ∀ p ∈ ps, IsLabel p) (h : EndsIn labels ps) :
    ∃ (init : List Bytes) (ts : List Text), labels = init ++ ts.map utf8 ∧ (∀ t ∈ ts, IsLabel t)
      ∧ ts.map lower = ps.map lower := by
  rw [endsIn_iff] at h
  obtain ⟨q, hq⟩ := h
  obtain ⟨init, rest, rfl, -, hrest⟩ := map_eq_append_iff.mp hq.symm
  clear hq
  have hlabels := isLabel_map_lower hps
  generalize ps.map lower = ms at hrest hlabels
  obtain ⟨ts, hts, hlow⟩ : ∃ ts : List Text, rest = ts.map utf8 ∧ ts.map lower = ms := by
    induction ms generalizing rest with
    | nil =>
      rw [map_nil, map_eq_nil_iff] at hrest
      exact ⟨[], hrest, rfl⟩
    | cons m ms ih =>
      rw [map_cons, map_eq_cons_iff] at hrest
      obtain ⟨l, rest', rfl, hl, hrest'⟩ := hrest
      obtain ⟨t, rfl, ht⟩ := exists_utf8_of_lowerLabel hl
      obtain ⟨ts, rfl, hts⟩ := ih _ hrest' (fun l hl => hlabels l (mem_cons_of_mem _ hl))
      exact ⟨t :: ts, rfl, by rw [map_cons, ht, hts]⟩
  refine ⟨init, ts, by rw [hts], ?_, hlow⟩
  intro t ht
  exact isLabel_of_lower (hlabels _ (hlow ▸ mem_map_of_mem ht))

theorem endsIn_of_suffix (init : List Bytes) (h : ps.map lower <:+ ts.map lower) :
    EndsIn (init ++ ts.map utf8) ps := by
  rw [endsIn_iff, map_append]
  rw [map_lowerLabel_map_utf8]
  exact (h.map utf8).trans (suffix_append _ _)

theorem endsIn_map_utf8 : EndsIn (ts.map utf8) ps ↔ ps.map lower <:+ ts.map lower := by
  constructor
  · intro h
    rw [endsIn_iff, map_lowerLabel_map_utf8] at h
    exact (suffix_map_iff_of_injective fun _ _ => utf8_injective).mp h
  · exact endsIn_of_suffix []

/-- A label that is not clean ends what patterns can match. -/
theorem endsIn_unclean {init : List Bytes} {l : Bytes} (hl : ¬ Clean l)
    (hps : ∀ p ∈ ps, IsLabel p) :
    EndsIn (init ++ l :: ts.map utf8) ps ↔ ps.map lower <:+ ts.map lower := by
  constructor
  · intro h
    obtain ⟨init', ts', heq, hlabels, hlow⟩ := exists_of_endsIn hps h
    have hsuffix : ts'.map utf8 <:+ init ++ l :: ts.map utf8 := ⟨init', heq.symm⟩
    have hclean : l ∉ ts'.map utf8 := by
      intro hmem
      obtain ⟨t, ht, hutf⟩ := mem_map.mp hmem
      exact hl ⟨t, hlabels t ht, hutf⟩
    rcases suffix_or_suffix_of_suffix hsuffix (suffix_append _ _) with hs | hs
    · rcases suffix_cons_iff.mp hs with hs | hs
      · exact absurd (hs ▸ mem_cons_self) hclean
      · rw [← hlow]
        exact ((suffix_map_iff_of_injective fun _ _ => utf8_injective).mp hs).map lower
    · exact absurd (hs.subset mem_cons_self) hclean
  · intro h
    have heq : init ++ l :: ts.map utf8 = (init ++ [l]) ++ ts.map utf8 := by simp
    rw [heq]
    exact endsIn_of_suffix _ h

end EndsIn

/-! ## The filter and the labels -/

section Agrees

variable {labels : List Bytes}

/-- What the filter makes of the name, as labels. -/
theorem exists_normal (labels : List Bytes) : ∃ name : Option (List Text),
    norm (queryName labels) = name.map dotted ∧
      ∀ ms, name = some ms → (ms ≠ [] ∧ ∀ l ∈ ms, IsLabel l) ∧ ms.map lower = ms := by
  cases h : norm (queryName labels) with
  | none => exact ⟨none, rfl, fun _ hms => by cases hms⟩
  | some n =>
    obtain ⟨ms, hne, hlabels, hlow, rfl⟩ := exists_of_norm h
    refine ⟨some ms, rfl, ?_⟩
    intro ms' hms'
    cases hms'
    exact ⟨⟨hne, hlabels⟩, hlow⟩

/-- Agreement, in terms of the labels of the normalised name. -/
theorem agrees_iff {name : Option (List Text)} (hnorm : norm (queryName labels) = name.map dotted)
    (hname : ∀ ms, name = some ms → ms ≠ [] ∧ ∀ l ∈ ms, IsLabel l) :
    Agrees labels ↔ ∀ p, Pattern.WellFormed p → (p.MatchesNormal name ↔ p.Matches labels) := by
  unfold Agrees
  rw [hnorm]
  constructor
  · intro h p hp
    rw [← matchesPattern_iff hp (.inl rfl) hname]
    exact h p _ hp (.inl rfl)
  · intro h p t hp ht
    rw [matchesPattern_iff hp ht hname]
    exact h p hp

theorem exists_texts (h : ∀ l ∈ labels, Clean l) : ∃ ts :
    List Text, labels = ts.map utf8 ∧ ∀ t ∈ ts, IsLabel t := by
  induction labels with
  | nil => exact ⟨[], rfl, by simp⟩
  | cons l labels ih =>
    obtain ⟨t, ht, rfl⟩ := h l mem_cons_self
    obtain ⟨ts, rfl, hts⟩ := ih (fun l hl => h l (.tail _ hl))
    exact ⟨t :: ts, rfl, by simpa using ⟨ht, hts⟩⟩

theorem map_fromUtf8Lossy (ts : List Text) : (ts.map utf8).map fromUtf8Lossy = ts := by
  rw [map_map]
  conv_rhs => rw [← map_id ts]
  exact map_congr_left fun t _ => fromUtf8Lossy_utf8 t

theorem agrees_of_clean (h : ∀ l ∈ labels, Clean l) : Agrees labels := by
  obtain ⟨ts, rfl, hts⟩ := exists_texts h
  have hquery : queryName (ts.map utf8) = dotted ts := by rw [queryName, map_fromUtf8Lossy]
  by_cases hne : ts = []
  · subst hne
    rw [@agrees_iff _ none (by rw [hquery]; decide) (fun _ hms => by cases hms)]
    intro p hp
    cases p with
    | any => exact Iff.rfl
    | name ps => simp [Pattern.MatchesNormal, Pattern.Matches, EndsIn, hp.1]
    | below ps => simp [Pattern.MatchesNormal, Pattern.Matches]
  · have hnorm : norm (queryName (ts.map utf8)) = (some (ts.map lower)).map dotted := by
      rw [hquery, norm_dotted hne hts (.inl rfl)]
      rfl
    rw [agrees_iff hnorm]
    · intro p hp
      cases p with
      | any => exact Iff.rfl
      | name ps => simp [Pattern.MatchesNormal, Pattern.Matches, endsIn_map_utf8]
      | below ps => simp [Pattern.MatchesNormal, Pattern.Matches, endsIn_map_utf8]
    · intro ms hms
      cases hms
      exact ⟨by simpa using hne, isLabel_map_lower hts⟩

theorem agrees_of_unread {l : Bytes} (hlast : labels.getLast? = some l) (hl : ¬ Clean l)
    (hnorm : norm (queryName labels) = none) : Agrees labels := by
  obtain ⟨init, rfl⟩ := List.getLast?_eq_some_iff.mp hlast
  rw [@agrees_iff _ none hnorm (fun _ hms => by cases hms)]
  have hnever : ∀ ps : List Text, ps ≠ [] → (∀ p ∈ ps, IsLabel p) → ¬ EndsIn (init ++ [l]) ps := by
    intro ps hne hps h
    have hsuffix := (@endsIn_unclean ps [] init l hl hps).mp h
    rw [map_nil, suffix_nil, map_eq_nil_iff] at hsuffix
    exact hne hsuffix
  intro p hp
  cases p with
  | any => exact Iff.rfl
  | name ps => simp [Pattern.MatchesNormal, Pattern.Matches, hnever ps hp.1 hp.2.2]
  | below ps => simp [Pattern.MatchesNormal, Pattern.Matches, hnever ps hp.1 hp.2]

theorem agrees_of_star {init : List Bytes} {l : Bytes} {ts : List Text}
    (heq : labels = init ++ l :: ts.map utf8) (hl : ¬ Clean l) (hts : ∀ t ∈ ts, IsLabel t)
    (hnorm : norm (queryName labels) = some (dotted (['*'] :: ts.map lower))) : Agrees labels := by
  have hnorm' : norm (queryName labels) = (some (['*'] :: ts.map lower)).map dotted := hnorm
  rw [agrees_iff hnorm']
  · intro p hp
    rw [heq]
    cases p with
    | any => exact Iff.rfl
    | name ps =>
      obtain ⟨hne, hhead, hps⟩ := hp
      simp only [Pattern.MatchesNormal, Pattern.Matches, Option.some.injEq, exists_eq_left',
        endsIn_unclean hl hps, suffix_cons_iff]
      have hfirst : ps.map lower ≠ ['*'] :: ts.map lower := by
        intro hcons
        obtain ⟨q, qs, rfl, hq, -⟩ := map_eq_cons_iff.mp hcons
        exact hhead (by rw [List.head?_cons, lower_eq_star.mp hq])
      simp [hfirst]
    | below ps =>
      obtain ⟨hne, hps⟩ := hp
      simp only [Pattern.MatchesNormal, Pattern.Matches, Option.some.injEq, exists_eq_left',
        endsIn_unclean hl hps, suffix_cons_iff, length_cons, length_append, length_map]
      constructor
      · rintro ⟨hs | hs, hlt⟩
        · have hlen := congrArg List.length hs
          simp only [length_map, length_cons] at hlen
          omega
        · have hle := hs.length_le
          simp only [length_map] at hle
          exact ⟨hs, by omega⟩
      · rintro ⟨hs, -⟩
        have hle := hs.length_le
        simp only [length_map] at hle
        exact ⟨.inr hs, by omega⟩
  · intro ms hms
    cases hms
    refine ⟨by simp, ?_⟩
    intro m hm
    rcases mem_cons.mp hm with rfl | hm
    · exact isLabel_star
    · exact isLabel_map_lower hts m hm

theorem clean_utf8 {ts : List Text} (hts : ∀ t ∈ ts, IsLabel t) : ∀ l ∈ ts.map utf8, Clean l := by
  intro l hl
  obtain ⟨t, ht, rfl⟩ := mem_map.mp hl
  exact ⟨t, hts t ht, rfl⟩

/-- A name that the filter cannot read must end in a label that no pattern can hold. -/
theorem faithful_of_none (hnorm : norm (queryName labels) = none)
    (h : ∀ p, Pattern.WellFormed p → (p.MatchesNormal none ↔ p.Matches labels)) :
    Faithful labels := by
  cases hlast : labels.getLast? with
  | none =>
    rw [List.getLast?_eq_none_iff] at hlast
    subst hlast
    exact .clean (by simp)
  | some l =>
    by_cases hl : Clean l
    · exfalso
      obtain ⟨t, ht, rfl⟩ := hl
      obtain ⟨init, rfl⟩ := List.getLast?_eq_some_iff.mp hlast
      by_cases hinit : init = []
      · subst hinit
        have hquery : queryName [utf8 t] = dotted [t] := by
          rw [queryName, map_singleton, fromUtf8Lossy_utf8]
        rw [nil_append, hquery, norm_dotted (by simp) (by simpa using ht) (.inl rfl)] at hnorm
        cases hnorm
      · have hpos := length_pos_iff.mpr hinit
        have hmatch : (Pattern.below [t]).Matches (init ++ [utf8 t]) :=
          ⟨endsIn_of_suffix init (suffix_refl ([t].map lower)), by simp; omega⟩
        obtain ⟨ms, hms, -⟩ := (h (.below [t]) ⟨by simp, by simpa using ht⟩).mpr hmatch
        cases hms
    · exact .unread hlast hl hnorm

/-- Labels that end in those of the filter's name are all of them, or a wildcard tells them
apart. -/
theorem length_le_of_agrees {ms : List Text} {init : List Bytes} {ts : List Text}
    (hts : ∀ t ∈ ts, IsLabel t) (heq : ts.map lower = ms) (hne : ts ≠ [])
    (h : ∀ p, Pattern.WellFormed p → (p.MatchesNormal (some ms) ↔
      p.Matches (init ++ ts.map utf8))) :
    init = [] := by
  by_contra hinit
  have hpos := length_pos_iff.mpr hinit
  have hmatch : (Pattern.below ts).Matches (init ++ ts.map utf8) :=
    ⟨endsIn_of_suffix init suffix_rfl, by simp; omega⟩
  obtain ⟨ms', hms', -, hlt⟩ := (h (.below ts) ⟨hne, hts⟩).mpr hmatch
  cases hms'
  rw [← heq, length_map] at hlt
  exact absurd hlt (Nat.lt_irrefl _)

/-- A name with an ordinary first label: the labels are those the filter reads. -/
theorem faithful_of_name {m : Text} {ms : List Text} (hms : ∀ l ∈ m :: ms, IsLabel l)
    (hlow : (m :: ms).map lower = m :: ms) (hm : m ≠ ['*'])
    (h : ∀ p, Pattern.WellFormed p → (p.MatchesNormal (some (m :: ms)) ↔ p.Matches labels)) :
    Faithful labels := by
  have hmatch : (Pattern.name (m :: ms)).Matches labels :=
    (h (.name (m :: ms)) ⟨by simp, by simpa using hm, hms⟩).mp ⟨_, rfl, by rw [hlow]⟩
  obtain ⟨init, ts, rfl, hts, heq⟩ := exists_of_endsIn hms hmatch
  have hne : ts ≠ [] := by
    rintro rfl
    cases heq
  have hinit := length_le_of_agrees hts (heq.trans hlow) hne h
  subst hinit
  exact .clean (clean_utf8 hts)

/-- The labels behind a first label `*` of the filter's name. -/
theorem exists_tail_of_star {ms : List Text} (hms : ∀ l ∈ ms, IsLabel l) (hlow : ms.map lower = ms)
    (hnorm : norm (queryName labels) = some (dotted (['*'] :: ms)))
    (h : ∀ p, Pattern.WellFormed p → (p.MatchesNormal (some (['*'] :: ms)) ↔ p.Matches labels)) :
    ∃ (init : List Bytes) (l : Bytes) (ts : List Text), labels = init ++ l :: ts.map utf8
      ∧ (∀ t ∈ ts, IsLabel t) ∧ ts.map lower = ms := by
  obtain ⟨init, ts, rfl, hne, hts, heq⟩ : ∃ (init : List Bytes) (ts : List Text),
      labels = init ++ ts.map utf8 ∧ init ≠ [] ∧ (∀ t ∈ ts, IsLabel t) ∧ ts.map lower = ms := by
    by_cases hnil : ms = []
    · subst hnil
      refine ⟨labels, [], by simp, ?_, by simp, rfl⟩
      rintro rfl
      cases hnorm
    · have hmatch : (Pattern.below ms).Matches labels :=
        (h (.below ms) ⟨hnil, hms⟩).mp ⟨_, rfl, by rw [hlow]; exact suffix_cons _ _, by simp⟩
      obtain ⟨hends, hlt⟩ := hmatch
      obtain ⟨init, ts, rfl, hts, heq⟩ := exists_of_endsIn hms hends
      refine ⟨init, ts, rfl, ?_, hts, heq.trans hlow⟩
      rintro rfl
      have hlen := congrArg List.length (heq.trans hlow)
      simp only [length_map, nil_append] at hlen hlt
      omega
  obtain ⟨init', l, rfl⟩ := eq_nil_or_concat init |>.resolve_left hne
  exact ⟨init', l, ts, by simp, hts, heq⟩

theorem faithful_of_star {ms : List Text} (hms : ∀ l ∈ ms, IsLabel l) (hlow : ms.map lower = ms)
    (hnorm : norm (queryName labels) = some (dotted (['*'] :: ms)))
    (h : ∀ p, Pattern.WellFormed p → (p.MatchesNormal (some (['*'] :: ms)) ↔ p.Matches labels)) :
    Faithful labels := by
  obtain ⟨init, l, ts, rfl, hts, rfl⟩ := exists_tail_of_star hms hlow hnorm h
  by_cases hl : Clean l
  · obtain ⟨t, ht, rfl⟩ := hl
    have hall : ∀ u ∈ t :: ts, IsLabel u := by simpa using ⟨ht, hts⟩
    have hlabels : init ++ utf8 t :: ts.map utf8 = init ++ (t :: ts).map utf8 := rfl
    rw [hlabels] at h ⊢
    have hstar : t = ['*'] := by
      by_contra hne
      have hmatch : (Pattern.name (t :: ts)).Matches (init ++ (t :: ts).map utf8) :=
        endsIn_of_suffix init suffix_rfl
      obtain ⟨ms', hms', hsuffix⟩ :=
        (h (.name (t :: ts)) ⟨by simp, by simpa using hne, hall⟩).mpr hmatch
      cases hms'
      have heq := hsuffix.eq_of_length (by simp)
      rw [map_cons, List.cons.injEq, lower_eq_star] at heq
      exact hne heq.1
    have hinit := length_le_of_agrees hall (by rw [map_cons, hstar, lower_eq_star.mpr rfl])
      (by simp) h
    subst hinit
    exact .clean (clean_utf8 hall)
  · exact .star rfl hl hts hnorm

theorem faithful_of_agrees (h : Agrees labels) : Faithful labels := by
  obtain ⟨name, hnorm, hname⟩ := exists_normal labels
  rw [agrees_iff hnorm (fun ms hms => (hname ms hms).1)] at h
  cases name with
  | none => exact faithful_of_none hnorm h
  | some ms =>
    obtain ⟨⟨hne, hms⟩, hlow⟩ := hname ms rfl
    obtain ⟨m, ms, rfl⟩ := exists_cons_of_ne_nil hne
    by_cases hm : m = ['*']
    · subst hm
      exact faithful_of_star (fun l hl => hms l (mem_cons_of_mem _ hl))
        (List.cons.inj hlow).2 hnorm h
    · exact faithful_of_name hms hlow hm h

/-- **The filter agrees with the labels of a name exactly when it is faithful.** -/
theorem agrees_iff_faithful : Agrees labels ↔ Faithful labels := by
  constructor
  · exact faithful_of_agrees
  · intro h
    cases h with
    | clean h => exact agrees_of_clean h
    | unread hlast hl hnorm => exact agrees_of_unread hlast hl hnorm
    | star heq hl hts hnorm => exact agrees_of_star heq hl hts hnorm

end Agrees

/-! ## Packets without a readable question -/

/-- A name the filter cannot read is matched by `*` alone. -/
theorem matchesPattern_none {p : Pattern} {t : Text} (hp : p.WellFormed) (ht : p.Writes t) :
    matchesPattern none t = true ↔ p = .any := by
  have hiff := @matchesPattern_iff p t hp ht none (fun _ hms => by cases hms)
  rw [Option.map_none] at hiff
  rw [hiff]
  cases p <;> simp [Pattern.MatchesNormal]

/-- What the filter makes of a name it cannot read. -/
theorem allows_of_none {policy : DnsPolicy} {block allow : List Pattern}
    (hw : Written policy block allow) {name : Text} (h : norm name = none) :
    policy.allows name = true ↔ .any ∉ block ∧ (allow = [] ∨ .any ∈ allow) := by
  rw [allows_iff_of hw (R := (· = .any)) fun p t hp ht => h ▸ matchesPattern_none hp ht]
  simp only [exists_eq_right]
  refine and_congr_left fun _ => ⟨fun hall hmem => hall _ hmem rfl, ?_⟩
  rintro hany p hp rfl
  exact hany hp

/-- What becomes of a packet whose question cannot be read. -/
theorem forwards_of_unreadable {policy : DnsPolicy} {block allow : List Pattern}
    (hw : Written policy block allow) {packet : Bytes} (h : extractQueryName packet = none) :
    Forwards policy packet ↔ .any ∉ block ∧ (allow = [] ∨ .any ∈ allow) := by
  rw [forwards_iff, h, Option.getD_none, allows_of_none hw (by decide)]

/-! ## Queries that are decided by their labels -/

/-- The last `k` labels are clean. -/
def CleanEnd (labels : List Bytes) (k : Nat) : Prop :=
  k ≤ labels.length ∧ ∀ l ∈ labels.drop (labels.length - k), Clean l

/-- The name that the filter reads ends in the labels of the pattern, but not all the labels in
their place are clean. -/
def Pattern.Forged (labels : List Bytes) : Pattern → Prop
  | .any => False
  | .name ps => ∃ n, norm (queryName labels) = some n ∧ ps.map lower <:+ n.splitOn '.' ∧
    ¬ CleanEnd labels ps.length
  | .below ps => ∃ n, norm (queryName labels) = some n ∧ ps.map lower <:+ n.splitOn '.' ∧
      ps.length < (n.splitOn '.').length ∧ ¬ CleanEnd labels ps.length

/-- **When a query is decided by its labels.** A name that cannot be read is taken to match `*`
alone, and one that can to match also what is forged. -/
structure Undisturbed (labels : List Bytes) (block allow : List Pattern) : Prop where
  unread : norm (queryName labels) = none → .any ∈ block ∨
    (∀ p ∈ block, ¬ p.Matches labels) ∧
      (allow = [] ∨ .any ∈ allow ∨ ∀ p ∈ allow, ¬ p.Matches labels) ∨
    (∃ p ∈ block, p.Matches labels) ∧ allow ≠ [] ∧ .any ∉ allow
  read : norm (queryName labels) ≠ none → (∃ p ∈ block, p.Matches labels) ∨
    (∀ p ∈ block, ¬ p.Forged labels) ∧
      ((∃ p ∈ allow, p.Matches labels) ∨ ∀ p ∈ allow, ¬ p.Forged labels) ∨
    (∃ p ∈ block, p.Forged labels) ∧ allow ≠ [] ∧ ∀ p ∈ allow, ¬ p.Matches labels

section Undisturbed

variable {labels init : List Bytes} {ts : List Text} {n : Text}

/-- What the filter reads of a name whose last labels are clean ends in them. -/
theorem exists_read (hne : ts ≠ []) (hts : ∀ t ∈ ts, IsLabel t)
    (h : norm (queryName (init ++ ts.map utf8)) = some n) :
    ∃ q, n.splitOn '.' = q ++ ts.map lower ∧ (q = [] ↔ init = []) := by
  have hlower := splitOn_dotted (show ts.map lower ≠ [] by simpa using hne) (isLabel_map_lower hts)
  rw [queryName, map_append, map_fromUtf8Lossy] at h
  by_cases hinit : init = []
  · subst hinit
    rw [map_nil, nil_append, norm_dotted hne hts (.inl rfl)] at h
    cases h
    exact ⟨[], hlower, by simp⟩
  · rw [dotted_append (by simpa using hinit) hne] at h
    obtain ⟨x, rfl⟩ := exists_norm_append hne hts h
    exact ⟨x.splitOn '.', by rw [splitOn_append_cons_self, hlower],
      iff_of_false (splitOn_ne_nil _ _) hinit⟩

theorem exists_of_cleanEnd {k : Nat} (h : CleanEnd labels k) :
    ∃ (init : List Bytes) (ts : List Text), labels = init ++ ts.map utf8 ∧ ts.length = k ∧
    ∀ t ∈ ts, IsLabel t := by
  obtain ⟨ts, heq, hts⟩ := exists_texts h.2
  refine ⟨labels.take (labels.length - k), ts, by rw [← heq, take_append_drop], ?_, hts⟩
  have hlen := congrArg List.length heq
  rw [length_drop, length_map] at hlen
  have hle := h.1
  omega

/-- A pattern that ends the name in the place of clean labels has these labels. -/
theorem endsIn_of_cleanEnd {ps : List Text} (hne : ps ≠ []) (h : norm (queryName labels) = some n)
    (hs : ps.map lower <:+ n.splitOn '.') (hclean : CleanEnd labels ps.length) :
    EndsIn labels ps ∧ (ps.length < (n.splitOn '.').length → ps.length < labels.length) := by
  obtain ⟨init, ts, rfl, hlen, hts⟩ := exists_of_cleanEnd hclean
  have hts' : ts ≠ [] := by
    rintro rfl
    exact hne (length_eq_zero_iff.mp hlen.symm)
  obtain ⟨q, hq, hnil⟩ := exists_read hts' hts h
  rw [hq] at hs ⊢
  have heq : ps.map lower = ts.map lower :=
    (suffix_of_suffix_length_le hs (suffix_append _ _) (by simp [hlen])).eq_of_length
      (by simp [hlen])
  refine ⟨endsIn_of_suffix init (heq ▸ suffix_rfl), fun hlt => ?_⟩
  have hinit : init ≠ [] := by
    rintro rfl
    rw [hnil.mpr rfl, nil_append, length_map, hlen] at hlt
    exact absurd hlt (Nat.lt_irrefl _)
  have hpos := length_pos_iff.mpr hinit
  rw [length_append, length_map, hlen]
  omega

/-- The name that the filter reads ends in the last labels that are a pattern's. -/
theorem suffix_of_endsIn {ps : List Text} (hne : ps ≠ []) (hps : ∀ l ∈ ps, IsLabel l)
    (h : norm (queryName labels) = some n) (hends : EndsIn labels ps) :
    ps.map lower <:+ n.splitOn '.' ∧ (ps.length < labels.length →
      ps.length < (n.splitOn '.').length) := by
  obtain ⟨init, ts, rfl, hts, heq⟩ := exists_of_endsIn hps hends
  have hts' : ts ≠ [] := by
    rintro rfl
    exact hne (map_eq_nil_iff.mp heq.symm)
  obtain ⟨q, hq, hnil⟩ := exists_read hts' hts h
  have hlen := congrArg List.length heq
  rw [length_map, length_map] at hlen
  rw [hq, heq]
  refine ⟨suffix_append _ _, fun hlt => ?_⟩
  have hq' : q ≠ [] := by
    rintro rfl
    rw [hnil.mp rfl, nil_append, length_map, hlen] at hlt
    exact absurd hlt (Nat.lt_irrefl _)
  have hpos := length_pos_iff.mpr hq'
  rw [length_append, length_map]
  omega

/-- **What the filter takes to match a name it can read.** -/
theorem matchesNormal_iff {p : Pattern} (hp : p.WellFormed) (h : norm (queryName labels) = some n) :
    p.MatchesNormal (some (n.splitOn '.')) ↔ p.Matches labels ∨ p.Forged labels := by
  cases p with
  | any => simp [Pattern.MatchesNormal, Pattern.Matches]
  | name ps =>
    simp only [Pattern.MatchesNormal, Pattern.Matches, Pattern.Forged, h, Option.some.injEq,
      exists_eq_left']
    constructor
    · intro hs
      by_cases hclean : CleanEnd labels ps.length
      · exact .inl (endsIn_of_cleanEnd hp.1 h hs hclean).1
      · exact .inr ⟨hs, hclean⟩
    · rintro (hends | hforged)
      · exact (suffix_of_endsIn hp.1 hp.2.2 h hends).1
      · exact hforged.1
  | below ps =>
    simp only [Pattern.MatchesNormal, Pattern.Matches, Pattern.Forged, h, Option.some.injEq,
      exists_eq_left']
    constructor
    · rintro ⟨hs, hlt⟩
      by_cases hclean : CleanEnd labels ps.length
      · have hends := endsIn_of_cleanEnd hp.1 h hs hclean
        exact .inl ⟨hends.1, hends.2 hlt⟩
      · exact .inr ⟨hs, hlt, hclean⟩
    · rintro (⟨hends, hlt⟩ | hforged)
      · have hs := suffix_of_endsIn hp.1 hp.2 h hends
        exact ⟨hs.1, hs.2 hlt⟩
      · exact ⟨hforged.1, hforged.2.1⟩

/-- **The filter decides a query by its labels exactly when it is undisturbed.** -/
theorem decides_iff_undisturbed {header : Bytes} (hheader : header.length = 12)
    (hsized : ∀ l ∈ labels, Sized l)
    (tail : Bytes) {policy : DnsPolicy} {block allow : List Pattern}
    (hw : Written policy block allow) :
    (Forwards policy (question header labels tail) ↔ Decides block allow labels) ↔
      Undisturbed labels block allow := by
  rw [forwards_iff, extractQueryName_question hheader hsized, Option.getD_some, Decides]
  have hb : .any ∈ block → ∃ p ∈ block, p.Matches labels := fun h => ⟨.any, h, trivial⟩
  have ha : .any ∈ allow → ∃ p ∈ allow, p.Matches labels := fun h => ⟨.any, h, trivial⟩
  have hnone (ps : List Pattern) (R : Pattern → Prop) : (∀ p ∈ ps, ¬ R p) ↔
    ¬ ∃ p ∈ ps, R p := by simp
  cases h : norm (queryName labels) with
  | none =>
    have hiff : Undisturbed labels block allow ↔ _ :=
      ⟨fun hu => hu.unread h, fun hu => ⟨fun _ => hu, fun hne => absurd h hne⟩⟩
    rw [allows_of_none hw h, hiff]
    simp only [hnone]
    clear hiff hnone
    grind
  | some n =>
    obtain ⟨ms, hne, hms, -, rfl⟩ := exists_of_norm h
    have hR : ∀ p t, Pattern.WellFormed p → p.Writes t →
        (matchesPattern (norm (queryName labels)) t = true ↔
          p.Matches labels ∨ p.Forged labels) := by
      intro p t hp ht
      rw [← matchesNormal_iff hp h, splitOn_dotted hne hms, h]
      exact @matchesPattern_iff p t hp ht (some ms) fun ms' hms' => by
        cases hms'
        exact ⟨hne, hms⟩
    have hread : norm (queryName labels) ≠ none := by simp [h]
    have hiff : Undisturbed labels block allow ↔ _ :=
      ⟨fun hu => hu.read hread, fun hu => ⟨fun hnone => absurd hnone hread, fun _ => hu⟩⟩
    have hnil (R : Pattern → Prop) : allow = [] → ¬ ∃ p ∈ allow, R p := by
      rintro rfl
      simp
    have hmatches := hnil fun p => p.Matches labels
    have hforged := hnil fun p => p.Forged labels
    rw [allows_iff_of hw hR, hiff]
    simp only [hnone, and_or_left, exists_or]
    clear hiff hnone hR hnil
    grind

end Undisturbed

section Sample

/-- `evil.com`, and a name below it with a space in its first label. -/
def evil : List Text := [['e', 'v', 'i', 'l'], ['c', 'o', 'm']]

def spaced : List Text := ['a', ' ', 'b'] :: evil

def blockEvil : DnsPolicy := ⟨[], [dotted evil], none⟩

theorem isLabel_evil : ∀ l ∈ evil, IsLabel l := by
  intro l hl
  simp only [evil, mem_cons, not_mem_nil, or_false] at hl
  rcases hl with rfl | rfl
  · exact ⟨by decide, by decide, by simp [isWhitespace]⟩
  · exact ⟨by decide, by decide, by simp [isWhitespace]⟩

theorem written_blockEvil : Written blockEvil [.name evil] [] :=
  ⟨.cons ⟨⟨by decide, by decide, isLabel_evil⟩, .inl rfl⟩ .nil, .nil⟩

theorem sized_spaced : ∀ l ∈ spaced.map utf8, Sized l := by
  unfold Sized
  decide

end Sample

end Thegn.Dns
