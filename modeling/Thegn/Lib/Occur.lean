import Mathlib.Data.List.Infix

set_option autoImplicit false

/-! # Occurrences of a pattern

How often a pattern stands in a list, where elements are compared by a key `norm` (the identity, or
for text its lower case). Occurrences do not cross an element that is in no pattern, so the number
in a list cut at such an element is the sum of the numbers in its parts (`occurrences_append_cons`).
-/

namespace Thegn.Occur

open List

variable {α β : Type} [DecidableEq β] (norm : α → β)

/-- The list starts with the pattern. -/
def starts (pat s : List α) : Bool := (pat.map norm).isPrefixOf (s.map norm)

/-- The number of places where the pattern stands. -/
def occurrences (pat : List α) : List α → Nat
  | [] => 0
  | c :: rest => (if starts norm pat (c :: rest) then 1 else 0) + occurrences pat rest

/-- The element is in no place of the pattern. -/
def Foreign (c : α) (pat : List α) : Prop := ∀ d ∈ pat, norm d ≠ norm c

instance (c : α) (pat : List α) : Decidable (Foreign norm c pat) :=
  inferInstanceAs (Decidable (∀ d ∈ pat, norm d ≠ norm c))

variable {norm}

@[simp] theorem occurrences_nil (pat : List α) : occurrences norm pat [] = 0 := rfl

theorem occurrences_cons (pat : List α) (c : α) (s : List α) :
    occurrences norm pat (c :: s) =
      (if starts norm pat (c :: s) then 1 else 0) + occurrences norm pat s := rfl

theorem starts_iff {pat s : List α} : starts norm pat s = true ↔ pat.map norm <+: s.map norm := by
  rw [starts, isPrefixOf_iff_prefix]

/-- A match is decided by the elements in the place of the pattern. -/
theorem starts_iff_take {pat s : List α} :
    starts norm pat s = true ↔ (s.take pat.length).map norm = pat.map norm := by
  rw [starts_iff, prefix_iff_eq_take, length_map, map_take]
  exact eq_comm

/-- A match of the pattern stops before a foreign element. -/
theorem starts_append_cons {pat : List α} {c : α} (hc : Foreign norm c pat) (a b : List α) :
    starts norm pat (a ++ c :: b) = starts norm pat a := by
  rw [Bool.eq_iff_iff, starts_iff, starts_iff, map_append, map_cons]
  constructor
  · intro h
    rcases prefix_or_prefix_of_prefix h (prefix_append (a.map norm) _) with hp | hp
    · exact hp
    · -- the pattern is longer than `a`, and has the foreign element
      obtain ⟨r, hr⟩ := hp
      rw [← hr, prefix_append_right_inj] at h
      cases r with
      | nil =>
        rw [← hr, append_nil]
      | cons d r =>
        rw [cons_prefix_cons] at h
        have hmem : norm c ∈ pat.map norm := by
          rw [← hr, h.1]
          exact mem_append_right _ (.head _)
        obtain ⟨e, he, heq⟩ := mem_map.mp hmem
        exact absurd heq (hc e he)
  · intro h
    exact h.trans (prefix_append _ _)

/-- A foreign element splits the count. -/
theorem occurrences_append_cons {pat : List α} {c : α} (hc : Foreign norm c pat) (hne : pat ≠ [])
    (a b : List α) :
    occurrences norm pat (a ++ c :: b) = occurrences norm pat a + occurrences norm pat b := by
  induction a with
  | nil =>
    have hno : starts norm pat (c :: b) = false := by
      have h := starts_append_cons hc [] b
      rw [nil_append] at h
      rw [h]
      cases pat with
      | nil => exact absurd rfl hne
      | cons d pat => rfl
    rw [nil_append]
    simp only [occurrences_cons, occurrences_nil, hno, Bool.false_eq_true, if_false]
  | cons d a ih =>
    rw [cons_append, occurrences_cons, occurrences_cons, ih]
    have h := starts_append_cons hc (d :: a) b
    rw [cons_append] at h
    rw [h, Nat.add_assoc]

/-- Texts joined after a foreign element. -/
theorem occurrences_append_of_last {pat a : List α} {c : α} (hc : Foreign norm c pat)
    (hne : pat ≠ []) (hlast : a.getLast? = some c) (b : List α) :
    occurrences norm pat (a ++ b) = occurrences norm pat a + occurrences norm pat b := by
  obtain ⟨a', rfl⟩ := List.getLast?_eq_some_iff.mp hlast
  rw [append_assoc, singleton_append, occurrences_append_cons hc hne,
    occurrences_append_cons hc hne]
  rfl

/-- Texts joined before a foreign element. -/
theorem occurrences_append_of_head {pat b : List α} {c : α} (hc : Foreign norm c pat)
    (hne : pat ≠ []) (hhead : b.head? = some c) (a : List α) :
    occurrences norm pat (a ++ b) = occurrences norm pat a + occurrences norm pat b := by
  obtain ⟨b', rfl⟩ := List.head?_eq_some_iff.mp hhead
  rw [occurrences_append_cons hc hne, ← nil_append (c :: b'), occurrences_append_cons hc hne,
    occurrences_nil, Nat.zero_add]

/-- A part at the beginning has no more occurrences. -/
theorem occurrences_le_of_prefix {pat a b : List α} (h : a <+: b) :
    occurrences norm pat a ≤ occurrences norm pat b := by
  induction a generalizing b with
  | nil => exact Nat.zero_le _
  | cons c a ih =>
    obtain ⟨r, rfl⟩ := h
    rw [cons_append, occurrences_cons, occurrences_cons]
    have hrest := ih (prefix_append a r)
    have hhere : starts norm pat (c :: a) = true → starts norm pat (c :: (a ++ r)) = true := by
      rw [starts_iff, starts_iff]
      intro hs
      rw [← cons_append, map_append]
      exact hs.trans (prefix_append _ _)
    split_ifs with h1 h2
    · omega
    · exact absurd (hhere h1) h2
    · omega
    · omega

/-- What starts wherever another pattern does occurs no less often. -/
theorem occurrences_mono {γ : Type} [DecidableEq γ] {key : α → γ} {pat pat' : List α}
    (h : ∀ s, starts norm pat s = true → starts key pat' s = true) (s : List α) :
    occurrences norm pat s ≤ occurrences key pat' s := by
  induction s with
  | nil => exact le_rfl
  | cons c s ih =>
    rw [occurrences_cons, occurrences_cons]
    split_ifs with h1 h2
    · omega
    · exact absurd (h (c :: s) h1) h2
    · omega
    · omega

/-- A longer pattern occurs no more often. -/
theorem occurrences_le_of_pattern {pat pat' : List α} (h : pat <+: pat') (s : List α) :
    occurrences norm pat' s ≤ occurrences norm pat s := by
  apply occurrences_mono
  intro s
  rw [starts_iff, starts_iff]
  exact fun hs => (h.map norm).trans hs

/-- A coarser key has more occurrences. -/
theorem occurrences_le_of_key {γ : Type} [DecidableEq γ] (key : β → γ) (pat s : List α) :
    occurrences norm pat s ≤ occurrences (key ∘ norm) pat s := by
  apply occurrences_mono
  intro s
  rw [starts_iff, starts_iff, ← map_map, ← map_map]
  exact fun h => h.map key

/-- The pattern with one more element before it occurs no more often, from one place earlier. -/
theorem occurrences_cons_le {pat : List α} {d : α} (hne : pat ≠ []) (c : α) (s : List α) :
    occurrences norm (d :: pat) (c :: s) ≤ occurrences norm pat s := by
  have hhere : ∀ e r, starts norm (d :: pat) (e :: r) = true → starts norm pat r = true := by
    intro e r
    rw [starts_iff, starts_iff, map_cons, map_cons, cons_prefix_cons]
    exact fun h => h.2
  induction s generalizing c with
  | nil =>
    have hno : starts norm (d :: pat) [c] ≠ true := by
      intro h
      have hnil := prefix_nil.mp (starts_iff.mp (hhere c [] h))
      exact hne (map_eq_nil_iff.mp hnil)
    rw [occurrences_cons, if_neg hno]
    exact le_rfl
  | cons e s ih =>
    have hrest := ih e
    rw [occurrences_cons (d :: pat), occurrences_cons pat]
    split_ifs with h1 h2
    · omega
    · exact absurd (hhere c (e :: s) h1) h2
    · omega
    · omega

/-- Without an element of the pattern there is no occurrence. -/
theorem occurrences_eq_zero {pat s : List α} {d : α} (hd : d ∈ pat)
    (hs : ∀ c ∈ s, norm c ≠ norm d) : occurrences norm pat s = 0 := by
  induction s with
  | nil => rfl
  | cons c s ih =>
    have hno : starts norm pat (c :: s) = false := by
      rw [Bool.eq_false_iff, Ne, starts_iff]
      intro hp
      obtain ⟨e, he, heq⟩ := mem_map.mp (hp.subset (mem_map_of_mem hd))
      exact hs e he heq
    rw [occurrences_cons, hno, ih fun e he => hs e (mem_cons_of_mem _ he)]
    rfl

/-! ## Patterns apart from a text -/

/-- No occurrence of the pattern starts in the text, whatever follows the text. -/
def apart (norm : α → β) (pat : List α) : List α → Bool
  | [] => true
  | c :: t => !starts norm pat (c :: t) && !starts norm (c :: t) pat && apart norm pat t

theorem apart_congr {pat t t' : List α} (h : t.map norm = t'.map norm) :
    apart norm pat t = apart norm pat t' := by
  induction t generalizing t' with
  | nil =>
    rw [map_nil, eq_comm, map_eq_nil_iff] at h
    rw [h]
  | cons c t ih =>
    cases t' with
    | nil => cases h
    | cons c' t' =>
      simp only [apart, starts, h]
      rw [ih (List.cons.inj h).2]

/-- **A text apart from the pattern adds no occurrence.** -/
theorem occurrences_append_of_apart {pat t : List α} (h : apart norm pat t = true) (s : List α) :
    occurrences norm pat (t ++ s) = occurrences norm pat s := by
  induction t with
  | nil => rfl
  | cons c t ih =>
    simp only [apart, Bool.and_eq_true, Bool.not_eq_true', ← Bool.not_eq_true] at h
    obtain ⟨⟨hlong, hshort⟩, hrest⟩ := h
    have hno : starts norm pat (c :: (t ++ s)) ≠ true := by
      intro hstarts
      rw [starts_iff, ← cons_append, map_append] at hstarts
      rcases prefix_or_prefix_of_prefix hstarts (prefix_append _ _) with hp | hp
      · exact hlong (starts_iff.mpr hp)
      · exact hshort (starts_iff.mpr hp)
    rw [cons_append, occurrences_cons, if_neg hno, ih hrest, Nat.zero_add]

/-! ## Masking -/

/-- The first list is the second one with some elements masked by others that are in no pattern. -/
def Masked (norm : α → β) (pat t s : List α) : Prop :=
  List.Forall₂ (fun o c => o = c ∨ Foreign norm o pat) t s

/-- Masking makes no new match. -/
theorem Masked.starts {pat t s : List α} (h : Masked norm pat t s)
    (ht : starts norm pat t = true) : starts norm pat s = true := by
  have hsub : ∀ p, p ⊆ pat → ∀ t s, Masked norm pat t s → p.map norm <+: t.map norm →
      p.map norm <+: s.map norm := by
    intro p
    induction p with
    | nil => exact fun _ _ _ _ _ => nil_prefix
    | cons d p ih =>
      intro hp t s hm hpre
      cases hm with
      | nil => exact hpre
      | @cons o c t s ho hm =>
        rw [map_cons, map_cons, cons_prefix_cons] at hpre ⊢
        rcases ho with rfl | hforeign
        · exact ⟨hpre.1, ih (fun e he => hp (.tail _ he)) t s hm hpre.2⟩
        · exact absurd hpre.1 (hforeign d (hp (.head _)))
  rw [starts_iff] at ht ⊢
  exact hsub pat (List.Subset.refl _) t s h ht

theorem Masked.occurrences_eq_zero {pat t s : List α} (h : Masked norm pat t s)
    (hs : occurrences norm pat s = 0) : occurrences norm pat t = 0 := by
  induction h with
  | nil => rfl
  | @cons o c t s ho hm ih =>
    rw [occurrences_cons] at hs
    have hno : Occur.starts norm pat (o :: t) ≠ true := by
      intro hyes
      have hold : Occur.starts norm pat (c :: s) = true :=
        Masked.starts (List.Forall₂.cons ho hm) hyes
      rw [if_pos hold] at hs
      omega
    rw [occurrences_cons, if_neg hno, ih (by omega)]

omit [DecidableEq β] in
theorem masked_map {pat : List α} {f : α → α} (hf : ∀ c, f c = c ∨ Foreign norm (f c) pat)
    (s : List α) : Masked norm pat (s.map f) s := by
  induction s with
  | nil => exact .nil
  | cons c s ih => exact .cons (hf c) ih

end Thegn.Occur
