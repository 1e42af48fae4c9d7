import Mathlib.Data.List.Forall2

set_option autoImplicit false

/-! # Mapping a function that may fail

`mapM` over a list succeeds when the function does on every element, and gives the list of its
results (`mapM_eq_ok`).
-/

namespace Thegn.Traverse

open List

variable {ε α β : Type} {f g : α → Except ε β} {l : List α} {r : List β}

theorem mapM_eq_ok : l.mapM f = .ok r ↔ List.Forall₂ (fun a b => f a = .ok b) l r := by
  induction l generalizing r with
  | nil =>
    rw [mapM_nil, forall₂_nil_left_iff]
    constructor
    · intro h
      cases h
      rfl
    · rintro rfl
      rfl
  | cons a l ih =>
    rw [mapM_cons, forall₂_cons_left_iff]
    constructor
    · intro h
      cases ha : f a with
      | error e =>
        rw [ha] at h
        cases h
      | ok b =>
        cases hl : l.mapM f with
        | error e =>
          rw [ha, hl] at h
          cases h
        | ok bs =>
          rw [ha, hl] at h
          cases h
          exact ⟨b, bs, rfl, ih.mp hl, rfl⟩
    · rintro ⟨b, bs, ha, hl, rfl⟩
      rw [ha, ih.mpr hl]
      rfl

theorem exists_mapM_eq_ok (h : ∀ a ∈ l, ∃ b, f a = .ok b) : ∃ r, l.mapM f = .ok r := by
  induction l with
  | nil => exact ⟨[], rfl⟩
  | cons a l ih =>
    obtain ⟨b, hb⟩ := h a (.head _)
    obtain ⟨bs, hbs⟩ := ih (fun a ha => h a (.tail _ ha))
    rw [mapM_eq_ok] at hbs
    refine ⟨b :: bs, ?_⟩
    rw [mapM_eq_ok]
    exact .cons hb hbs

/-- Where the traversal succeeds, so does the function. -/
theorem exists_of_mapM_eq_ok (h : l.mapM f = .ok r) {a : α} (ha : a ∈ l) :
    ∃ b ∈ r, f a = .ok b := by
  rw [mapM_eq_ok] at h
  induction h with
  | nil => cases ha
  | @cons a' b' l' r' hab _ ih =>
    rcases mem_cons.mp ha with rfl | ha
    · exact ⟨b', .head _, hab⟩
    · obtain ⟨b, hb, hf⟩ := ih ha
      exact ⟨b, .tail _ hb, hf⟩

/-- What the traversal gives comes from the list, element by element. -/
theorem forall_of_mapM_eq_ok (h : l.mapM f = .ok r) : r.length = l.length ∧
    ∀ b ∈ r, ∃ a ∈ l, f a = .ok b := by
  rw [mapM_eq_ok] at h
  refine ⟨h.length_eq.symm, ?_⟩
  induction h with
  | nil => exact fun b hb => absurd hb not_mem_nil
  | @cons a b l r hab _ ih =>
    intro b' hb'
    rcases mem_cons.mp hb' with rfl | hb'
    · exact ⟨a, .head _, hab⟩
    · obtain ⟨a', ha', hf⟩ := ih b' hb'
      exact ⟨a', .tail _ ha', hf⟩

theorem mapM_map_eq_ok {write : β → α} (h : ∀ b ∈ r, f (write b) = .ok b) :
    (r.map write).mapM f = .ok r := by
  rw [mapM_eq_ok, forall₂_map_left_iff, forall₂_same]
  exact h

/-- Two traversals with the same results agree on every element. -/
theorem eq_of_mapM_eq_ok (hf : l.mapM f = .ok r) (hg : l.mapM g = .ok r) {a : α} (ha : a ∈ l) :
    f a = g a := by
  rw [mapM_eq_ok] at hf hg
  induction hf with
  | nil => cases ha
  | cons hab _ ih =>
    cases hg with
    | cons hab' hg =>
      rcases mem_cons.mp ha with rfl | ha
      · rw [hab, hab']
      · exact ih hg ha

theorem mapM_congr (h : ∀ a ∈ l, f a = g a) : l.mapM f = l.mapM g := by
  induction l with
  | nil => rfl
  | cons a l ih =>
    rw [mapM_cons, mapM_cons, h a mem_cons_self, ih (fun a ha => h a (.tail _ ha))]

end Thegn.Traverse
