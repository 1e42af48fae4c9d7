import Mathlib

set_option autoImplicit false

/-! # Tilings, by counting

A list of parts tiles a whole when every point of the whole is in exactly one entry of the list
and no other point is in any. Stated as a count this is additive, so that a tiling is put
together from the tilings of pieces by adding counts, in whatever order the parts are listed.
-/

namespace Thegn.Tiling

variable {α ι : Type} (has : ι → α → Prop) [∀ r a, Decidable (has r a)]

/-- How many parts contain the point. -/
def cover (parts : List ι) (a : α) : Nat := parts.countP (fun r => has r a)

/-- **The parts tile the whole**: each point of it is covered once, every other point never. -/
def Tiles (parts : List ι) (whole : ι) : Prop :=
  ∀ a, cover has parts a = if has whole a then 1 else 0

theorem cover_append (ps qs : List ι) (a : α) :
    cover has (ps ++ qs) a = cover has ps a + cover has qs a :=
  List.countP_append

variable {has}

/-- The parts of a tiling are pairwise disjoint. -/
theorem Tiles.pairwise_disjoint {parts : List ι} {whole : ι} (h : Tiles has parts whole) :
    parts.Pairwise (fun r s => ∀ a, ¬ (has r a ∧ has s a)) := by
  have hle : ∀ a, cover has parts a ≤ 1 := by
    intro a
    rw [h a]
    split <;> omega
  clear h
  induction parts with
  | nil => exact .nil
  | cons r parts ih =>
    have htail : ∀ a, cover has parts a ≤ 1 := by
      intro a
      have := hle a
      rw [show r :: parts = [r] ++ parts from rfl, cover_append] at this
      omega
    refine List.Pairwise.cons ?_ (ih htail)
    rintro s hs a ⟨hra, hsa⟩
    have hone : cover has [r] a = 1 := by simp [cover, hra]
    have hpos : 0 < cover has parts a := List.countP_pos_iff.mpr ⟨s, hs, by simpa using hsa⟩
    have := hle a
    rw [show r :: parts = [r] ++ parts from rfl, cover_append] at this
    omega

/-- A tiling covers each point of the whole exactly once. -/
theorem Tiles.cover_eq_one {parts : List ι} {whole : ι} (h : Tiles has parts whole) {a : α}
    (ha : has whole a) : parts.countP (fun r => has r a) = 1 := by
  have := h a
  rwa [if_pos ha] at this

end Thegn.Tiling
