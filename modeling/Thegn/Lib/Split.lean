import Mathlib

set_option autoImplicit false

/-! # Splitting at a separator

Facts about `List.splitOn` over arbitrary letters: the parts do not contain the separator, their
lengths add up, and splitting commutes with encoding each letter by a word, if only the separator
is encoded with the new separator (`splitOn_flatMap`).
-/

namespace Thegn.Split

open List

variable {α β : Type} [DecidableEq α] [DecidableEq β]

theorem not_mem_of_mem_splitOn {a : α} {xs l : List α} (h : l ∈ xs.splitOn a) : a ∉ l := by
  induction xs generalizing l with
  | nil =>
    rw [splitOn_nil, mem_singleton] at h
    rw [h]
    exact not_mem_nil
  | cons x xs ih =>
    rw [splitOn_cons_eq_if_modifyHead] at h
    obtain ⟨m, ms, hm⟩ := exists_cons_of_ne_nil (splitOn_ne_nil a xs)
    by_cases hx : x = a
    · rw [if_pos (by simp [hx])] at h
      rcases mem_cons.mp h with rfl | h
      · exact not_mem_nil
      · exact ih h
    · rw [if_neg (by simpa using hx), hm, modifyHead_cons] at h
      rcases mem_cons.mp h with rfl | h
      · have hmem : m ∈ xs.splitOn a := by
          rw [hm]
          exact .head _
        rw [mem_cons, not_or]
        exact ⟨Ne.symm hx, ih hmem⟩
      · apply ih
        rw [hm]
        exact mem_cons_of_mem m h

theorem mem_of_mem_splitOn {a c : α} {xs l : List α} (h : l ∈ xs.splitOn a) (hc : c ∈ l) :
    c ∈ xs := by
  have hjoin : [a].intercalate (xs.splitOn a) = xs := intercalate_splitOn a
  rw [← hjoin, List.intercalate, mem_flatten]
  refine ⟨l, ?_, hc⟩
  generalize xs.splitOn a = ls at h
  induction ls with
  | nil => exact absurd h not_mem_nil
  | cons m ls ih =>
    cases ls with
    | nil => exact h
    | cons n ls =>
      rw [intersperse_cons_cons]
      rcases mem_cons.mp h with rfl | h
      · exact .head _
      · exact .tail _ (.tail _ (ih h))

theorem splitOn_append_of_not_mem {a : α} {pre : List α} (h : a ∉ pre) (xs : List α) :
    (pre ++ xs).splitOn a = (xs.splitOn a).modifyHead (pre ++ ·) := by
  induction pre with
  | nil =>
    obtain ⟨m, ms, hm⟩ := exists_cons_of_ne_nil (splitOn_ne_nil a xs)
    rw [nil_append, hm]
    rfl
  | cons x pre ih =>
    rw [mem_cons, not_or] at h
    obtain ⟨m, ms, hm⟩ := exists_cons_of_ne_nil (splitOn_ne_nil a xs)
    rw [cons_append, splitOn_cons_eq_if_modifyHead, if_neg (by simpa using Ne.symm h.1), ih h.2, hm]
    rfl

/-- **Splitting commutes with encoding.** -/
theorem splitOn_flatMap {a : α} {b : β} {f : α → List β} (ha : f a = [b])
    (hf : ∀ x, x ≠ a → b ∉ f x) (xs : List α) :
    (xs.flatMap f).splitOn b = (xs.splitOn a).map (List.flatMap f) := by
  induction xs with
  | nil => rfl
  | cons x xs ih =>
    obtain ⟨m, ms, hm⟩ := exists_cons_of_ne_nil (splitOn_ne_nil a xs)
    rw [List.flatMap_cons, splitOn_cons_eq_if_modifyHead]
    by_cases hx : x = a
    · rw [if_pos (by simp [hx]), hx, ha, singleton_append,
        splitOn_cons_eq_if_modifyHead, if_pos (by simp), ih]
      rfl
    · rw [if_neg (by simpa using hx), splitOn_append_of_not_mem (hf x hx), ih, hm]
      rfl

theorem splitOn_map {a : α} {b : β} {f : α → β} (hf : ∀ x, f x = b ↔ x = a) (xs : List α) :
    (xs.map f).splitOn b = (xs.splitOn a).map (List.map f) := by
  have hflat : ∀ ys : List α, ys.flatMap (fun x => [f x]) = ys.map f := by
    intro ys
    exact map_eq_flatMap.symm
  have hsplit : (xs.flatMap fun x => [f x]).splitOn b
      = (xs.splitOn a).map (List.flatMap fun x => [f x]) := by
    apply splitOn_flatMap
    · rw [(hf a).mpr rfl]
    · intro x hx hmem
      exact hx ((hf x).mp (mem_singleton.mp hmem).symm)
  rw [← hflat, hsplit]
  apply map_congr_left
  intro ys _
  exact hflat ys

/-- Each separator belongs to the part before it. -/
theorem sum_length_splitOn (a : α) (xs : List α) :
    ((xs.splitOn a).map fun l => l.length + 1).sum = xs.length + 1 := by
  induction xs with
  | nil => rfl
  | cons x xs ih =>
    obtain ⟨m, ms, hm⟩ := exists_cons_of_ne_nil (splitOn_ne_nil a xs)
    rw [splitOn_cons_eq_if_modifyHead]
    rw [hm, map_cons, sum_cons] at ih
    split
    · rw [hm, map_cons, map_cons, sum_cons, sum_cons, ih]
      simp
      omega
    · rw [hm, modifyHead_cons, map_cons, sum_cons, length_cons, length_cons, ← ih]
      omega

end Thegn.Split

/-! ## Two parts joined by a separator

When `a`, a separator and `b` are written one after the other, other parts read the same if and only
if the separator is also inside one of them (`separated_eq_iff`). Where it cannot be inside the
second part, the parts are known from the whole (`separated_inj`).
-/

namespace Thegn.Separated

open List

variable {α : Type} {a b a' b' : List α} {c : α}

/-- The first part of one runs over the separator of the other. -/
def Overruns (c : α) (a b a' b' : List α) : Prop := ∃ x, a' = a ++ c :: x ∧ b = x ++ c :: b'

theorem separated_eq_of_overruns (h : Overruns c a b a' b') : a ++ c :: b = a' ++ c :: b' := by
  obtain ⟨x, rfl, rfl⟩ := h
  simp

theorem ne_of_overruns (h : Overruns c a b a' b') : a ≠ a' := by
  obtain ⟨x, rfl, -⟩ := h
  intro heq
  have := congrArg List.length heq
  simp at this

/-- **The same whole**: the parts are the same, or a first part runs over the other's separator. -/
theorem separated_eq_iff :
    a ++ c :: b = a' ++ c :: b' ↔ a = a' ∧ b = b' ∨ Overruns c a b a' b' ∨
    Overruns c a' b' a b := by
  constructor
  · intro h
    rcases append_eq_append_iff.mp h with ⟨x, hx, hrest⟩ | ⟨x, hx, hrest⟩
    · cases x with
      | nil =>
        rw [append_nil] at hx
        rw [nil_append, List.cons.injEq] at hrest
        exact .inl ⟨hx.symm, hrest.2⟩
      | cons d x =>
        rw [cons_append, List.cons.injEq] at hrest
        obtain ⟨rfl, hrest⟩ := hrest
        exact .inr (.inl ⟨x, hx, hrest⟩)
    · cases x with
      | nil =>
        rw [append_nil] at hx
        rw [nil_append, List.cons.injEq] at hrest
        exact .inl ⟨hx, hrest.2.symm⟩
      | cons d x =>
        rw [cons_append, List.cons.injEq] at hrest
        obtain ⟨rfl, hrest⟩ := hrest
        exact .inr (.inr ⟨x, hx, hrest⟩)
  · rintro (⟨rfl, rfl⟩ | h | h)
    · rfl
    · exact separated_eq_of_overruns h
    · exact (separated_eq_of_overruns h).symm

theorem mem_of_overruns (h : Overruns c a b a' b') : c ∈ b := by
  obtain ⟨x, -, rfl⟩ := h
  simp

/-- A separator that is in neither second part tells the parts. -/
theorem separated_inj (hb : c ∉ b) (hb' : c ∉ b') : a ++ c :: b = a' ++ c :: b' ↔
    a = a' ∧ b = b' := by
  rw [separated_eq_iff]
  constructor
  · rintro (h | h | h)
    · exact h
    · exact absurd (mem_of_overruns h) hb
    · exact absurd (mem_of_overruns h) hb'
  · exact .inl

end Thegn.Separated
