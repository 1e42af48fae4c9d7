import Mathlib.Data.List.Basic
import Mathlib.Data.List.TakeWhile

set_option autoImplicit false

/-! # Groups of a list

A list is cut before every element that does not continue the one before it. A group is its first
element, whatever that is, and the elements that continue it (`groups_cons_eq`); lists are grouped
one after the other where the second does not begin with a continuation (`groups_append`).
-/

namespace Thegn.Groups

open List

variable {α : Type} (p : α → Bool)

/-- The groups of a list; `p` tells the elements that continue a group. -/
def groups : List α → List (α × List α)
  | [] => []
  | a :: as =>
    match groups as with
    | [] => [(a, [])]
    | (b, bs) :: gs => if p b then (a, b :: bs) :: gs else (a, []) :: (b, bs) :: gs

@[simp] theorem groups_nil : groups p [] = [] := rfl

theorem groups_step (a : α) (as : List α) :
    groups p (a :: as) =
      match groups p as with
      | [] => [(a, [])]
      | (b, bs) :: gs => if p b then (a, b :: bs) :: gs else (a, []) :: (b, bs) :: gs := rfl

/-- The first group begins with the first element. -/
theorem groups_cons (a : α) (as : List α) : ∃ bs gs, groups p (a :: as) = (a, bs) :: gs := by
  rw [groups_step]
  split
  · exact ⟨[], [], rfl⟩
  · rename_i b bs gs _
    by_cases hb : p b = true
    · exact ⟨b :: bs, gs, if_pos hb⟩
    · exact ⟨[], (b, bs) :: gs, if_neg hb⟩

theorem groups_of_pos {a b : α} {as bs : List α} {gs : List (α × List α)} (hb : p b = true)
    (h : groups p (b :: as) = (b, bs) :: gs) : groups p (a :: b :: as) = (a, b :: bs) :: gs := by
  rw [groups_step, h]
  exact if_pos hb

theorem groups_of_neg {b : α} (hb : p b = false) (a : α) (as : List α) :
    groups p (a :: b :: as) = (a, []) :: groups p (b :: as) := by
  obtain ⟨bs, gs, h⟩ := groups_cons p b as
  rw [groups_step, h]
  exact if_neg (by simp [hb])

/-- **The first group takes what continues it.** -/
theorem groups_cons_eq (a : α) (as : List α) :
    groups p (a :: as) = (a, as.takeWhile p) :: groups p (as.dropWhile p) := by
  induction as generalizing a with
  | nil => rfl
  | cons b as ih =>
    by_cases hb : p b = true
    · rw [groups_of_pos p hb (ih b), takeWhile_cons_of_pos hb, dropWhile_cons_of_pos hb]
    · rw [groups_of_neg p (by simpa using hb), takeWhile_cons_of_neg hb, dropWhile_cons_of_neg hb]

theorem groups_append (as : List α) {bs : List α} (hb : ∀ b ∈ bs.head?, p b = false) :
    groups p (as ++ bs) = groups p as ++ groups p bs := by
  cases bs with
  | nil => simp
  | cons b bs =>
    have hb' : p b = false := hb b rfl
    induction as with
    | nil => rfl
    | cons a as ih =>
      cases as with
      | nil => exact groups_of_neg p hb' a bs
      | cons c as =>
        obtain ⟨cs, gs, h⟩ := groups_cons p c as
        rw [cons_append, h] at ih
        by_cases hc : p c = true
        · rw [groups_of_pos p hc h]
          exact groups_of_pos p hc ih
        · have hc' : p c = false := by simpa using hc
          calc groups p (a :: c :: (as ++ b :: bs))
              = (a, []) :: groups p (c :: (as ++ b :: bs)) := groups_of_neg p hc' a _
            _ = groups p (a :: c :: as) ++ groups p (b :: bs) := by
                rw [ih, groups_of_neg p hc', h]
                rfl

/-! ## Where a group ends -/

/-- A group lies in the list in one piece, and what follows it begins another group. -/
theorem exists_of_mem_groups {as : List α} {g : α × List α} (h : g ∈ groups p as) :
    ∃ before after, as = before ++ g.1 :: (g.2 ++ after) ∧ (∀ x ∈ g.2, p x = true) ∧
      ∀ m ∈ after.head?, p m = false := by
  induction hn : as.length using Nat.strongRecOn generalizing as with
  | ind n ih =>
    cases as with
    | nil => exact absurd h not_mem_nil
    | cons a as =>
      rw [groups_cons_eq, mem_cons] at h
      rcases h with rfl | h
      · refine ⟨[], as.dropWhile p, ?_, fun x hx => mem_takeWhile_imp hx, ?_⟩
        · rw [takeWhile_append_dropWhile]
          rfl
        · intro m hm
          have hhead := List.head?_dropWhile_not p as
          rw [Option.mem_def.mp hm] at hhead
          simpa using hhead
      · have hlen : (as.dropWhile p).length < n := by
          have := (dropWhile_sublist (l := as) p).length_le
          rw [length_cons] at hn
          omega
        obtain ⟨before, after, hsplit, hrest⟩ := ih _ hlen h rfl
        refine ⟨a :: (as.takeWhile p ++ before), after, ?_, hrest⟩
        rw [cons_append, append_assoc, ← hsplit, takeWhile_append_dropWhile]

theorem groups_concat {c : α} (hc : p c = true) (a : α) (as : List α) :
    ∃ gs g, groups p (a :: (as ++ [c])) = gs ++ [g] ∧ g.2.getLast? = some c := by
  induction as generalizing a with
  | nil =>
    refine ⟨[], (a, [c]), ?_, rfl⟩
    exact groups_of_pos p hc rfl
  | cons b as ih =>
    obtain ⟨gs, g, hg, hlast⟩ := ih b
    by_cases hb : p b = true
    · cases gs with
      | nil =>
        have hhead := groups_cons_eq p b (as ++ [c])
        rw [hg, nil_append, List.cons.injEq] at hhead
        refine ⟨[], (a, b :: g.2), ?_, by rw [List.getLast?_cons, hlast]; rfl⟩
        have hb' : groups p (b :: (as ++ [c])) = (b, g.2) :: [] := by rw [hg, hhead.1]; rfl
        exact groups_of_pos p hb hb'
      | cons h gs =>
        have hhead := groups_cons_eq p b (as ++ [c])
        rw [hg, cons_append, List.cons.injEq] at hhead
        refine ⟨(a, b :: h.2) :: gs, g, ?_, hlast⟩
        have hb' : groups p (b :: (as ++ [c])) = (b, h.2) :: (gs ++ [g]) := by rw [hg, hhead.1]; rfl
        exact groups_of_pos p hb hb'
    · refine ⟨(a, []) :: gs, g, ?_, hlast⟩
      rw [cons_append, groups_of_neg p (by simpa using hb), hg]
      rfl

/-- **The last elements of groups**: they continue something, and nothing continues them. -/
theorem last_of_group_iff {as : List α} {c : α} :
    (∃ g ∈ groups p as, g.2.getLast? = some c) ↔
      ∃ before after, as = before ++ c :: after ∧ before ≠ [] ∧ p c = true ∧
      ∀ m ∈ after.head?, p m = false := by
  constructor
  · rintro ⟨g, hg, hlast⟩
    obtain ⟨before, after, rfl, hp, hafter⟩ := exists_of_mem_groups p hg
    obtain ⟨init, hinit⟩ := List.getLast?_eq_some_iff.mp hlast
    refine ⟨before ++ g.1 :: init, after, ?_, by simp, hp c (by rw [hinit]; simp), hafter⟩
    rw [hinit]
    simp
  · rintro ⟨before, after, rfl, hne, hc, hafter⟩
    obtain ⟨a, as, rfl⟩ := exists_cons_of_ne_nil hne
    obtain ⟨gs, g, hg, hlast⟩ := groups_concat p hc a as
    refine ⟨g, ?_, hlast⟩
    rw [show a :: as ++ c :: after = (a :: (as ++ [c])) ++
      after by simp, groups_append p _ hafter, hg]
    simp

end Thegn.Groups
