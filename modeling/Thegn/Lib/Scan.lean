import Mathlib.Data.List.TakeWhile
import Thegn.Lib.Enumerate

set_option autoImplicit false

/-! # Scans that stop

A loop over groups of elements that keeps some of them and ends at the first at which it has to
`stop`. What it keeps is all there is to keep exactly when nothing to keep comes after such an
element (`Scanned.eq_filter_iff`).
-/

namespace Thegn

open List

variable {α : Type} {g : Nat → List α} {stop keep past : α → Bool} {out out' : List α}

/-- The outcome of such a loop: it met an element at which it stops, or nothing behind the groups it
walked is kept. -/
def Scanned (g : Nat → List α) (stop keep : α → Bool) (out : List α) : Prop :=
  ∃ m, out = ((walked g m).takeWhile (!stop ·)).filter keep ∧
    ((∃ z ∈ walked g m, stop z = true) ∨ ∀ j, m ≤ j → ∀ y ∈ g j, keep y = false)

/-- `y` comes later in the walk than `x`. -/
def Before (g : Nat → List α) (x y : α) : Prop :=
  ∃ n pre post, walked g n = pre ++ x :: post ∧ y ∈ post

/-- To walk on changes nothing. -/
theorem Scanned.eq_of_le (h : Scanned g stop keep out) :
    ∃ m, ∀ n, m ≤ n → out = ((walked g n).takeWhile (!stop ·)).filter keep := by
  obtain ⟨m, rfl, hend⟩ := h
  refine ⟨m, fun n hmn => ?_⟩
  obtain ⟨rest, hrest, hmem⟩ := exists_walked_append g hmn
  rw [hrest, takeWhile_append]
  split
  case isFalse => rfl
  case isTrue hall =>
    have hpass : (walked g m).takeWhile (!stop ·) = walked g m :=
      (List.takeWhile_prefix _).eq_of_length hall
    rcases hend with ⟨z, hz, hstop⟩ | hfar
    · have := mem_takeWhile_imp (hpass ▸ hz)
      simp [hstop] at this
    · have hnone : (rest.takeWhile (!stop ·)).filter keep = [] := by
        rw [filter_eq_nil_iff]
        intro y hy
        obtain ⟨j, hj, hyj⟩ := hmem y ((takeWhile_sublist _).subset hy)
        simp [hfar j hj y hyj]
      rw [hpass, filter_append, hnone, append_nil]

/-- Where the scan stops at, it keeps nothing. -/
theorem Scanned.and_not_stop (h : Scanned g stop keep out) :
    Scanned g stop (fun x => keep x && !stop x) out := by
  obtain ⟨m, rfl, hend⟩ := h
  refine ⟨m, filter_congr fun x hx => ?_, hend.imp_right
    fun hfar j hj y hy => by simp [hfar j hj y hy]⟩
  have := mem_takeWhile_imp hx
  simp_all

theorem mem_dropWhile_of_stop {pre post : List α} {x y : α} (hx : stop x = true) (hy : y ∈ post) :
    y ∈ (pre ++ x :: post).dropWhile (!stop ·) := by
  induction pre with
  | nil => simp [hx, hy]
  | cons a pre ih =>
    rw [cons_append, dropWhile_cons]
    split
    · exact ih
    · simp [hy]

theorem Scanned.eq_filter_iff (h : Scanned g stop (fun x => keep x && !past x) out)
    (hall : Scanned g (fun _ => false) keep out') (hstop : ∀ x, stop x = true → past x = true) :
    out = out'.filter (!past ·) ↔
      ∀ x y, Before g x y → stop x = true → keep y = true → past y = true := by
  obtain ⟨m, hm⟩ := h.eq_of_le
  obtain ⟨m', hm'⟩ := hall.eq_of_le
  -- in a walk that is long enough, what is missing is what the scan does not come to
  have hmissing : ∀ n, m ≤ n → m' ≤ n → (out = out'.filter (!past ·) ↔
      ∀ y ∈ (walked g n).dropWhile (!stop ·), keep y = true → past y = true) := by
    intro n hn hn'
    have hout' : out' = (walked g n).filter keep := by
      have := hm' n hn'
      rwa [takeWhile_eq_self_iff.mpr (by simp)] at this
    have hsplit : out'.filter (!past ·) = out ++
        ((walked g n).dropWhile (!stop ·)).filter (fun x => keep x && !past x) := by
      rw [hm n hn, hout', filter_filter, ← filter_append, takeWhile_append_dropWhile]
      exact filter_congr fun x _ => Bool.and_comm _ _
    rw [hsplit, self_eq_append_right, filter_eq_nil_iff]
    exact forall₂_congr fun y _ => by simp
  constructor
  · rintro heq x y ⟨n, pre, post, hn, hy⟩ hx hkeep
    obtain ⟨rest, hrest, -⟩ := exists_walked_append g (show n ≤ max n (max m m') by omega)
    refine (hmissing (max n (max m m')) (by omega) (by omega)).mp heq y ?_ hkeep
    rw [hrest, hn, append_assoc, cons_append]
    exact mem_dropWhile_of_stop hx (mem_append_left _ hy)
  · intro hcond
    refine (hmissing (max m m') (by omega) (by omega)).mpr fun y hy hkeep => ?_
    cases hdrop : (walked g (max m m')).dropWhile (!stop ·) with
    | nil =>
      rw [hdrop] at hy
      cases hy
    | cons x rest =>
      have hx : stop x = true := by
        have := List.head?_dropWhile_not (!stop ·) (walked g (max m m'))
        simpa [hdrop] using this
      rw [hdrop, mem_cons] at hy
      rcases hy with rfl | hy
      · exact hstop y hx
      · refine hcond x y ⟨max m m', (walked g (max m m')).takeWhile (!stop ·), rest, ?_,
          hy⟩ hx hkeep
        rw [← hdrop]
        exact takeWhile_append_dropWhile.symm

end Thegn
