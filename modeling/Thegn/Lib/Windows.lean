import Mathlib

set_option autoImplicit false

/-! # Consecutive windows

The windows between the times of a sequence of checks, open at the start and closed at the end.
Every moment after the first check, up to the last one, is in exactly one of them: what the windows
pick out one after the other is what the whole stretch picks out (`perm_windows`).
-/

namespace Thegn.Windows

open List

variable {α τ : Type}

/-- The windows between consecutive checks, the first of which is `a`. -/
def windows (a : τ) : List τ → List (τ × τ)
  | [] => []
  | b :: ts => (a, b) :: windows b ts

/-- The last check. -/
def final (a : τ) : List τ → τ
  | [] => a
  | b :: ts => final b ts

/-- A window is between two checks. -/
theorem mem_windows {a : τ} {ts : List τ} {w : τ × τ} (h : w ∈ windows a ts) :
    w.1 ∈ a :: ts ∧ w.2 ∈ a :: ts := by
  induction ts generalizing a with
  | nil => cases h
  | cons b ts ih =>
    rcases mem_cons.mp h with rfl | h
    · simp
    · exact ⟨mem_cons_of_mem a (ih h).1, mem_cons_of_mem a (ih h).2⟩

/-- What holds between neighbouring checks holds between the ends of a window. -/
theorem rel_of_mem_windows {R : τ → τ → Prop} {a : τ} {ts : List τ}
    (hchain : List.IsChain R (a :: ts)) {w : τ × τ} (h : w ∈ windows a ts) : R w.1 w.2 := by
  induction ts generalizing a with
  | nil => cases h
  | cons b ts ih =>
    rw [isChain_cons_cons] at hchain
    rcases mem_cons.mp h with rfl | h
    · exact hchain.1
    · exact ih hchain.2 h

/-! ## What windows pick out -/

variable [LinearOrder τ]

/-- After `a`, up to `b`. -/
def Within (a b t : τ) : Prop := a < t ∧ t ≤ b

instance (a b t : τ) : Decidable (Within a b t) := inferInstanceAs (Decidable (_ ∧ _))

theorem le_final {a : τ} {ts : List τ} (h : List.IsChain (· ≤ ·) (a :: ts)) : a ≤ final a ts := by
  induction ts generalizing a with
  | nil => exact le_rfl
  | cons b ts ih =>
    rw [isChain_cons_cons] at h
    exact h.1.trans (ih h.2)

/-- Two adjoining windows make one. -/
theorem within_trans {a b c : τ} (hab : a ≤ b) (hbc : b ≤ c) (t : τ) :
    Within a c t ↔ Within a b t ∨ Within b c t := by
  unfold Within
  constructor
  · rintro ⟨hat, htc⟩
    by_cases h : t ≤ b
    · exact .inl ⟨hat, h⟩
    · exact .inr ⟨not_le.mp h, htc⟩
  · rintro (⟨hat, htb⟩ | ⟨hbt, htc⟩)
    · exact ⟨hat, htb.trans hbc⟩
    · exact ⟨hab.trans_lt hbt, htc⟩

/-- What two adjoining windows pick out. -/
theorem filter_within_perm (f : α → τ) {a b c : τ} (hab : a ≤ b) (hbc : b ≤ c) (l : List α) :
    (l.filter (fun x => Within a b (f x)) ++ l.filter (fun x => Within b c (f x))).Perm
      (l.filter fun x => Within a c (f x)) := by
  induction l with
  | nil => exact List.Perm.nil
  | cons x l ih =>
    have hiff := within_trans hab hbc (f x)
    by_cases h1 : Within a b (f x)
    · have h2 : ¬ Within b c (f x) := fun h => absurd h.1 (not_lt.mpr h1.2)
      rw [filter_cons_of_pos (by simpa using h1), filter_cons_of_neg (by simpa using h2),
        filter_cons_of_pos (by simpa using hiff.mpr (.inl h1)), cons_append]
      exact ih.cons x
    · by_cases h2 : Within b c (f x)
      · rw [filter_cons_of_neg (by simpa using h1), filter_cons_of_pos (by simpa using h2),
          filter_cons_of_pos (by simpa using hiff.mpr (.inr h2))]
        exact perm_middle.trans (ih.cons x)
      · have h3 : ¬ Within a c (f x) := fun h => (hiff.mp h).elim h1 h2
        rw [filter_cons_of_neg (by simpa using h1), filter_cons_of_neg (by simpa using h2),
          filter_cons_of_neg (by simpa using h3)]
        exact ih

/-- **Each once**: the windows together pick out what the whole stretch picks out. -/
theorem perm_windows (f : α → τ) (l : List α) {a : τ} {ts : List τ}
    (h : List.IsChain (· ≤ ·) (a :: ts)) :
    ((windows a ts).flatMap fun w => l.filter fun x => Within w.1 w.2 (f x)).Perm
      (l.filter fun x => Within a (final a ts) (f x)) := by
  induction ts generalizing a with
  | nil =>
    rw [filter_eq_nil_iff.mpr]
    · exact List.Perm.nil
    · intro x _ hx
      have hx : Within a a (f x) := of_decide_eq_true hx
      exact absurd hx.1 (not_lt.mpr hx.2)
  | cons b ts ih =>
    rw [isChain_cons_cons] at h
    rw [windows, List.flatMap_cons, final]
    exact ((ih h.2).append_left _).trans (filter_within_perm f h.1 (le_final h.2) l)

end Thegn.Windows
