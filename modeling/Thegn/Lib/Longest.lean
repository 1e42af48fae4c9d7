import Mathlib

set_option autoImplicit false

/-! # Giving up the heads of longest queues

Each root has a queue, and the head of a longest queue is given up, again and again. Among the
longest ones the queue of a distinguished root `p` goes first, then that of the smallest root.
However often this is done, a queue that lost entries is left with as many as any other one has, up
to one, and with as many as `p` (`Evictions.spares`).
-/

namespace Thegn.Eviction

open List

variable {R K : Type} [LinearOrder R]

abbrev Queues (R K : Type) := R → List K

/-- The queue of `v` is not empty, and it comes before that of any other root. -/
def Longest (p : R) (Q : Queues R K) (v : R) : Prop :=
  Q v ≠ [] ∧ ∀ r, r ≠ v →
    (Q r).length < (Q v).length ∨ (Q r).length = (Q v).length ∧ (v = p ∨ r ≠ p ∧ v < r)

/-- The head of a queue is given up. -/
def behead (Q : Queues R K) (v : R) : Queues R K := Function.update Q v (Q v).tail

/-- Heads of longest queues are given up, one after the other. -/
inductive Evictions (p : R) : Queues R K → Queues R K → Prop
  | done {Q : Queues R K} : Evictions p Q Q
  | step {Q Q' : Queues R K} {v : R} : Longest p Q v → Evictions p (behead Q v) Q' →
      Evictions p Q Q'

/-- Each queue is the end of another one. -/
def Below (Q Q' : Queues R K) : Prop := ∀ r, Q r <:+ Q' r

variable {p v : R} {Q Q' : Queues R K}

omit [LinearOrder R] in
theorem Below.trans {Q'' : Queues R K} (h : Below Q Q') (h' : Below Q' Q'') : Below Q Q'' :=
  fun r => (h r).trans (h' r)

theorem behead_below (Q : Queues R K) (v : R) : Below (behead Q v) Q := by
  intro r
  by_cases hr : r = v
  · rw [hr, behead, Function.update_self]
    exact tail_suffix _
  · rw [behead, Function.update_of_ne hr]

/-- No queue is longer than the one that comes first. -/
theorem Longest.length_le (h : Longest p Q v) (r : R) : (Q r).length ≤ (Q v).length := by
  by_cases hr : r = v
  · rw [hr]
  · rcases h.2 r hr with hlt | ⟨heq, -⟩
    · omega
    · omega

theorem Evictions.suffix (h : Evictions p Q Q') : Below Q' Q := by
  induction h with
  | done => exact fun _ => suffix_refl _
  | step _ _ ih => exact ih.trans (behead_below _ _)

/-- **Short queues are spared.** A queue that lost entries is left with no fewer than any other one
has, up to one, and with no fewer than that of `p`. -/
theorem Evictions.spares (h : Evictions p Q Q') {r : R} (hr : Q' r ≠ Q r) :
    (∀ x, (Q' x).length ≤ (Q' r).length + 1) ∧ (r ≠ p → (Q' p).length ≤ (Q' r).length) := by
  induction h with
  | done => exact absurd rfl hr
  | @step Q Q' v hv hrun ih =>
    by_cases hlater : Q' r = behead Q v r
    · -- the last entry that `r` lost is the one of this step
      have hrv : r = v := by
        by_contra hne
        rw [behead, Function.update_of_ne hne] at hlater
        exact hr hlater
      have hpos := length_pos_iff.mpr hv.1
      have hafter : (Q' r).length + 1 = (Q v).length := by
        rw [hlater, hrv, behead, Function.update_self, length_tail]
        omega
      have hbelow := hrun.suffix.trans (behead_below Q v)
      refine ⟨fun x => ?_, fun hp => ?_⟩
      · have := (hbelow x).length_le
        have := hv.length_le x
        omega
      · have := (hbelow p).length_le
        rcases hv.2 p (hrv ▸ hp.symm) with hlt | ⟨-, hvp | ⟨hpp, -⟩⟩
        · omega
        · exact absurd (hrv.trans hvp) hp
        · exact absurd rfl hpp
    · exact ih hlater

end Thegn.Eviction
