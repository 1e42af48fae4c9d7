import Mathlib.Algebra.BigOperators.Group.Finset.Basic

set_option autoImplicit false

/-! # Searching a graph with a work list

A search keeps a list of pending nodes and the set of the nodes it has seen. `Worklist` is the
invariant of such a search: everything listed or seen is reachable from the start, and the seen
nodes are not goals and have their successors listed or seen. `skip` and `visit` are the two ways a
search goes on, `found` and `exhausted` what its two ends mean. A search that pays for each node
once never pays more than `unpaid`, what the nodes not yet seen cost.
-/

namespace Thegn.Graph

open Relation List

variable {α : Type} [DecidableEq α] {R : α → α → Prop} {goal : α → Prop} {start : α}

/-- A goal can be reached from the start. -/
def Reaches (R : α → α → Prop) (goal : α → Prop) (start : α) : Prop :=
  ∃ x, ReflTransGen R start x ∧ goal x

/-- **The invariant of a search.** -/
structure Worklist (R : α → α → Prop) (goal : α → Prop) (start : α) (pending : List α)
    (seen : Finset α) : Prop where
  start_mem : start ∈ seen ∨ start ∈ pending
  reachable : ∀ x ∈ pending, ReflTransGen R start x
  closed : ∀ x ∈ seen, ¬ goal x ∧ ∀ y, R x y → y ∈ seen ∨ y ∈ pending

omit [DecidableEq α] in
theorem Worklist.init : Worklist R goal start [start] ∅ where
  start_mem := .inr (mem_singleton.mpr rfl)
  reachable := by
    intro x hx
    rw [mem_singleton.mp hx]
  closed := by
    intro x hx
    simp at hx

omit [DecidableEq α] in
/-- A node that was seen before is dropped. -/
theorem Worklist.skip {x : α} {rest : List α} {seen : Finset α}
    (h : Worklist R goal start (x :: rest) seen) (hx : x ∈ seen) :
    Worklist R goal start rest seen := by
  have hdrop : ∀ y, y ∈ seen ∨ y ∈ x :: rest → y ∈ seen ∨ y ∈ rest := by
    rintro y (hy | hy)
    · exact .inl hy
    · rcases mem_cons.mp hy with rfl | hy
      · exact .inl hx
      · exact .inr hy
  refine ⟨hdrop _ h.start_mem, fun y hy => h.reachable y (mem_cons_of_mem x hy), ?_⟩
  intro y hy
  obtain ⟨hg, hsucc⟩ := h.closed y hy
  exact ⟨hg, fun z hz => hdrop z (hsucc z hz)⟩

/-- A node that is no goal is replaced by its successors; listing the node itself again does no
harm. -/
theorem Worklist.visit {x : α} {rest new : List α} {seen : Finset α}
    (h : Worklist R goal start (x :: rest) seen) (hgoal : ¬ goal x)
    (hnew : ∀ y ∈ new, R x y ∨ y = x) (hall : ∀ y, R x y → y ∈ new) :
    Worklist R goal start (new ++ rest) (insert x seen) := by
  have hkeep : ∀ y, y ∈ seen ∨ y ∈ x :: rest → y ∈ insert x seen ∨ y ∈ new ++ rest := by
    rintro y (hy | hy)
    · exact .inl (Finset.mem_insert_of_mem hy)
    · rcases mem_cons.mp hy with rfl | hy
      · exact .inl (Finset.mem_insert_self _ _)
      · exact .inr (mem_append_right _ hy)
  have hreach : ReflTransGen R start x := h.reachable x (.head _)
  refine ⟨hkeep _ h.start_mem, ?_, ?_⟩
  · intro y hy
    rcases mem_append.mp hy with hy | hy
    · rcases hnew y hy with hR | rfl
      · exact hreach.tail hR
      · exact hreach
    · exact h.reachable y (mem_cons_of_mem x hy)
  · intro y hy
    rcases Finset.mem_insert.mp hy with rfl | hy
    · exact ⟨hgoal, fun z hz => .inr (mem_append_left _ (hall z hz))⟩
    · obtain ⟨hg, hsucc⟩ := h.closed y hy
      exact ⟨hg, fun z hz => hkeep z (hsucc z hz)⟩

omit [DecidableEq α] in
theorem Worklist.found {x : α} {rest : List α} {seen : Finset α}
    (h : Worklist R goal start (x :: rest) seen) (hgoal : goal x) : Reaches R goal start :=
  ⟨x, h.reachable x (.head _), hgoal⟩

omit [DecidableEq α] in
/-- Nothing is pending: what is seen is closed, so no goal is reachable. -/
theorem Worklist.exhausted {seen : Finset α} (h : Worklist R goal start [] seen) :
    ¬ Reaches R goal start := by
  rintro ⟨x, hx, hgoal⟩
  have hseen : x ∈ seen := by
    clear hgoal
    induction hx with
    | refl =>
      rcases h.start_mem with hs | hs
      · exact hs
      · simp at hs
    | tail _ hR ih =>
      rcases (h.closed _ ih).2 _ hR with hy | hy
      · exact hy
      · simp at hy
  exact (h.closed x hseen).1 hgoal

/-! ## Paying for nodes -/

open scoped BigOperators

/-- What the nodes of `grid` that have not been seen cost. -/
def unpaid (cost : α → ℕ) (grid seen : Finset α) : ℕ := ∑ x ∈ grid \ seen, cost x

theorem unpaid_insert (cost : α → ℕ) {grid seen : Finset α} {x : α} (hgrid : x ∈ grid)
    (hseen : x ∉ seen) : unpaid cost grid (insert x seen) + cost x = unpaid cost grid seen := by
  have hx : x ∈ grid \ seen := Finset.mem_sdiff.mpr ⟨hgrid, hseen⟩
  have herase : grid \ insert x seen = (grid \ seen).erase x := by
    ext y
    simp only [Finset.mem_sdiff, Finset.mem_insert, Finset.mem_erase, not_or]
    tauto
  unfold unpaid
  rw [herase, Finset.sum_erase_add _ _ hx]

end Thegn.Graph
