import Mathlib.Data.List.Sort
import Mathlib.Data.List.Lex
import Mathlib.Data.Prod.Lex

set_option autoImplicit false

/-! # Rows with unique keys

A table as the list of its rows, with the key of a row: the two statements that add rows, and the
queries that order them. A query of rows with distinct keys is known by its members
(`eq_of_ascending`), so that what a statement does to a query follows from what it does to
membership.
-/

namespace Thegn.Rows

open List

variable {R K L : Type}

/-- The only row with its key. -/
theorem eq_of_key {key : R → K} {rows : List R} (h : (rows.map key).Nodup) {r r' : R}
    (hr : r ∈ rows) (hr' : r' ∈ rows) (hkey : key r = key r') : r = r' :=
  inj_on_of_nodup_map h hr hr' hkey

/-! ## Order -/

section Order

variable [LinearOrder L]

/-- `ORDER BY` a key, and `sort_by_key`. -/
def sortOn (key : R → L) (rows : List R) : List R :=
  rows.mergeSort fun a b => decide (key a ≤ key b)

/-- The keys of the rows ascend. -/
def Ascending (key : R → L) (rows : List R) : Prop := rows.Pairwise fun a b => key a < key b

variable {key : R → L}

theorem mem_sortOn {rows : List R} {r : R} : r ∈ sortOn key rows ↔ r ∈ rows := mem_mergeSort

theorem sortOn_perm (key : R → L) (rows : List R) : (sortOn key rows).Perm rows :=
  mergeSort_perm _ _

theorem ascending_sortOn {rows : List R} (h : (rows.map key).Nodup) :
    Ascending key (sortOn key rows) := by
  have hle : (sortOn key rows).Pairwise fun a b => key a ≤ key b := by
    have hsorted : (sortOn key rows).Pairwise fun a b => decide (key a ≤ key b) = true := by
      refine pairwise_mergeSort (fun a b c hab hbc => ?_) (fun a b => ?_) rows
      · exact decide_eq_true (le_trans (of_decide_eq_true hab) (of_decide_eq_true hbc))
      · rw [Bool.or_eq_true, decide_eq_true_eq, decide_eq_true_eq]
        exact le_total (key a) (key b)
    exact hsorted.imp fun hab => of_decide_eq_true hab
  have hne : (sortOn key rows).Pairwise fun a b => key a ≠ key b := by
    have hnodup : ((sortOn key rows).map key).Nodup :=
      ((sortOn_perm key rows).map key).nodup_iff.mpr h
    exact pairwise_map.mp hnodup
  exact (hle.and hne).imp fun hab => lt_of_le_of_ne hab.1 hab.2

theorem sortOn_of_ascending {rows : List R} (h : Ascending key rows) : sortOn key rows = rows :=
  mergeSort_of_pairwise (h.imp fun hab => decide_eq_true hab.le)

theorem Ascending.nodup {rows : List R} (h : Ascending key rows) : rows.Nodup :=
  h.imp fun hab heq => absurd (heq ▸ hab) (lt_irrefl _)

theorem Ascending.nodup_map {rows : List R} (h : Ascending key rows) : (rows.map key).Nodup :=
  pairwise_map.mpr (h.imp fun hab heq => absurd (heq ▸ hab) (lt_irrefl _))

/-- Rows in ascending order are known by their members. -/
theorem eq_of_ascending {rows rows' : List R} (h : Ascending key rows) (h' : Ascending key rows')
    (hmem : ∀ r, r ∈ rows ↔ r ∈ rows') : rows = rows' := by
  have hperm : rows.Perm rows' := (perm_ext_iff_of_nodup h.nodup h'.nodup).mpr hmem
  refine hperm.eq_of_pairwise (fun a b _ _ hab hba => ?_) h h'
  exact absurd (hab.trans hba) (lt_irrefl _)

end Order

/-! ## Inserting -/

section Insert

variable [DecidableEq K]

/-- `INSERT OR IGNORE`. -/
def insertIgnore (key : R → K) (rows : List R) (row : R) : List R :=
  if key row ∈ rows.map key then rows else rows ++ [row]

def insertAll (key : R → K) (rows : List R) (new : List R) : List R :=
  new.foldl (insertIgnore key) rows

variable {key : R → K}

theorem nodup_insertIgnore {rows : List R} (h : (rows.map key).Nodup) (row : R) :
    ((insertIgnore key rows row).map key).Nodup := by
  unfold insertIgnore
  split_ifs with hmem
  · exact h
  · rw [map_append]
    exact h.append (nodup_singleton _) (disjoint_singleton.mpr hmem)

theorem mem_insertIgnore {rows : List R} {row r : R} :
    r ∈ insertIgnore key rows row ↔ r ∈ rows ∨ r = row ∧ key row ∉ rows.map key := by
  unfold insertIgnore
  split_ifs with hmem
  · exact ⟨.inl, fun h => h.resolve_right fun hnew => hnew.2 hmem⟩
  · rw [mem_append, mem_singleton]
    exact or_congr_right (and_iff_left hmem).symm

theorem nodup_insertAll {new rows : List R} (h : (rows.map key).Nodup) :
    ((insertAll key rows new).map key).Nodup := by
  induction new generalizing rows with
  | nil => exact h
  | cons row new ih => exact ih (nodup_insertIgnore h row)

/-- Of new rows with distinct keys those are added whose key is not taken. -/
theorem mem_insertAll {new rows : List R} (hnew : (new.map key).Nodup) {r : R} :
    r ∈ insertAll key rows new ↔ r ∈ rows ∨ r ∈ new ∧ key r ∉ rows.map key := by
  induction new generalizing rows with
  | nil =>
    rw [insertAll, foldl_nil]
    exact ⟨.inl, fun h => h.resolve_right fun hr => absurd hr.1 not_mem_nil⟩
  | cons row new ih =>
    rw [map_cons, nodup_cons] at hnew
    have hstep : insertAll key rows (row :: new) = insertAll key (insertIgnore key rows row) new :=
      rfl
    rw [hstep, ih hnew.2, mem_insertIgnore, or_assoc]
    refine or_congr_right ?_
    have htaken : r ∈ new → (key r ∈ (insertIgnore key rows row).map key ↔
      key r ∈ rows.map key) := by
      intro hr
      have hne : key r ≠ key row := fun heq => hnew.1 (heq ▸ mem_map_of_mem hr)
      unfold insertIgnore
      split_ifs
      · exact Iff.rfl
      · rw [map_append, mem_append]
        exact or_iff_left fun h => hne (mem_singleton.mp h)
    constructor
    · rintro (⟨rfl, hfree⟩ | ⟨hr, hfree⟩)
      · exact ⟨.head _, hfree⟩
      · exact ⟨.tail _ hr, fun h => hfree ((htaken hr).mpr h)⟩
    · rintro ⟨hr, hfree⟩
      rcases mem_cons.mp hr with rfl | hr
      · exact .inl ⟨rfl, hfree⟩
      · exact .inr ⟨hr, fun h => hfree ((htaken hr).mp h)⟩

end Insert

end Thegn.Rows
