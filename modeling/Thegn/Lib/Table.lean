import Mathlib

set_option autoImplicit false

/-! # Tables with a primary key

A table is a finite map from its primary key to the other columns of a row. The statements here
are the ones a program runs on a table, each with the number of rows it changed; `updateWhere_cases`
and the `lookup` lemmas say what a statement did.
-/

namespace Thegn.Table

open List

variable {K R : Type} [DecidableEq K]

abbrev Table (K R : Type) := AList (fun _ : K => R)

/-- `UPDATE … SET … WHERE key = k AND cond`. -/
def updateWhere (t : Table K R) (k : K) (cond : R → Bool) (f : R → R) : Table K R × Nat :=
  match t.lookup k with
  | some row => if cond row then (t.insert k (f row), 1) else (t, 0)
  | none => (t, 0)

/-- `DELETE … WHERE key = k AND cond`. -/
def deleteWhere (t : Table K R) (k : K) (cond : R → Bool) : Table K R × Nat :=
  match t.lookup k with
  | some row => if cond row then (t.erase k, 1) else (t, 0)
  | none => (t, 0)

/-- `DELETE … WHERE cond`, with no condition on the key. -/
def deleteAll (t : Table K R) (cond : R → Bool) : Table K R × Nat :=
  (⟨t.entries.filter fun e => !cond e.2, t.nodupKeys.sublist filter_sublist⟩,
    t.entries.countP fun e => cond e.2)

theorem updateWhere_of_lookup {t : Table K R} {k : K} {cond : R → Bool} {f : R → R} {row : R}
    (h : t.lookup k = some row) (hc : cond row = true) :
    updateWhere t k cond f = (t.insert k (f row), 1) := by
  simp only [updateWhere, h, hc, if_true]

/-- An update changes nothing, or the one row with this key. -/
theorem updateWhere_cases (t : Table K R) (k : K) (cond : R → Bool) (f : R → R) :
    updateWhere t k cond f = (t, 0) ∨ ∃ row, t.lookup k = some row ∧ cond row = true
          ∧ updateWhere t k cond f = (t.insert k (f row), 1) := by
  unfold updateWhere
  cases h : t.lookup k with
  | none => exact .inl rfl
  | some row =>
    by_cases hc : cond row = true
    · exact .inr ⟨row, rfl, hc, by simp [hc]⟩
    · exact .inl (by simp [hc])

theorem lookup_deleteWhere {t : Table K R} {k k' : K} {cond : R → Bool} {row : R}
    (h : (deleteWhere t k cond).1.lookup k' = some row) : t.lookup k' = some row := by
  unfold deleteWhere at h
  split at h
  · split_ifs at h
    · by_cases hk : k' = k
      · rw [hk, AList.lookup_erase] at h
        cases h
      · rwa [AList.lookup_erase_ne hk] at h
    · exact h
  · exact h

theorem lookup_deleteAll {t : Table K R} {k : K} {cond : R → Bool} {row : R}
    (h : (deleteAll t cond).1.lookup k = some row) : t.lookup k = some row := by
  have hmem := AList.mem_lookup_iff.mp (Option.mem_def.mpr h)
  exact Option.mem_def.mp (AList.mem_lookup_iff.mpr (mem_filter.mp hmem).1)

/-- `SELECT SUM(f)`. -/
def total (f : K → R → Nat) (t : Table K R) : Nat := (t.entries.map fun e => f e.1 e.2).sum

/-- `UPDATE … SET …` of every row. -/
def updateAll (f : R → R) (t : Table K R) : Table K R :=
  ⟨t.entries.map fun e => ⟨e.1, f e.2⟩, by
    have hkeys : (t.entries.map fun e => (⟨e.1, f e.2⟩ : Sigma fun _ : K => R)).keys =
      t.entries.keys := map_map
    rw [List.NodupKeys, hkeys]
    exact t.nodupKeys⟩

omit [DecidableEq K] in
theorem keys_updateAll (f : R → R) (t : Table K R) : (updateAll f t).keys = t.keys := map_map

theorem lookup_updateAll (f : R → R) (t : Table K R) (k : K) :
    (updateAll f t).lookup k = (t.lookup k).map f := by
  cases h : t.lookup k with
  | none =>
    refine AList.lookup_eq_none.mpr fun hmem => AList.lookup_eq_none.mp h ?_
    have hkeys : k ∈ (updateAll f t).keys := hmem
    rw [keys_updateAll] at hkeys
    exact hkeys
  | some row =>
    have hmem : (⟨k, row⟩ : Sigma fun _ : K => R) ∈ t.entries := AList.mem_lookup_iff.mp h
    exact AList.mem_lookup_iff.mpr (mem_map_of_mem hmem)

omit [DecidableEq K] in
theorem total_updateAll {g : K → R → Nat} {f : R → R} {t : Table K R}
    (h : ∀ k row, g k (f row) = g k row) : total g (updateAll f t) = total g t := by
  rw [total, total, updateAll, map_map]
  exact congrArg List.sum (map_congr_left fun e _ => h e.1 e.2)

section Total

variable {f : K → R → Nat} {t : Table K R} {k : K} {r : R}

omit [DecidableEq K] in
@[simp] theorem total_empty (f : K → R → Nat) : total f ∅ = 0 := rfl

omit [DecidableEq K] in
theorem length_keys (t : Table K R) : t.keys.length = total (fun _ _ => 1) t := by
  rw [total, map_const', sum_replicate_nat, Nat.mul_one, AList.keys, List.keys, length_map]

/-- A row counts for itself and the others. -/
theorem total_erase (h : t.lookup k = some r) : f k r + total f (t.erase k) = total f t := by
  have hsum : ∀ l : List (Sigma fun _ : K => R), List.dlookup k l = some r →
      f k r + ((List.kerase k l).map fun e => f e.1 e.2).sum = (l.map fun e => f e.1 e.2).sum := by
    intro l
    induction l with
    | nil => exact fun hnone => by cases hnone
    | cons e l ih =>
      obtain ⟨k', row'⟩ := e
      intro hlook
      by_cases hk : k = k'
      · subst hk
        rw [dlookup_cons_eq] at hlook
        cases hlook
        have herase : List.kerase k ((⟨k, r⟩ : Sigma fun _ : K => R) :: l) = l := kerase_cons_eq rfl
        rw [herase, map_cons, sum_cons]
      · rw [dlookup_cons_ne _ _ hk] at hlook
        rw [kerase_cons_ne hk, map_cons, sum_cons, map_cons, sum_cons, ← ih hlook]
        omega
  exact hsum t.entries h

theorem total_insert_erase : total f (t.insert k r) = f k r + total f (t.erase k) := by
  rw [total, AList.entries_insert, map_cons, sum_cons]
  rfl

theorem erase_of_lookup_none (h : t.lookup k = none) : t.erase k = t := by
  apply AList.ext
  exact kerase_of_notMem_keys (AList.lookup_eq_none.mp h)

/-- A new row counts for itself. -/
theorem total_insert_new (h : t.lookup k = none) : total f (t.insert k r) = f k r + total f t := by
  rw [total_insert_erase, erase_of_lookup_none h]

/-- A row that is replaced does not count any more. -/
theorem total_insert_old {old : R} (h : t.lookup k = some old) :
    f k old + total f (t.insert k r) = f k r + total f t := by
  rw [total_insert_erase, ← total_erase h]
  omega

end Total

end Thegn.Table
