import Thegn.Lib.Alignment
import Thegn.Lib.Text

set_option autoImplicit false

/-! # The edit distance of timezone names

`edit_distance` in `thegn-core/src/calendar/tz.rs`: the optimal string alignment distance of two
names, as long as it is within a budget. Three rows of the recurrence rotate through each other, and
the loop ends early at a row whose entries are all above the budget. The result is exact
(`editDistance_eq`).
-/

namespace Thegn.Calendar

open Text Thegn.Alignment List

/-! ## The function -/

/-- The value at row `i` and column `j`, both counted from 1; `none` is an index out of range. -/
def cell (a b : Text) (prev2 prev cur : List Nat) (i j : Nat) : Option Nat := do
  let x ← a[i - 1]?
  let y ← b[j - 1]?
  let sub := if x ≠ y then 1 else 0
  let v := min (min ((← prev[j]?) + 1) ((← cur[j - 1]?) + 1)) ((← prev[j - 1]?) + sub)
  if 1 < i ∧ 1 < j ∧ some x = b[j - 2]? ∧
    a[i - 2]? = some y then return min v ((← prev2[j - 2]?) + 1)
  else return v

/-- The inner loop: the row and its least value so far. -/
def fillRow (a b : Text) (prev2 prev : List Nat) (i : Nat) (cur : List Nat) (rowMin : Nat) :
    List Nat → Option (List Nat × Nat)
  | [] => some (cur, rowMin)
  | j :: js => do
      let v ← cell a b prev2 prev cur i j
      fillRow a b prev2 prev i (cur.set j v) (min rowMin v) js

/-- The outer loop. The buffer of the oldest row becomes the next one. -/
def fillRows (a b : Text) (budget : Nat) (prev2 prev cur : List Nat) :
    List Nat → Option (Option Nat)
  | [] => some (prev.getLast?.filter (· ≤ budget))
  | i :: is => do
      let (cur, rowMin) ← fillRow a b prev2 prev i (cur.set 0 i) i (List.range' 1 b.length)
      if budget < rowMin then return none else fillRows a b budget prev cur prev2 is

/-- The outer option is an index out of range, which stops the program. -/
def editDistance (a b : Text) (budget : Nat) : Option (Option Nat) :=
  if budget < (a.length - b.length) + (b.length - a.length) then some none
  else
    fillRows a b budget (List.replicate (b.length + 1) 0) (List.range (b.length + 1))
      (List.replicate (b.length + 1) 0)
      (List.range' 1 a.length)

/-! ## The rows -/

section

variable (a b : Text)

/-- A row of the recurrence. -/
def row (i : Nat) : List Nat := (List.range (b.length + 1)).map (table a b i)

theorem row_length (i : Nat) : (row a b i).length = b.length + 1 := by
  rw [row, length_map, length_range]

theorem getElem?_row (i : Nat) {j : Nat} (hj : j ≤ b.length) :
    (row a b i)[j]? = some (table a b i j) := by
  rw [row, List.getElem?_map, List.getElem?_range (Nat.lt_succ_of_le hj)]
  rfl

theorem row_zero : row a b 0 = List.range (b.length + 1) := by
  have hid : table a b 0 = id := funext fun j => table_zero a b j
  rw [row, hid, map_id]

/-- The columns of the row `i` that have been filled. -/
structure Filled (i k : Nat) (cur : List Nat) (rowMin : Nat) : Prop where
  length : cur.length = b.length + 1
  entry : ∀ j ≤ k, cur[j]? = some (table a b i j)
  least : ∀ m, m < rowMin ↔ ∀ j ≤ k, m < table a b i j

variable {a b}

theorem Filled.start {i : Nat} {cur : List Nat} (h : cur.length = b.length + 1) :
    Filled a b i 0 (cur.set 0 i) i where
  length := by rw [length_set, h]
  entry := by
    intro j hj
    rw [Nat.le_zero.mp hj, table_zero_right]
    exact List.getElem?_set_self (by omega)
  least := by
    intro m
    constructor
    · intro h j hj
      rw [Nat.le_zero.mp hj, table_zero_right]
      exact h
    · intro h
      have hzero := h 0 (Nat.le_refl 0)
      rwa [table_zero_right] at hzero

theorem Filled.step {i k rowMin : Nat} {cur : List Nat} (h : Filled a b i k cur rowMin)
    (hk : k < b.length) :
    Filled a b i (k + 1) (cur.set (k + 1) (table a b i (k + 1)))
      (min rowMin (table a b i (k + 1))) where
  length := by rw [length_set, h.length]
  entry := by
    intro j hj
    by_cases hlast : j = k + 1
    · rw [hlast]
      exact List.getElem?_set_self (by rw [h.length]; omega)
    · rw [List.getElem?_set_ne (Ne.symm hlast)]
      exact h.entry j (by omega)
  least := by
    intro m
    rw [lt_min_iff, h.least]
    constructor
    · rintro ⟨hbefore, hlast⟩ j hj
      by_cases heq : j = k + 1
      · rw [heq]
        exact hlast
      · exact hbefore j (by omega)
    · intro hall
      exact ⟨fun j hj => hall j (by omega), hall (k + 1) le_rfl⟩

/-- A row that is filled is the row of the recurrence. -/
theorem Filled.eq_row {i rowMin : Nat} {cur : List Nat} (h : Filled a b i b.length cur rowMin) :
    cur = row a b i := by
  apply ext_getElem?
  intro j
  by_cases hj : j ≤ b.length
  · rw [h.entry j hj, getElem?_row a b i hj]
  · rw [List.getElem?_eq_none (by rw [h.length]; omega),
      List.getElem?_eq_none (by rw [row_length]; omega)]

/-- **A round of the inner loop computes the recurrence.** -/
theorem cell_eq {prev2 cur : List Nat} {i k rowMin : Nat} (hi : i < a.length) (hk : k < b.length)
    (hprev2 : 0 < i → prev2 = row a b (i - 1)) (hcur : Filled a b (i + 1) k cur rowMin) :
    cell a b prev2 (row a b i) cur (i + 1) (k + 1) = some (table a b (i + 1) (k + 1)) := by
  have hx := List.getElem?_eq_getElem hi
  have hy := List.getElem?_eq_getElem hk
  have habove := getElem?_row a b i (Nat.succ_le_of_lt hk)
  have hcorner := getElem?_row a b i (Nat.le_of_lt hk)
  have hleft := hcur.entry k (Nat.le_refl k)
  have hsub : (if a[i] ≠ b[k] then 1 else 0) = if a[i]? = b[k]? then 0 else 1 := by
    by_cases hsame : a[i] = b[k]
    · rw [if_neg (not_not.mpr hsame), if_pos (by rw [hx, hy, hsame])]
    · have hne : a[i]? ≠ b[k]? := by
        rw [hx, hy]
        exact fun heq => hsame (Option.some.inj heq)
      rw [if_pos hsame, if_neg hne]
  rw [cell, Nat.add_sub_cancel, Nat.add_sub_cancel, hx, hy, habove, hleft, hcorner]
  simp only [Option.bind_eq_bind, Option.bind_some]
  rw [hsub, table_succ]
  by_cases hexchange : Exchanged a b i k
  · obtain ⟨hipos, hkpos, hlast, hfirst⟩ := hexchange
    have hcond : 1 < i + 1 ∧ 1 < k + 1 ∧ some a[i] = b[k + 1 - 2]? ∧ a[i + 1 - 2]? = some b[k] := by
      refine ⟨by omega, by omega, ?_, ?_⟩
      · rw [← hx, show k + 1 - 2 = k - 1 by omega]
        exact hlast
      · rw [← hy, show i + 1 - 2 = i - 1 by omega]
        exact hfirst
    have hold : prev2[k + 1 - 2]? = some (table a b (i - 1) (k - 1)) := by
      rw [hprev2 hipos, show k + 1 - 2 = k - 1 by omega]
      exact getElem?_row a b (i - 1) (by omega)
    rw [if_pos hcond, if_pos (show Exchanged a b i k from ⟨hipos, hkpos, hlast, hfirst⟩), hold]
    rfl
  · have hcond : ¬ (1 < i + 1 ∧ 1 < k + 1 ∧ some a[i] = b[k + 1 - 2]? ∧
      a[i + 1 - 2]? = some b[k]) := by
      rintro ⟨hipos, hkpos, hlast, hfirst⟩
      rw [← hx, show k + 1 - 2 = k - 1 by omega] at hlast
      rw [← hy, show i + 1 - 2 = i - 1 by omega] at hfirst
      exact hexchange ⟨by omega, by omega, hlast, hfirst⟩
    rw [if_neg hcond, if_neg hexchange]
    rfl

theorem fillRow_eq {prev2 : List Nat} {i : Nat} (hi : i < a.length)
    (hprev2 : 0 < i → prev2 = row a b (i - 1)) {n k rowMin : Nat}
    {cur : List Nat} (hn : k + n = b.length) (h : Filled a b (i + 1) k cur rowMin) :
    ∃ m, fillRow a b prev2 (row a b i) (i + 1) cur rowMin (List.range' (k + 1) n) =
      some (row a b (i + 1), m) ∧ Filled a b (i + 1) b.length (row a b (i + 1)) m := by
  induction n generalizing k cur rowMin with
  | zero =>
    rw [Nat.add_zero] at hn
    subst hn
    rw [← h.eq_row]
    exact ⟨rowMin, rfl, h⟩
  | succ n ih =>
    have hk : k < b.length := by omega
    rw [List.range'_succ, fillRow, cell_eq hi hk hprev2 h, Option.bind_eq_bind, Option.bind_some]
    exact ih (by omega) (h.step hk)

/-- **The outer loop.** The rows of the recurrence rotate through the three buffers. -/
theorem fillRows_eq {budget : Nat} {prev2 cur : List Nat} {n i : Nat} (hn : i + n = a.length)
    (hprev2 : 0 < i → prev2 = row a b (i - 1)) (hlen : prev2.length = b.length + 1)
    (hcur : cur.length = b.length + 1) :
    fillRows a b budget prev2 (row a b i) cur (List.range' (i + 1) n) =
      some (if distance a b ≤ budget then some (distance a b) else none) := by
  induction n generalizing i prev2 cur with
  | zero =>
    rw [Nat.add_zero] at hn
    have hlast : (row a b i).getLast? = some (distance a b) := by
      rw [List.getLast?_eq_getElem?, row_length, Nat.add_sub_cancel,
        getElem?_row a b i le_rfl, distance, hn]
    rw [List.range'_zero, fillRows, hlast, Option.filter_some]
    simp
  | succ n ih =>
    obtain ⟨m, hfill, hrow⟩ :=
      fillRow_eq (b := b) (by omega) hprev2 (Nat.zero_add _) (Filled.start hcur)
    rw [List.range'_succ, fillRows, Option.bind_eq_bind]
    rw [Nat.zero_add] at hfill
    rw [hfill, Option.bind_some]
    dsimp only
    by_cases hstop : budget < m
    · have hall := lt_table_of_le a b (show i + 1 ≤ a.length by omega)
        ((hrow.least budget).mp hstop) b.length le_rfl
      have hfar : ¬ distance a b ≤ budget := Nat.not_le_of_lt hall
      rw [if_pos hstop, if_neg hfar]
      rfl
    · rw [if_neg hstop]
      exact ih (by omega) (fun _ => rfl) (row_length a b i) hlen

/-- The distance is returned as long as it is within the budget. -/
theorem editDistance_eq (a b : Text) (budget : Nat) :
    editDistance a b budget = some (if distance a b ≤ budget then some (distance a b)
      else none) := by
  unfold editDistance
  by_cases hgap : budget < (a.length - b.length) + (b.length - a.length)
  · have hbound := length_le_table a b a.length b.length
    have hfar : ¬ distance a b ≤ budget := by
      unfold distance
      omega
    rw [if_pos hgap, if_neg hfar]
  · rw [if_neg hgap, ← row_zero a b]
    exact fillRows_eq (Nat.zero_add _) (fun h => absurd h (Nat.lt_irrefl 0)) length_replicate
      length_replicate

end

/-- **The edit distance is exact**: within the budget it is the distance of the recurrence, and that
is the least cost of an alignment. -/
theorem editDistance_exact (a b : Text) (budget : Nat) :
    editDistance a b budget = some (if distance a b ≤ budget then some (distance a b) else none) ∧
      Aligned (distance a b) a b ∧ ∀ n, Aligned n a b → distance a b ≤ n :=
  ⟨editDistance_eq a b budget, distance_isLeast a b⟩

example : editDistance "toyko".toList "tokyo".toList 2 = some (some 1) := by decide

end Thegn.Calendar
