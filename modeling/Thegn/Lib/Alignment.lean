import Mathlib.Data.List.Basic
import Mathlib.Data.List.Induction
import Mathlib.Data.List.TakeDrop
import Mathlib.Order.MinMax
import Mathlib.Tactic.SplitIfs

set_option autoImplicit false

/-! # Optimal string alignment

Two lists are aligned from the left to the right by inserting, deleting and substituting entries and
by exchanging two adjacent ones, each at a cost of one (`Aligned`). `table a b i j` is the
recurrence for the least cost between the first `i` entries of `a` and the first `j` of `b`
(`aligned_table`, `table_le_of_aligned`). A row of it whose entries are all above a bound is
followed by such rows only (`lt_table_succ`), although an exchange looks back two rows: a row is
never more than one above the row before it (`table_succ_le`).
-/

namespace Thegn.Alignment

open List

variable {α : Type}

/-- The second list is made from the first one at this cost. -/
inductive Aligned : Nat → List α → List α → Prop
  | nil : Aligned 0 [] []
  | delete {n : Nat} {a b : List α} (x : α) : Aligned n a b → Aligned (n + 1) (a ++ [x]) b
  | insert {n : Nat} {a b : List α} (y : α) : Aligned n a b → Aligned (n + 1) a (b ++ [y])
  | keep {n : Nat} {a b : List α} (x : α) : Aligned n a b → Aligned n (a ++ [x]) (b ++ [x])
  | substitute {n : Nat} {a b : List α} (x y : α) : Aligned n a b →
      Aligned (n + 1) (a ++ [x]) (b ++ [y])
  | exchange {n : Nat} {a b : List α} (x y : α) : Aligned n a b →
      Aligned (n + 1) (a ++ [x, y]) (b ++ [y, x])

variable [DecidableEq α] (a b : List α)

/-- **The recurrence of the optimal string alignment distance.** -/
def table : Nat → Nat → Nat
  | 0, j => j
  | i + 1, 0 => i + 1
  | i + 1, j + 1 =>
    let v := min (min (table i (j + 1) + 1) (table (i + 1) j + 1))
      (table i j + if a[i]? = b[j]? then 0 else 1)
    if 0 < i ∧ 0 < j ∧ a[i]? = b[j - 1]? ∧ a[i - 1]? = b[j]?
      then min v (table (i - 1) (j - 1) + 1) else v
termination_by i j => i + j

def distance : Nat := table a b a.length b.length

theorem table_zero (j : Nat) : table a b 0 j = j := by rw [table]

theorem table_zero_right (i : Nat) : table a b i 0 = i := by cases i <;> rw [table]

/-- What the recurrence compares. -/
def candidate (i j : Nat) : Nat :=
  min (min (table a b i (j + 1) + 1) (table a b (i + 1) j + 1))
    (table a b i j + if a[i]? = b[j]? then 0 else 1)

/-- The last two entries are exchanged. -/
def Exchanged (i j : Nat) : Prop := 0 < i ∧ 0 < j ∧ a[i]? = b[j - 1]? ∧ a[i - 1]? = b[j]?

instance (i j : Nat) : Decidable (Exchanged a b i j) := inferInstanceAs (Decidable (_ ∧ _ ∧ _ ∧ _))

theorem table_succ (i j : Nat) :
    table a b (i + 1) (j + 1) =
      if Exchanged a b i j then min (candidate a b i j) (table a b (i - 1) (j - 1) + 1)
        else candidate a b i j := by
  rw [table]
  rfl

/-- An entry is bounded from below by the entries it is made of. -/
theorem le_table_iff {i j m : Nat} :
    m ≤ table a b (i + 1) (j + 1) ↔
      m ≤ table a b i (j + 1) + 1 ∧ m ≤ table a b (i + 1) j + 1 ∧
        m ≤ table a b i j + (if a[i]? = b[j]? then 0 else 1) ∧
        (Exchanged a b i j → m ≤ table a b (i - 1) (j - 1) + 1) := by
  rw [table_succ, candidate]
  by_cases h : Exchanged a b i j
  · rw [if_pos h, le_min_iff, le_min_iff, le_min_iff]
    simp [h, and_assoc]
  · rw [if_neg h, le_min_iff, le_min_iff]
    simp [h, and_assoc]

/-- A row is at most one above the row before it. -/
theorem table_succ_le (i j : Nat) : table a b (i + 1) j ≤ table a b i j + 1 := by
  cases j with
  | zero =>
    rw [table_zero_right, table_zero_right]
  | succ j => exact ((le_table_iff a b).mp le_rfl).1

/-- **A row above a bound is followed by a row above it.** The induction is on the column. -/
theorem lt_table_succ {i m n : Nat} (h : ∀ j ≤ n, m < table a b i j) :
    ∀ j ≤ n, m < table a b (i + 1) j := by
  intro j
  induction j with
  | zero =>
    intro hj
    have hzero := h 0 hj
    rw [table_zero_right] at hzero ⊢
    omega
  | succ j ih =>
    intro hj
    have hleft := ih (by omega)
    have habove := h (j + 1) hj
    have hcorner := h j (by omega)
    refine Nat.lt_of_succ_le ((le_table_iff a b).mpr ⟨by omega, by omega, by omega, fun hx => ?_⟩)
    -- the exchange starts two rows above, and the row in between is at most one higher
    obtain ⟨k, rfl⟩ : ∃ k, i = k + 1 := ⟨i - 1, by have := hx.1; omega⟩
    have hstep := table_succ_le a b k (j - 1)
    have hrow := h (j - 1) (by omega)
    rw [Nat.add_sub_cancel]
    omega

/-- A row above a bound is followed by such rows only. -/
theorem lt_table_of_le {i k m n : Nat} (hik : i ≤ k) (h : ∀ j ≤ n, m < table a b i j) :
    ∀ j ≤ n, m < table a b k j := by
  induction hik with
  | refl => exact h
  | step _ ih => exact lt_table_succ a b ih

/-- The distance of the lengths has to be bridged. -/
theorem length_le_table (i j : Nat) : i ≤ table a b i j + j ∧ j ≤ table a b i j + i := by
  induction h : i + j using Nat.strongRecOn generalizing i j with
  | ind n ih =>
    cases i with
    | zero => rw [table_zero]; omega
    | succ i =>
      cases j with
      | zero => rw [table_zero_right]; omega
      | succ j =>
        have habove := ih _ (by omega) i (j + 1) rfl
        have hleft := ih _ (by omega) (i + 1) j rfl
        have hcorner := ih _ (by omega) i j rfl
        have hexchange := ih _ (by omega) (i - 1) (j - 1) rfl
        have hle : max (i - j) (j - i) ≤ table a b (i + 1) (j + 1) := by
          refine (le_table_iff a b).mpr ⟨by omega, by omega, by omega, fun hx => ?_⟩
          have hi := hx.1
          have hj := hx.2.1
          omega
        omega

/-! ## The least cost -/

omit [DecidableEq α] in
theorem aligned_nil_left (b : List α) : Aligned b.length [] b := by
  induction b using List.reverseRecOn with
  | nil => exact .nil
  | append_singleton b y ih =>
    rw [length_append]
    exact .insert y ih

omit [DecidableEq α] in
theorem aligned_nil_right (a : List α) : Aligned a.length a [] := by
  induction a using List.reverseRecOn with
  | nil => exact .nil
  | append_singleton a x ih =>
    rw [length_append]
    exact .delete x ih

/-- The recurrence takes one of the entries it compares. -/
theorem table_cases (i j : Nat) :
    table a b (i + 1) (j + 1) = table a b i (j + 1) + 1 ∨
    table a b (i + 1) (j + 1) = table a b (i + 1) j + 1 ∨
      table a b (i + 1) (j + 1) = table a b i j + (if a[i]? = b[j]? then 0 else 1) ∨
      Exchanged a b i j ∧ table a b (i + 1) (j + 1) = table a b (i - 1) (j - 1) + 1 := by
  obtain ⟨habove, hleft, hcorner, hexchange⟩ :=
    (le_table_iff a b).mp (Nat.le_refl (table a b (i + 1) (j + 1)))
  by_contra hnot
  push Not at hnot
  have hmore : table a b (i + 1) (j + 1) + 1 ≤ table a b (i + 1) (j + 1) := by
    refine (le_table_iff a b).mpr ⟨by omega, by omega, by omega, fun hx => ?_⟩
    have hle := hexchange hx
    have hne := hnot.2.2.2 hx
    omega
  omega

omit [DecidableEq α] in
theorem take_succ_of_lt {i : Nat} (h : i < a.length) : a.take (i + 1) = a.take i ++ [a[i]] :=
  take_succ_eq_append_getElem h

/-- Some alignment has the cost of the recurrence. -/
theorem aligned_table {i j : Nat} (hi : i ≤ a.length) (hj : j ≤ b.length) :
    Aligned (table a b i j) (a.take i) (b.take j) := by
  induction h : i + j using Nat.strongRecOn generalizing i j with
  | ind n ih =>
    cases i with
    | zero =>
      rw [table_zero]
      simpa [Nat.min_eq_left hj] using aligned_nil_left (b.take j)
    | succ i =>
      cases j with
      | zero =>
        rw [table_zero_right]
        simpa [Nat.min_eq_left hi] using aligned_nil_right (a.take (i + 1))
      | succ j =>
        have ha := take_succ_of_lt a hi
        have hb := take_succ_of_lt b hj
        rcases table_cases a b i j with heq | heq | heq | ⟨hx, heq⟩
        · rw [heq, ha]
          exact .delete _ (ih _ (by omega) (by omega) hj rfl)
        · rw [heq, hb]
          exact .insert _ (ih _ (by omega) hi (by omega) rfl)
        · rw [heq, ha, hb]
          have hcorner := ih _ (by omega) (Nat.le_of_lt hi) (Nat.le_of_lt hj) rfl
          split_ifs with hsame
          · rw [List.getElem?_eq_getElem hi, List.getElem?_eq_getElem hj,
              Option.some.injEq] at hsame
            rw [hsame]
            exact .keep _ hcorner
          · exact .substitute _ _ hcorner
        · obtain ⟨hipos, hjpos, hlast, hfirst⟩ := hx
          obtain ⟨k, rfl⟩ : ∃ k, i = k + 1 := ⟨i - 1, by omega⟩
          obtain ⟨l, rfl⟩ : ∃ l, j = l + 1 := ⟨j - 1, by omega⟩
          rw [Nat.add_sub_cancel] at hlast hfirst
          rw [List.getElem?_eq_getElem hi, List.getElem?_eq_getElem (Nat.lt_of_succ_lt hj),
            Option.some.injEq] at hlast
          rw [List.getElem?_eq_getElem (Nat.lt_of_succ_lt hi), List.getElem?_eq_getElem hj,
            Option.some.injEq] at hfirst
          have hrest := ih _ (by omega) (i := k) (j := l) (by omega) (by omega) rfl
          rw [heq, ha, hb, take_succ_of_lt a (Nat.lt_of_succ_lt hi),
            take_succ_of_lt b (Nat.lt_of_succ_lt hj), hlast, ← hfirst, append_assoc, append_assoc]
          exact .exchange _ _ hrest

theorem table_succ_le_right (i j : Nat) : table a b i (j + 1) ≤ table a b i j + 1 := by
  cases i with
  | zero => rw [table_zero, table_zero]
  | succ i => exact ((le_table_iff a b).mp le_rfl).2.1

omit [DecidableEq α] in
/-- The last entry of a beginning. -/
theorem exists_of_concat_eq_take {a as : List α} {x : α} {i : Nat} (hi : i ≤ a.length)
    (h : as ++ [x] = a.take i) : ∃ k, i = k + 1 ∧ as = a.take k ∧ a[k]? = some x := by
  cases i with
  | zero => simp at h
  | succ k =>
    rw [take_succ_of_lt a hi] at h
    obtain ⟨has, hx⟩ := append_inj' h rfl
    refine ⟨k, rfl, has, ?_⟩
    rw [List.getElem?_eq_getElem hi, (List.cons.inj hx).1]

/-- **No alignment costs less than the recurrence says.** The induction is on the alignment. -/
theorem table_le_of_aligned {n : Nat} {as bs : List α} (h : Aligned n as bs) :
    ∀ {i j : Nat}, i ≤ a.length → j ≤ b.length → as = a.take i → bs = b.take j →
    table a b i j ≤ n := by
  induction h with
  | nil =>
    intro i j hi hj ha hb
    have hi : 0 = i := by simpa [Nat.min_eq_left hi] using congrArg List.length ha
    have hj : 0 = j := by simpa [Nat.min_eq_left hj] using congrArg List.length hb
    rw [← hi, ← hj, table_zero]
  | delete x _ ih =>
    intro i j hi hj ha hb
    obtain ⟨k, rfl, ha, -⟩ := exists_of_concat_eq_take hi ha
    have hle := ih (Nat.le_of_succ_le hi) hj ha hb
    have hstep := table_succ_le a b k j
    omega
  | insert y _ ih =>
    intro i j hi hj ha hb
    obtain ⟨l, rfl, hb, -⟩ := exists_of_concat_eq_take hj hb
    have hle := ih hi (Nat.le_of_succ_le hj) ha hb
    have hstep := table_succ_le_right a b i l
    omega
  | keep x _ ih =>
    intro i j hi hj ha hb
    obtain ⟨k, rfl, ha, hx⟩ := exists_of_concat_eq_take hi ha
    obtain ⟨l, rfl, hb, hy⟩ := exists_of_concat_eq_take hj hb
    have hle := ih (Nat.le_of_succ_le hi) (Nat.le_of_succ_le hj) ha hb
    have hstep := ((le_table_iff a b).mp (Nat.le_refl (table a b (k + 1) (l + 1)))).2.2.1
    rw [if_pos (hx.trans hy.symm)] at hstep
    omega
  | substitute x y _ ih =>
    intro i j hi hj ha hb
    obtain ⟨k, rfl, ha, -⟩ := exists_of_concat_eq_take hi ha
    obtain ⟨l, rfl, hb, -⟩ := exists_of_concat_eq_take hj hb
    have hle := ih (Nat.le_of_succ_le hi) (Nat.le_of_succ_le hj) ha hb
    have hstep := ((le_table_iff a b).mp (Nat.le_refl (table a b (k + 1) (l + 1)))).2.2.1
    split_ifs at hstep <;> omega
  | exchange x y _ ih =>
    intro i j hi hj ha hb
    rw [append_cons] at ha hb
    obtain ⟨k, rfl, ha, hlast⟩ := exists_of_concat_eq_take hi ha
    obtain ⟨k, rfl, ha, hfirst⟩ := exists_of_concat_eq_take (Nat.le_of_succ_le hi) ha
    obtain ⟨l, rfl, hb, hlast'⟩ := exists_of_concat_eq_take hj hb
    obtain ⟨l, rfl, hb, hfirst'⟩ := exists_of_concat_eq_take (Nat.le_of_succ_le hj) hb
    have hle := ih (by omega) (by omega) ha hb
    have hx : Exchanged a b (k + 1) (l + 1) :=
      ⟨Nat.succ_pos k, Nat.succ_pos l, hlast.trans hfirst'.symm, hfirst.trans hlast'.symm⟩
    have hstep := ((le_table_iff a b).mp (Nat.le_refl (table a b (k + 1 + 1) (l + 1 + 1)))).2.2.2 hx
    rw [Nat.add_sub_cancel, Nat.add_sub_cancel] at hstep
    omega

/-- **The distance is the least cost of an alignment.** -/
theorem distance_isLeast : Aligned (distance a b) a b ∧ ∀ n, Aligned n a b → distance a b ≤ n := by
  constructor
  · simpa [distance] using aligned_table a b (Nat.le_refl a.length) (Nat.le_refl b.length)
  · intro n h
    exact table_le_of_aligned a b h le_rfl le_rfl (take_length).symm
      (take_length).symm

end Thegn.Alignment
