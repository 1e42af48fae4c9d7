import Mathlib

set_option autoImplicit false

/-! # Sweeping rows that expire

Rows are served in rounds, at most `budget` in each. A row that was served in round `j` stays fresh
for a while; in a round, only rows that are not fresh are due, and a round that does not use up its
budget serves all that is due. Which of the due rows are served, and in which order, is left open.

If what is fresh was served in one of the last `window` rounds, and there are more than `window *
budget` rows, then some row is always due (`exists_due`). In the other direction, let all rows fit
into `width` rounds. The first time that rows stay fresh over `width` rounds, nothing is due after
these rounds (`not_due_of_first`). This is the delicate part: a round before the last one may have
had budget to spare because the rows left were still fresh, so the sweep need not begin where these
rounds begin.
-/

namespace Thegn

/-- Rows that are served in rounds. `held r x`: in round `r`, row `x` is fresh for a reason other
than having been served. -/
structure Sweep (ρ : Type) [DecidableEq ρ] where
  rows : Finset ρ
  budget : Nat
  /-- What was served in the first round is fresh in the second. -/
  fresh : Nat → Nat → Prop
  held : Nat → ρ → Prop
  served : Nat → Finset ρ
  fresh_mono : ∀ {j j' r r'}, fresh j r → j ≤ j' → r' ≤ r → fresh j' r'
  served_due : ∀ {r x}, x ∈ served r → x ∈ rows ∧ ¬ held r x ∧ ∀ j < r, x ∈ served j → ¬ fresh j r
  served_card : ∀ r, (served r).card ≤ budget
  served_all : ∀ {r}, (served r).card < budget → ∀ {x}, x ∈ rows → ¬ held r x →
    (∀ j < r, x ∈ served j → ¬ fresh j r) → x ∈ served r

namespace Sweep

variable {ρ : Type} [DecidableEq ρ] (S : Sweep ρ)

/-- The row needs to be served. -/
def Due (r : Nat) (x : ρ) : Prop :=
  x ∈ S.rows ∧ ¬ S.held r x ∧ ∀ j < r, x ∈ S.served j → ¬ S.fresh j r

/-- The rows served in the rounds from `a` to `b`, exclusive. -/
def servedIn (a b : Nat) : Finset ρ := (Finset.Ico a b).biUnion S.served

variable {S}

theorem mem_servedIn {a b : Nat} {x : ρ} :
    x ∈ S.servedIn a b ↔ ∃ j, (a ≤ j ∧ j < b) ∧ x ∈ S.served j := by
  simp [servedIn]

theorem servedIn_subset (a b : Nat) : S.servedIn a b ⊆ S.rows := by
  intro x hx
  obtain ⟨j, -, hj⟩ := mem_servedIn.mp hx
  exact (S.served_due hj).1

theorem card_servedIn_le (a b : Nat) : (S.servedIn a b).card ≤ (b - a) * S.budget := by
  have hle := Finset.card_biUnion_le_card_mul (Finset.Ico a b) S.served S.budget
    (fun j _ => S.served_card j)
  rwa [Nat.card_Ico] at hle

/-! ## Too many rows -/

/-- **Some row is always due** when the rows are more than the last rounds can have served. -/
theorem exists_due {window r : Nat} (hwindow : ∀ j < r, S.fresh j r → r ≤ j + window)
    (hheld : ∀ x ∈ S.rows, ¬ S.held r x) (hcard : window * S.budget < S.rows.card) :
    ∃ x, S.Due r x := by
  by_contra hnone
  push Not at hnone
  have hsub : S.rows ⊆ S.servedIn (r - window) r := by
    intro x hx
    by_contra hout
    refine hnone x ⟨hx, hheld x hx, ?_⟩
    intro j hj hserved hfresh
    have hle := hwindow j hj hfresh
    exact hout (mem_servedIn.mpr ⟨j, by omega, hserved⟩)
  have hle : S.rows.card ≤ window * S.budget :=
    calc S.rows.card ≤ (S.servedIn (r - window) r).card := Finset.card_le_card hsub
      _ ≤ (r - (r - window)) * S.budget := card_servedIn_le _ _
      _ ≤ window * S.budget := Nat.mul_le_mul_right _ (by omega)
  omega

/-! ## Few enough rows -/

section

variable {start width : Nat} (hfresh : S.fresh start (start + width))

include hfresh

/-- During the rounds in which everything stays fresh, no row is served twice. -/
theorem disjoint_served {j k : Nat} (hj : start ≤ j) (hjk : j < k) (hk : k ≤ start + width) :
    Disjoint (S.served j) (S.served k) := by
  rw [Finset.disjoint_left]
  intro x hxj hxk
  exact (S.served_due hxk).2.2 j hjk hxj (S.fresh_mono hfresh hj hk)

theorem card_servedIn_of_full {a : Nat} (ha : start ≤ a)
    (hfull : ∀ k, a ≤ k → k < start + width → (S.served k).card = S.budget) :
    (S.servedIn a (start + width)).card = (start + width - a) * S.budget := by
  unfold servedIn
  rw [Finset.card_biUnion]
  · rw [Finset.sum_congr rfl (fun k hk =>
      hfull k (Finset.mem_Ico.mp hk).1 (Finset.mem_Ico.mp hk).2),
      Finset.sum_const, Nat.card_Ico, smul_eq_mul]
  · intro j hj k hk hne
    have hj' := Finset.mem_Ico.mp hj
    have hk' := Finset.mem_Ico.mp hk
    rcases Nat.lt_or_gt_of_ne hne with hlt | hlt
    · exact disjoint_served hfresh (by omega) hlt (by omega)
    · exact (disjoint_served hfresh (by omega) hlt (by omega)).symm

/-- Full rounds serve all of a set of rows that holds what they serve and is not larger. -/
theorem eq_servedIn_of_full {a : Nat} (ha : start ≤ a)
    (hfull : ∀ k, a ≤ k → k < start + width → (S.served k).card = S.budget) {R : Finset ρ}
    (hsub : S.servedIn a (start + width) ⊆ R) (hcard : R.card ≤ (start + width - a) * S.budget) :
    S.servedIn a (start + width) = R := by
  apply Finset.eq_of_subset_of_card_le hsub
  rw [card_servedIn_of_full hfresh ha hfull]
  exact hcard

end

/-- After a round with budget to spare, what was not served since `start` was served not long before
it: the rounds that are left have room for it. -/
theorem card_left_le {start width k : Nat} (hheld : ∀ r x, ¬ S.held r x)
    (hfirst : ∀ j < start, ¬ S.fresh j (j + width)) (hk : start ≤ k)
    (hspare : (S.served k).card < S.budget) :
    (S.rows \ S.servedIn start (k + 1)).card ≤ (start + width - (k + 1)) * S.budget := by
  have hsub : S.rows \ S.servedIn start (k + 1) ⊆ S.servedIn (k + 1 - width) start := by
    intro x hx
    obtain ⟨hrow, hout⟩ := Finset.mem_sdiff.mp hx
    have hnot : x ∉ S.served k := fun h => hout (mem_servedIn.mpr ⟨k, by omega, h⟩)
    -- the row was not due in round `k`, so an earlier round served it
    have hearlier : ∃ j < k, x ∈ S.served j ∧ S.fresh j k := by
      by_contra hnone
      push Not at hnone
      exact hnot (S.served_all hspare hrow (hheld k x) hnone)
    obtain ⟨j, hjk, hserved, hjfresh⟩ := hearlier
    have hjstart : j < start := by
      by_contra hge
      exact hout (mem_servedIn.mpr ⟨j, by omega, hserved⟩)
    have hrecent : k < j + width := by
      by_contra hge
      exact hfirst j hjstart (S.fresh_mono hjfresh (le_refl j) (by omega))
    exact mem_servedIn.mpr ⟨j, by omega, hserved⟩
  calc (S.rows \ S.servedIn start (k + 1)).card
      ≤ (S.servedIn (k + 1 - width) start).card := Finset.card_le_card hsub
    _ ≤ (start - (k + 1 - width)) * S.budget := card_servedIn_le _ _
    _ ≤ (start + width - (k + 1)) * S.budget := Nat.mul_le_mul_right _ (by omega)

/-- The last round with budget to spare; the ones after it are full. -/
theorem exists_last_spare {start stop : Nat}
    (h : ∃ k, start ≤ k ∧ k < stop ∧ (S.served k).card < S.budget) :
    ∃ k, start ≤ k ∧ k < stop ∧ (S.served k).card < S.budget
      ∧ ∀ k', k < k' → k' < stop → (S.served k').card = S.budget := by
  obtain ⟨k, hk⟩ := h
  let P := fun k => start ≤ k ∧ k < stop ∧ (S.served k).card < S.budget
  obtain ⟨hstart, hstop, hspare⟩ := Nat.findGreatest_spec (P := P) hk.2.1.le hk
  refine ⟨Nat.findGreatest P stop, hstart, hstop, hspare, ?_⟩
  intro k' hlt hk'
  have hnot := Nat.findGreatest_is_greatest (P := P) hlt hk'.le
  have hle := S.served_card k'
  by_contra hne
  exact hnot ⟨by omega, hk', by omega⟩

/-- All rows are served during the first rounds over which rows stay fresh. -/
theorem rows_subset_servedIn {start width : Nat} (hheld : ∀ r x, ¬ S.held r x)
    (hcard : S.rows.card ≤ width * S.budget) (hfresh : S.fresh start (start + width))
    (hfirst : ∀ j < start, ¬ S.fresh j (j + width)) :
    S.rows ⊆ S.servedIn start (start + width) := by
  by_cases hspare : ∃ k, start ≤ k ∧ k < start + width ∧ (S.served k).card < S.budget
  · obtain ⟨k, hk, hkw, hks, hlast⟩ := exists_last_spare hspare
    have hleft := card_left_le hheld hfirst hk hks
    have hsub : S.servedIn (k + 1) (start + width) ⊆ S.rows \ S.servedIn start (k + 1) := by
      intro x hx
      obtain ⟨j, hj, hserved⟩ := mem_servedIn.mp hx
      refine Finset.mem_sdiff.mpr ⟨(S.served_due hserved).1, ?_⟩
      intro hin
      obtain ⟨i, hi, hserved'⟩ := mem_servedIn.mp hin
      exact Finset.disjoint_left.mp (disjoint_served hfresh hi.1 (by omega) (by omega))
        hserved' hserved
    have heq := eq_servedIn_of_full hfresh (by omega) (fun k' hk' hk'w => hlast k' (by omega) hk'w)
      hsub hleft
    intro x hx
    by_cases hin : x ∈ S.servedIn start (k + 1)
    · obtain ⟨j, hj, hserved⟩ := mem_servedIn.mp hin
      exact mem_servedIn.mpr ⟨j, by omega, hserved⟩
    · have hmem : x ∈ S.servedIn (k + 1) (start + width) := by
        rw [heq]
        exact Finset.mem_sdiff.mpr ⟨hx, hin⟩
      obtain ⟨j, hj, hserved⟩ := mem_servedIn.mp hmem
      exact mem_servedIn.mpr ⟨j, by omega, hserved⟩
  · push Not at hspare
    have heq := eq_servedIn_of_full hfresh (le_refl start)
      (fun k hk hkw => le_antisymm (S.served_card k) (hspare k hk hkw)) (servedIn_subset _ _)
      (by rw [Nat.add_sub_cancel_left]; exact hcard)
    exact heq.symm.subset

/-- **Nothing is due after the first rounds over which rows stay fresh**, when the rows fit into
these rounds. -/
theorem not_due_of_first {start width : Nat} (hheld : ∀ r x, ¬ S.held r x)
    (hcard : S.rows.card ≤ width * S.budget) (hfresh : S.fresh start (start + width))
    (hfirst : ∀ j < start, ¬ S.fresh j (j + width)) (x : ρ) : ¬ S.Due (start + width) x := by
  rintro ⟨hrow, -, hstale⟩
  have hmem := rows_subset_servedIn hheld hcard hfresh hfirst hrow
  obtain ⟨j, hj, hserved⟩ := mem_servedIn.mp hmem
  exact hstale j hj.2 hserved (S.fresh_mono hfresh hj.1 (le_refl _))

end Sweep

end Thegn
