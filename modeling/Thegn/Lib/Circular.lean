import Mathlib

set_option autoImplicit false

/-! # Circular buffers

A buffer of a fixed length that is indexed modulo its length. `Holds r f n` says that it holds the
last values of a sequence `f` before `n`; writing the next value (`Holds.put`) and clearing over a
gap (`Holds.clear`) keep it.
-/

namespace Thegn.Circular

open List

structure Circular (α : Type) where
  cells : List α
  pos : 0 < cells.length

variable {α : Type}

def filled (v : α) (len : Nat) (h : 0 < len) : Circular α :=
  ⟨List.replicate len v, by rwa [length_replicate]⟩

def Circular.size (r : Circular α) : Nat := r.cells.length

/-- The cell of an index. -/
def Circular.at (r : Circular α) (i : Nat) : α :=
  r.cells.get ⟨i % r.cells.length, Nat.mod_lt _ r.pos⟩

def Circular.put (r : Circular α) (i : Nat) (v : α) : Circular α :=
  ⟨r.cells.set (i % r.cells.length) v, by
    rw [length_set]
    exact r.pos⟩

/-- Write one value at `k` indices from `a` on. -/
def Circular.clear (r : Circular α) (a k : Nat) (v : α) : Circular α :=
  (List.range' a k).foldl (fun r i => r.put i v) r

theorem at_filled (v : α) (len : Nat) (h : 0 < len) (i : Nat) : (filled v len h).at i = v :=
  getElem_replicate _

theorem size_filled (v : α) (len : Nat) (h : 0 < len) : (filled v len h).size = len :=
  length_replicate

@[simp] theorem size_put (r : Circular α) (i : Nat) (v : α) : (r.put i v).size = r.size :=
  length_set

theorem size_pos (r : Circular α) : 0 < r.size := r.pos

theorem at_put (r : Circular α) (i j : Nat) (v : α) :
    (r.put i v).at j = if i % r.size = j % r.size then v else r.at j := by
  simp only [Circular.at, Circular.put, Circular.size, length_set, get_eq_getElem, getElem_set]
  rfl

theorem size_clear (r : Circular α) (a k : Nat) (v : α) : (r.clear a k v).size = r.size := by
  induction k generalizing r a with
  | zero => rfl
  | succ k ih =>
    rw [Circular.clear, List.range'_succ, foldl_cons]
    exact (ih (r.put a v) (a + 1)).trans (size_put r a v)

/-- A cleared cell has the value if it is that of one of the indices. -/
theorem at_clear_of_mem {r : Circular α} {a k i j : Nat} {v : α} (ha : a ≤ j) (hk : j < a + k)
    (hij : j % r.size = i % r.size) : (r.clear a k v).at i = v := by
  induction k generalizing r a with
  | zero => omega
  | succ k ih =>
    rw [Circular.clear, List.range'_succ, foldl_cons]
    by_cases hlast : a + 1 ≤ j
    · exact ih (r := r.put a v) hlast (by omega) (by rwa [size_put])
    · have heq : j = a := by omega
      -- written first, and then kept or written again
      have hkeep : ∀ (l : List Nat) (r' : Circular α), r'.at i = v →
          (l.foldl (fun r i => r.put i v) r').at i = v := by
        intro l
        induction l with
        | nil => exact fun _ h => h
        | cons x l ihl =>
          intro r' h
          refine ihl _ ?_
          rw [at_put]
          split_ifs
          · rfl
          · exact h
      refine hkeep _ _ ?_
      rw [at_put, if_pos (heq ▸ hij)]

/-- A cell of none of the indices is left as it is. -/
theorem at_clear_of_not_mem {r : Circular α} {a k i : Nat} {v : α}
    (h : ∀ j, a ≤ j → j < a + k → j % r.size ≠ i % r.size) : (r.clear a k v).at i = r.at i := by
  induction k generalizing r a with
  | zero => rfl
  | succ k ih =>
    rw [Circular.clear, List.range'_succ, foldl_cons]
    refine (ih (r := r.put a v) (a := a + 1) fun j ha hk => ?_).trans ?_
    · rw [size_put]
      exact h j (by omega) (by omega)
    · rw [at_put, if_neg (h a (Nat.le_refl a) (by omega))]

/-! ## The last values of a sequence -/

/-- The buffer holds the values of the sequence before `n`, as far back as it reaches. -/
def Holds (r : Circular α) (f : Nat → α) (n : Nat) : Prop := ∀ i < n, n ≤ i + r.size → r.at i = f i

section Holds

variable {r : Circular α} {f g : Nat → α} {n : Nat}

theorem mod_ne {i j m : Nat} (hlt : i < j) (hj : j < i + m) : j % m ≠ i % m := by
  intro heq
  have hdvd : m ∣ j - i := (Nat.modEq_iff_dvd' hlt.le).mp heq.symm
  have hle := Nat.le_of_dvd (by omega) hdvd
  omega

theorem Holds.congr (h : Holds r f n) (hfg : ∀ i < n, f i = g i) : Holds r g n := fun i hi hn =>
  (h i hi hn).trans (hfg i hi)

theorem Holds.of_const {v : α} (h : ∀ i, r.at i = v) (hf : ∀ i < n, f i = v) : Holds r f n :=
  fun i hi _ => (h i).trans (hf i hi).symm

theorem Holds.put (h : Holds r f n) : Holds (r.put n (f n)) f (n + 1) := by
  intro i hi hn
  rw [size_put] at hn
  rw [at_put]
  rcases Nat.lt_succ_iff_lt_or_eq.mp hi with hlt | rfl
  · rw [if_neg (mod_ne hlt (by omega))]
    exact h i hlt (by omega)
  · rw [if_pos rfl]

/-- Clearing a gap in the sequence, if all its cells that are still in reach are cleared. -/
theorem Holds.clear {m a k : Nat} {v : α} (h : Holds r f n) (hnm : n ≤ m)
    (hf : ∀ i, n ≤ i → i < m → f i = v) (ha : n ≤ a) (hak : a + k ≤ m)
    (hcover : ∀ i, n ≤ i → i < m → m ≤ i + r.size → ∃ j, a ≤ j ∧ j < a + k ∧
      j % r.size = i % r.size) :
    Holds (r.clear a k v) f m := by
  intro i hi hm
  rw [size_clear] at hm
  by_cases hin : n ≤ i
  · obtain ⟨j, haj, hjk, hij⟩ := hcover i hin hi hm
    rw [at_clear_of_mem haj hjk hij, hf i hin hi]
  · rw [at_clear_of_not_mem fun j haj hjk => mod_ne (by omega) (by omega)]
    exact h i (by omega) (by omega)

/-- Clearing the part of a gap that is in reach. -/
theorem Holds.clear_tail {m : Nat} {v : α} (h : Holds r f n) (hnm : n ≤ m)
    (hf : ∀ i, n ≤ i → i < m → f i = v) :
    Holds (r.clear (max n (m - r.size)) (m - max n (m - r.size)) v) f m := by
  refine h.clear hnm hf (Nat.le_max_left _ _) (by omega) fun i hin him hreach => ⟨i, ?_, ?_, rfl⟩
  · omega
  · omega

/-- Clearing a gap from its start, and no cell twice. -/
theorem Holds.clear_head {m : Nat} {v : α} (h : Holds r f n) (hnm : n ≤ m)
    (hf : ∀ i, n ≤ i → i < m → f i = v) : Holds (r.clear n (min (m - n) r.size) v) f m := by
  refine h.clear hnm hf (Nat.le_refl n) (by omega) fun i hin him _ => ?_
  by_cases hshort : m - n ≤ r.size
  · exact ⟨i, hin, by omega, rfl⟩
  · -- every cell is cleared
    have hmod := Nat.mod_lt (i - n) (size_pos r)
    refine ⟨n + (i - n) % r.size, Nat.le_add_right _ _, by omega, ?_⟩
    rw [Nat.add_mod_mod, Nat.add_sub_of_le hin]

end Holds

end Thegn.Circular
