import Thegn.Monitor.Store

set_option autoImplicit false

/-! # Means and maxima of the buckets of a tier

A tier is fed with the values of the seconds that are closed, in order and with gaps. `Rolled` says
what its accumulator and its ring hold after that: the cells of the buckets that are complete, as
the whole history has them (`bucketCell`), and the sum, count and maximum of the open bucket.
Closing a second keeps it (`Rolled.update`), whatever gap there was.
-/

namespace Thegn.Monitor

open Thegn.Circular List Option

/-! ## The cells of a history -/

/-- The mean and the maximum of values. -/
def cellOf (vals : List ℚ) : Cell where
  mean := if vals = [] then none else some (vals.sum / vals.length)
  max := vals.max?

/-- The values of `k` seconds from `a` on that have one. -/
def valuesIn (g : Nat → Option ℚ) (a k : Nat) : List ℚ := (List.range' a k).filterMap g

/-- The cell of a bucket of `p` seconds. -/
def bucketCell (g : Nat → Option ℚ) (p bucket : Nat) : Cell := cellOf (valuesIn g (bucket * p) p)

section Values

variable {g : Nat → Option ℚ}

theorem valuesIn_add (g : Nat → Option ℚ) (a k l : Nat) :
    valuesIn g a (k + l) = valuesIn g a k ++ valuesIn g (a + k) l := by
  have hsplit : List.range' a (k + l) = List.range' a k ++ List.range' (a + k) l := by
    rw [← List.range'_append_1]
  rw [valuesIn, hsplit, filterMap_append]
  rfl

theorem valuesIn_none {a k : Nat} (h : ∀ i, a ≤ i → i < a + k → g i = none) :
    valuesIn g a k = [] := by
  rw [valuesIn, filterMap_eq_nil_iff]
  intro i hi
  rw [mem_range'_1] at hi
  exact h i hi.1 hi.2

theorem valuesIn_one (g : Nat → Option ℚ) (a : Nat) : valuesIn g a 1 = (g a).toList := by
  rw [valuesIn, List.range'_one, filterMap_cons]
  cases g a with
  | none => rfl
  | some v => rfl

theorem bucketCell_missing {p bucket : Nat}
    (h : ∀ i, bucket * p ≤ i → i < bucket * p + p → g i = none) :
    bucketCell g p bucket = .missing := by
  rw [bucketCell, valuesIn_none h]
  rfl

theorem bucketCell_congr {g' : Nat → Option ℚ} {p bucket : Nat}
    (h : ∀ i, bucket * p ≤ i → i < bucket * p + p → g i = g' i) :
    bucketCell g p bucket = bucketCell g' p bucket := by
  rw [bucketCell, bucketCell, valuesIn, valuesIn]
  congr 1
  refine filterMap_congr fun i hi => ?_
  rw [mem_range'_1] at hi
  exact h i hi.1 hi.2

end Values

/-! ## The accumulator -/

/-- The accumulator of values. -/
structure Gathers (acc : Acc) (vals : List ℚ) : Prop where
  sum : acc.sum = vals.sum
  n : acc.n = vals.length
  max : vals ≠ [] → vals.max? = some acc.max

theorem Gathers.nil (acc : Acc) (bucket : Nat) (h : acc.active = false) :
    Gathers (startAcc acc bucket) [] := by
  rw [startAcc, if_neg (by rw [h]; exact Bool.false_ne_true)]
  exact ⟨rfl, rfl, fun hne => absurd rfl hne⟩

theorem max?_concat (vals : List ℚ) (v : ℚ) :
    (vals ++ [v]).max? = some (match vals.max? with | none => v | some m => Max.max m v) := by
  cases vals with
  | nil => rfl
  | cons x xs => rw [cons_append, List.max?_cons', foldl_append, List.max?_cons']; rfl

theorem Gathers.addValue {acc : Acc} {vals : List ℚ} (h : Gathers acc vals) (value : Option ℚ) :
    Gathers (addValue acc value) (vals ++ value.toList) := by
  cases value with
  | none =>
    rw [toList_none, append_nil]
    exact h
  | some v =>
    refine ⟨?_, ?_, fun _ => ?_⟩
    · rw [toList_some, sum_append, sum_singleton, ← h.sum]
      rfl
    · rw [toList_some, length_append, length_singleton, ← h.n]
      rfl
    · rw [toList_some, max?_concat]
      show _ = some (if acc.n + 1 = 1 then v else Max.max acc.max v)
      by_cases hnil : vals = []
      · rw [if_pos (by rw [h.n, hnil]; rfl), hnil]
        rfl
      · have hpos := length_pos_iff.mpr hnil
        rw [if_neg (by rw [h.n]; omega), h.max hnil]

theorem commitAcc_eq {acc : Acc} {vals : List ℚ} (h : Gathers acc vals) (cells : Circular Cell) :
    commitAcc acc cells = cells.put acc.bucket (cellOf vals) := by
  unfold commitAcc cellOf
  by_cases hnil : vals = []
  · rw [if_pos (by rw [h.n, hnil]; rfl), if_pos hnil, hnil]
    rfl
  · have hpos := length_pos_iff.mpr hnil
    rw [if_neg (by rw [h.n]; omega), if_neg hnil, h.max hnil, h.sum, h.n]

/-! ## A tier -/

/-- A tier that no second was closed of. -/
structure Blank (acc : Acc) (cells : Circular Cell) : Prop where
  active : acc.active = false
  next : acc.nextBucket = none
  cells : ∀ i, cells.at i = .missing

/-- **A tier of `p` seconds** after the second `c` was closed. -/
structure Rolled (p : Nat) (g : Nat → Option ℚ) (c : Nat) (acc : Acc) (cells : Circular Cell) :
    Prop where
  next : acc.nextBucket = some (c / p + 1)
  holds : Holds cells (bucketCell g p) ((c + 1) / p)
  active : acc.active = true ↔ ¬ p ∣ c + 1
  opened : ¬ p ∣ c + 1 → acc.bucket = c / p ∧
    Gathers acc (valuesIn g (c / p * p) (c + 1 - c / p * p))

section Tier

variable {p : Nat} {g : Nat → Option ℚ} {acc : Acc} {cells : Circular Cell}

/-- The number of buckets that are complete. -/
theorem complete_eq (c : Nat) : (c + 1) / p = if p ∣ c + 1 then c / p + 1 else c / p := by
  rw [Nat.succ_div]
  split_ifs <;> rfl

/-- A tier that is ready for the value of the second `s`. -/
structure Ready (p : Nat) (g : Nat → Option ℚ) (s : Nat) (acc : Acc) (cells : Circular Cell) :
    Prop where
  active : acc.active = true
  bucket : acc.bucket = s / p
  gathers : Gathers acc (valuesIn g (s / p * p) (s - s / p * p))
  holds : Holds cells (bucketCell g p) (s / p)

/-- Adding the value of a second, and committing a bucket that it finishes. -/
theorem Ready.finish {s : Nat} (h : Ready p g s acc cells) {finish : Bool}
    (hfinish : finish = true ↔ p ∣ s + 1) :
    Rolled p g s
      (if finish then ({ addValue acc (g s) with
        active := false, nextBucket := some (s / p + 1) } : Acc)
        else { addValue acc (g s) with nextBucket := some (s / p + 1) })
      (if finish then commitAcc (addValue acc (g s)) cells else cells) := by
  have hle := Nat.div_mul_le_self s p
  have hgathers : Gathers (addValue acc (g s)) (valuesIn g (s / p * p) (s + 1 - s / p * p)) := by
    have hlen : s + 1 - s / p * p = (s - s / p * p) + 1 := by omega
    rw [hlen, valuesIn_add, Nat.add_sub_of_le hle, valuesIn_one]
    exact h.gathers.addValue _
  have hbucket : (addValue acc (g s)).bucket = s / p := by
    rw [← h.bucket]
    cases g s <;> rfl
  have hactive : (addValue acc (g s)).active = true := by
    rw [← h.active]
    cases g s <;> rfl
  by_cases hlast : p ∣ s + 1
  · rw [if_pos (hfinish.mpr hlast), if_pos (hfinish.mpr hlast)]
    refine ⟨rfl, ?_, ⟨fun hc => absurd hc Bool.false_ne_true, fun hc => absurd hlast hc⟩,
      fun hc => absurd hlast hc⟩
    -- the bucket is complete
    have hwhole : s + 1 - s / p * p = p := by
      have hnext := complete_eq (p := p) s
      rw [if_pos hlast] at hnext
      have hmul := Nat.div_mul_cancel hlast
      rw [hnext, Nat.add_mul, Nat.one_mul] at hmul
      omega
    rw [complete_eq, if_pos hlast, commitAcc_eq hgathers, hbucket, hwhole]
    exact h.holds.put
  · rw [if_neg (mt hfinish.mp hlast), if_neg (mt hfinish.mp hlast)]
    refine ⟨rfl, ?_, ⟨fun _ => hlast, fun _ => hactive⟩,
      fun _ => ⟨hbucket, hgathers.sum, hgathers.n, hgathers.max⟩⟩
    rw [complete_eq, if_neg hlast]
    exact h.holds

/-- The first second that is closed. -/
theorem Blank.ready {s : Nat} (h : Blank acc cells) (hnone : ∀ i < s, g i = none) :
    Ready p g s (startAcc (retireAcc acc (s / p) cells).1 (s / p))
      (skipBuckets (retireAcc acc (s / p) cells).1 (s / p) (retireAcc acc (s / p) cells).2) := by
  have hretire : retireAcc acc (s / p) cells = (acc, cells) := by
    rw [retireAcc, if_neg (by rw [h.active]; exact fun hc => absurd hc.1 Bool.false_ne_true)]
  have hskip : skipBuckets acc (s / p) cells = cells := by
    rw [skipBuckets, h.next]
  have hle := Nat.div_mul_le_self s p
  rw [hretire, hskip]
  refine ⟨?_, ?_, ?_, ?_⟩
  · rw [startAcc, if_neg (by rw [h.active]; exact Bool.false_ne_true)]
  · rw [startAcc, if_neg (by rw [h.active]; exact Bool.false_ne_true)]
  · rw [valuesIn_none fun i _ hi => hnone i (by omega)]
    exact Gathers.nil acc _ h.active
  · refine .of_const h.cells fun i hi => bucketCell_missing fun j _ hj => hnone j ?_
    have hmul : (i + 1) * p ≤ s / p * p := Nat.mul_le_mul_right _ hi
    rw [Nat.add_mul, Nat.one_mul] at hmul
    omega

/-- The end of a bucket. -/
theorem lt_bucket_end (hp : 0 < p) (c : Nat) : c < c / p * p + p := by
  have hmod := Nat.mod_lt c hp
  have hdiv := Nat.div_add_mod' c p
  omega

/-- The cells of a tier stay when only seconds after the last closed one change. -/
theorem Rolled.congr {c : Nat} {g' : Nat → Option ℚ} (h : Rolled p g c acc cells)
    (hg : ∀ i ≤ c, g i = g' i) : Rolled p g' c acc cells where
  next := h.next
  holds := h.holds.congr fun i hi => bucketCell_congr fun j _ hj => hg j (by
    have hmul : (i + 1) * p ≤ (c + 1) / p * p := Nat.mul_le_mul_right _ hi
    have hle := Nat.div_mul_le_self (c + 1) p
    rw [Nat.add_mul, Nat.one_mul] at hmul
    omega)
  active := h.active
  opened := fun hc => by
    obtain ⟨hbucket, hgathers⟩ := h.opened hc
    refine ⟨hbucket, ?_⟩
    have hsame : valuesIn g (c / p * p) (c + 1 - c / p * p) =
      valuesIn g' (c / p * p) (c + 1 - c / p * p) := by
      refine filterMap_congr fun i hi => ?_
      rw [mem_range'_1] at hi
      exact hg i (by omega)
    exact hsame ▸ hgathers

/-- With no second in between, the values of the open bucket are those of the last closed second. -/
theorem valuesIn_gap {a c s : Nat} (ha : a ≤ c + 1) (hs : c < s)
    (hgap : ∀ i, c < i → i < s → g i = none) : valuesIn g a (s - a) = valuesIn g a (c + 1 - a) := by
  have hlen : s - a = (c + 1 - a) + (s - (c + 1)) := by omega
  rw [hlen, valuesIn_add, valuesIn_none (a := a + (c + 1 - a)) fun i hi hlt =>
    hgap i (by omega) (by omega), append_nil]

/-- The next second that is closed, after any gap. -/
theorem Rolled.ready (hp : 0 < p) {c s : Nat} (h : Rolled p g c acc cells) (hs : c < s)
    (hgap : ∀ i, c < i → i < s → g i = none) :
    Ready p g s (startAcc (retireAcc acc (s / p) cells).1 (s / p))
      (skipBuckets (retireAcc acc (s / p) cells).1 (s / p) (retireAcc acc (s / p) cells).2) := by
  have hend := lt_bucket_end hp c
  have hbegin := Nat.div_mul_le_self s p
  have hmono : c / p ≤ s / p := Nat.div_le_div_right hs.le
  have hempty : ∀ i, c / p + 1 ≤ i → i < s / p → bucketCell g p i = .missing := by
    intro i hi his
    have hlow : (c / p + 1) * p ≤ i * p := Nat.mul_le_mul_right _ hi
    have hhigh : (i + 1) * p ≤ s / p * p := Nat.mul_le_mul_right _ his
    rw [Nat.add_mul, Nat.one_mul] at hlow hhigh
    exact bucketCell_missing fun j hj hjp => hgap j (by omega) (by omega)
  -- a bucket that is not the open one starts with the buckets before it filled
  have hfresh : ∀ {acc' : Acc} {cells' : Circular Cell}, acc'.active = false →
      acc'.nextBucket = some (c / p + 1) → Holds cells' (bucketCell g p) (c / p + 1) →
        c / p < s / p →
      Ready p g s (startAcc acc' (s / p)) (skipBuckets acc' (s / p) cells') := by
    intro acc' cells' hactive hnext hholds hlt
    have hbelow : (c / p + 1) * p ≤ s / p * p := Nat.mul_le_mul_right _ hlt
    rw [Nat.add_mul, Nat.one_mul] at hbelow
    refine ⟨?_, ?_, ?_, ?_⟩
    · rw [startAcc, if_neg (by rw [hactive]; exact Bool.false_ne_true)]
    · rw [startAcc, if_neg (by rw [hactive]; exact Bool.false_ne_true)]
    · rw [valuesIn_none fun i hi his => hgap i (by omega) (by omega)]
      exact Gathers.nil acc' _ hactive
    · rw [skipBuckets, hnext]
      dsimp only
      split_ifs with hskip
      · exact hholds.clear_head hlt hempty
      · have heq : c / p + 1 = s / p := by omega
        exact heq ▸ hholds
  by_cases hdone : p ∣ c + 1
  · -- the last closed second finished its bucket
    have hinactive : acc.active = false := by
      rw [← Bool.not_eq_true, h.active, not_not]
      exact hdone
    have hholds := h.holds
    rw [complete_eq, if_pos hdone] at hholds
    have hlt : c / p < s / p := by
      have hnext := complete_eq (p := p) c
      rw [if_pos hdone] at hnext
      have hle : (c + 1) / p ≤ s / p := Nat.div_le_div_right hs
      omega
    have hretire : retireAcc acc (s / p) cells = (acc, cells) := by
      rw [retireAcc, if_neg (by rw [hinactive]; exact fun hc => absurd hc.1 Bool.false_ne_true)]
    rw [hretire]
    exact hfresh hinactive h.next hholds hlt
  · obtain ⟨hbucket, hgathers⟩ := h.opened hdone
    have hactive : acc.active = true := h.active.mpr hdone
    have hholds := h.holds
    rw [complete_eq, if_neg hdone] at hholds
    have hlow := Nat.div_mul_le_self c p
    by_cases hsame : s / p = c / p
    · -- the same bucket
      have hretire : retireAcc acc (s / p) cells = (acc, cells) := by
        rw [retireAcc, if_neg (by rw [hbucket, hsame]; exact fun hc => hc.2 rfl)]
      have hskip : skipBuckets acc (s / p) cells = cells := by
        rw [skipBuckets, h.next]
        exact if_neg (by omega)
      have hstart : startAcc acc (s / p) = acc := by
        rw [startAcc, if_pos hactive]
      rw [hretire, hskip, hstart]
      refine ⟨hactive, hbucket.trans hsame.symm, ?_, hsame ▸ hholds⟩
      rw [hsame, valuesIn_gap (by omega) hs hgap]
      exact hgathers
    · -- the open bucket is committed
      have hlt : c / p < s / p := by omega
      have hbelow : (c / p + 1) * p ≤ s / p * p := Nat.mul_le_mul_right _ hlt
      rw [Nat.add_mul, Nat.one_mul] at hbelow
      have hretire : retireAcc acc (s / p) cells =
        ({ acc with active := false }, commitAcc acc cells) := by
        rw [retireAcc, if_pos ⟨hactive, by rw [hbucket]; exact fun hc => hsame hc.symm⟩]
      have hcell : cellOf (valuesIn g (c / p * p) (c + 1 - c / p * p)) =
        bucketCell g p (c / p) := by
        have hlen : c / p * p + p - c / p * p = p := by omega
        rw [bucketCell, ← valuesIn_gap (a := c / p * p) (by omega) hend fun i hi his =>
          hgap i hi (by omega), hlen]
      rw [hretire]
      refine hfresh rfl h.next ?_ hlt
      rw [commitAcc_eq hgathers, hbucket, hcell]
      exact hholds.put

theorem updateAcc_eq (acc : Acc) (bucket : Nat) (value : Option ℚ) (cells : Circular Cell)
    (finish : Bool) :
    updateAcc acc bucket value cells finish =
      ((if finish then ({ addValue (startAcc (retireAcc acc bucket cells).1 bucket) value with
            active := false, nextBucket := some (bucket + 1) } : Acc)
          else { addValue (startAcc (retireAcc acc bucket cells).1 bucket) value with
            nextBucket := some (bucket + 1) }),
        if finish then commitAcc (addValue (startAcc (retireAcc acc bucket cells).1 bucket) value)
            (skipBuckets (retireAcc acc bucket cells).1 bucket (retireAcc acc bucket cells).2)
          else skipBuckets (retireAcc acc bucket cells).1 bucket
            (retireAcc acc bucket cells).2) := by
  cases finish <;> rfl

/-- **Closing a second**, the first or a later one. -/
theorem Rolled.update (hp : 0 < p) {s : Nat} {finish : Bool} (hfinish : finish = true ↔ p ∣ s + 1)
    (h : (Blank acc cells ∧ ∀ i < s, g i = none) ∨
      ∃ c, Rolled p g c acc cells ∧ c < s ∧ ∀ i, c < i → i < s → g i = none) :
    Rolled p g s (updateAcc acc (s / p) (g s) cells finish).1
      (updateAcc acc (s / p) (g s) cells finish).2 := by
  rw [updateAcc_eq]
  rcases h with ⟨h, hnone⟩ | ⟨c, h, hs, hgap⟩
  · exact (h.ready hnone).finish hfinish
  · exact (h.ready hp hs hgap).finish hfinish

/-- The bucket that may be read last is the last complete one. -/
theorem Rolled.lastCommitted {c : Nat} (h : Rolled p g c acc cells) :
    Series.tier.lastCommitted acc = checkedPred ((c + 1) / p) := by
  rw [Series.tier.lastCommitted, complete_eq]
  by_cases hdone : p ∣ c + 1
  · rw [if_neg (by rw [h.active]; exact not_not.mpr hdone), if_pos hdone, h.next]
    rfl
  · rw [if_pos (h.active.mpr hdone), if_neg hdone, (h.opened hdone).1]

end Tier

end Thegn.Monitor
