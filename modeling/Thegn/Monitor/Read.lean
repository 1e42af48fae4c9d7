import Thegn.Monitor.Naive

set_option autoImplicit false

/-! # Reading a series

`naiveRead` is what a read is meant to return: a row for each bucket that is asked for, closed, and
still in reach of the ring. The program finds the first row from the last one that is asked for and
not from the last closed one, so it does this only when `WithinRing` (`read_iff`); else it returns
rows of buckets whose cells were written again.
-/

namespace Thegn.Monitor

open Thegn.Circular List Option

/-! ## The naive read -/

/-- The seconds of a bucket. -/
def secs : Tier → Nat
  | .T0 => 1
  | .T1 => 5
  | .T2 => 60

def period (tier : Tier) : Nat := secs tier * t0Ms

/-- The seconds whose values a tier has. The first tier shows the open second. -/
def closedSeconds (log : Pushes) : Tier → Nat
  | .T0 => (openSecond log).elim 0 (· + 1)
  | .T1 => (lastClosed log).elim 0 (· + 1)
  | .T2 => (lastClosed log).elim 0 (· + 1)

/-- The number of buckets that are closed, counted from time zero. -/
def closedBuckets (log : Pushes) (tier : Tier) : Nat := closedSeconds log tier / secs tier

/-- The length of the ring of a tier. -/
def ringLen : Class → Tier → Option Nat
  | .C, .T0 => some cLen
  | _, .T0 => some t0Len
  | .C, .T1 => none
  | _, .T1 => some t1Len
  | .A, .T2 => some t2Len
  | _, .T2 => none

/-- The first bucket that is asked for and may have a value. -/
def firstBucket (log : Pushes) (tier : Tier) (fromMs : Nat) : Nat :=
  max (fromMs / period tier) (log.head?.elim 0 Prod.fst / period tier)

def naiveRow (log : Pushes) (tier : Tier) (bucket : Nat) : SeriesBufRow where
  atMs := bucket * period tier
  mean := (bucketCell (latest log) (secs tier) bucket).mean
  max := (bucketCell (latest log) (secs tier) bucket).max

def naiveRead (log : Pushes) (len : Nat) (tier : Tier) (fromMs toMs : Nat) : List SeriesBufRow :=
  if toMs < fromMs then []
  else
    let first := max (firstBucket log tier fromMs) (closedBuckets log tier - len)
    (List.range' first (min (toMs / period tier + 1) (closedBuckets log tier) - first)).map
      (naiveRow log tier)

/-- The range is empty, reaches the last closed bucket, or starts within the ring. -/
def WithinRing (log : Pushes) (len : Nat) (tier : Tier) (fromMs toMs : Nat) : Prop :=
  toMs < fromMs ∨ toMs / period tier < firstBucket log tier fromMs ∨
    closedBuckets log tier ≤ toMs / period tier + 1 ∨
    closedBuckets log tier ≤ firstBucket log tier fromMs + len

/-! ## The tiers of a series -/

section Read

variable {log : Pushes} {s : Series} {len : Nat} {tier : Tier} {fromMs toMs : Nat}

theorem bucketCell_one (g : Nat → Option ℚ) (i : Nat) : bucketCell g 1 i = ⟨g i, g i⟩ := by
  rw [bucketCell, Nat.mul_one, valuesIn_one, cellOf]
  cases g i with
  | none => rfl
  | some v =>
    rw [toList_some, if_neg (cons_ne_nil _ _), sum_singleton, length_singleton, Nat.cast_one,
      div_one]
    rfl

/-- A tier of a history: what may be read last, and which cells are those of the history. -/
theorem TierTracks.reads {p : Nat} {acc : Acc} {cells : Circular Cell}
    (h : TierTracks p log acc cells) :
    Series.tier.lastCommitted acc = checkedPred ((lastClosed log).elim 0 (· + 1) / p) ∧
      Holds cells (bucketCell (latest log) p) ((lastClosed log).elim 0 (· + 1) / p) := by
  rw [TierTracks] at h
  cases hlast : lastClosed log with
  | none =>
    rw [hlast] at h
    rw [elim_none, Nat.zero_div]
    refine ⟨?_, fun i hi => absurd hi (Nat.not_lt_zero i)⟩
    rw [Series.tier.lastCommitted, h.active, h.next]
    rfl
  | some c =>
    rw [hlast] at h
    exact ⟨h.lastCommitted, h.holds⟩

theorem Tracks.tier_spec (h : Tracks log s) (hlen : ringLen s.cls tier = some len) :
    ∃ cells, s.tier tier = some (period tier, len, cells, checkedPred (closedBuckets log tier)) ∧
      ∀ i < closedBuckets log tier, closedBuckets log tier ≤ i + len →
        cells i = bucketCell (latest log) (secs tier) i := by
  have hshape := h.shape
  cases tier with
  | T0 =>
    have hsize : s.t0.size = len := by
      rw [hshape.t0]
      cases hc : s.cls <;> rw [hc] at hlen <;> exact Option.some.inj hlen
    refine ⟨fun bucket => ⟨s.t0.at bucket, s.t0.at bucket⟩, ?_, ?_⟩
    · rw [Series.tier, hsize, h.opened, closedBuckets, closedSeconds, secs, Nat.div_one]
      cases openSecond log <;> rfl
    · intro i hi hreach
      rw [closedBuckets, closedSeconds, secs, Nat.div_one] at hi hreach
      rw [secs, bucketCell_one]
      cases ho : openSecond log with
      | none =>
        rw [ho] at hi
        exact absurd hi (Nat.not_lt_zero i)
      | some o =>
        rw [ho] at hi hreach
        dsimp only
        rw [h.t0 o ho i hi (by rw [hsize]; exact hreach)]
  | T1 =>
    have hmap : s.t1.map Circular.size = some len := by
      rw [hshape.t1]
      cases hc : s.cls <;> rw [hc] at hlen
      · exact hlen
      · exact hlen
      · cases hlen
    obtain ⟨cells, hcells, hsize⟩ := map_eq_some_iff.mp hmap
    obtain ⟨hlast, hholds⟩ := (h.t1 cells hcells).reads
    refine ⟨cells.at, ?_, fun i hi hreach => hholds i hi (by rw [hsize]; exact hreach)⟩
    rw [Series.tier, hcells, map_some, hsize, hlast]
    rfl
  | T2 =>
    have hmap : s.t2.map Circular.size = some len := by
      rw [hshape.t2]
      cases hc : s.cls <;> rw [hc] at hlen
      · exact hlen
      · cases hlen
      · cases hlen
    obtain ⟨cells, hcells, hsize⟩ := map_eq_some_iff.mp hmap
    obtain ⟨hlast, hholds⟩ := (h.t2 cells hcells).reads
    refine ⟨cells.at, ?_, fun i hi hreach => hholds i hi (by rw [hsize]; exact hreach)⟩
    rw [Series.tier, hcells, map_some, hsize, hlast]
    rfl

theorem ringLen_pos {cls : Class} (h : ringLen cls tier = some len) : 0 < len := by
  cases cls <;> cases tier <;> simp only [ringLen, Option.some.injEq, reduceCtorEq]
    at h <;> subst h <;> decide

theorem Tracks.openSecond_none (h : Tracks log s) (hnone : s.openSecond = none) : log = [] := by
  rw [h.opened, openSecond, map_eq_none_iff, List.getLast?_eq_none_iff] at hnone
  exact hnone

theorem Tracks.first_eq (h : Tracks log s) (hopen : s.openSecond ≠ none) :
    s.firstPushMs = log.head?.elim 0 Prod.fst := by
  cases hhead : log.head? with
  | none =>
    rw [List.head?_eq_none_iff] at hhead
    rw [h.opened, hhead] at hopen
    exact absurd rfl hopen
  | some p => exact h.first p hhead

/-- The rows of a tier, from the last that is asked for. -/
theorem Tracks.read_eq (h : Tracks log s) {st : SeriesStore} {id : SeriesId}
    (hget : st.get id = some s) (hlen : ringLen s.cls tier = some len) (out : List SeriesBufRow) :
    ∃ cells : Nat → Cell, (∀ i < closedBuckets log tier, closedBuckets log tier ≤ i + len →
        cells i = bucketCell (latest log) (secs tier) i) ∧
      st.read id tier fromMs toMs out = (true,
        if toMs < fromMs then []
        else
          let last := min (toMs / period tier + 1) (closedBuckets log tier)
          let first := max (last - len) (firstBucket log tier fromMs)
          (List.range' first (last - first)).map fun bucket =>
            { atMs := bucket * period tier, mean := (cells bucket).mean,
              max := (cells bucket).max }) := by
  obtain ⟨cells, htier, hcells⟩ := h.tier_spec hlen
  have hpos := ringLen_pos hlen
  refine ⟨cells, hcells, ?_⟩
  rw [SeriesStore.read, hget]
  dsimp only
  rw [htier]
  dsimp only
  by_cases hempty : toMs < fromMs
  · rw [if_pos (.inl hempty), if_pos hempty]
  · rw [if_neg hempty]
    cases hopen : s.openSecond with
    | none =>
      have hnil := h.openSecond_none hopen
      have hzero : closedBuckets log tier = 0 := by
        rw [hnil]
        cases tier <;> rfl
      simp only [or_true, if_true, hzero, Nat.min_zero, Nat.zero_sub, List.range'_zero, map_nil]
    | some o =>
      rw [if_neg (by rintro (hc | hc); exacts [hempty hc, nomatch hc]),
        h.first_eq (by rw [hopen]; exact nofun)]
      cases hclosed : closedBuckets log tier with
      | zero =>
        simp only [checkedPred, Nat.min_zero, Nat.zero_sub, List.range'_zero, map_nil]
      | succ n =>
        dsimp only [checkedPred]
        have hlast : min (toMs / period tier + 1) (n + 1) = min (toMs / period tier) n + 1 := by
          omega
        have hstart : min (toMs / period tier) n - (len - 1) =
          min (toMs / period tier) n + 1 - len := by omega
        rw [hlast, hstart]
        unfold firstBucket
        split_ifs with hnone
        · have hzero : min (toMs / period tier) n + 1 - max (min (toMs / period tier) n + 1 - len)
              (max (fromMs / period tier) (log.head?.elim 0 Prod.fst / period tier)) = 0 := by omega
          rw [hzero]
          rfl
        · rfl

/-- **A read is the naive one exactly when its range is within the ring.** -/
theorem Tracks.read_iff (h : Tracks log s) {st : SeriesStore} {id : SeriesId}
    (hget : st.get id = some s) (hlen : ringLen s.cls tier = some len) (out : List SeriesBufRow) :
    st.read id tier fromMs toMs out = (true, naiveRead log len tier fromMs toMs) ↔
      WithinRing log len tier fromMs toMs := by
  obtain ⟨cells, hcells, hread⟩ := @Tracks.read_eq log s len tier fromMs toMs h st id hget hlen out
  rw [hread, naiveRead, Prod.mk.injEq]
  have hpos := ringLen_pos hlen
  unfold WithinRing
  split_ifs with hempty
  · exact ⟨fun _ => .inl hempty, fun _ => ⟨rfl, rfl⟩⟩
  · dsimp only
    generalize hn : closedBuckets log tier = n at *
    generalize hf : firstBucket log tier fromMs = first
    generalize ht : toMs / period tier = t
    constructor
    · rintro ⟨-, hrows⟩
      have hcount := congrArg List.length hrows
      rw [length_map, length_map, length_range', length_range'] at hcount
      omega
    · intro hwithin
      refine ⟨rfl, ?_⟩
      have hsame : List.range' (max (min (t + 1) n - len) first)
        (min (t + 1) n - max (min (t + 1) n - len) first) =
          List.range' (max first (n - len)) (min (t + 1) n - max first (n - len)) := by
        by_cases hnone : min (t + 1) n ≤ first
        · rw [show min (t + 1) n - max (min (t + 1) n - len) first = 0 by omega,
            show min (t + 1) n - max first (n - len) = 0 by omega]
          rfl
        · rw [show max (min (t + 1) n - len) first = max first (n - len) by omega]
      rw [hsame]
      refine map_congr_left fun i hi => ?_
      rw [mem_range'_1] at hi
      rw [hcells i (by omega) (by omega)]
      rfl

end Read

end Thegn.Monitor
