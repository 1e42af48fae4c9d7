import Thegn.Scan.Lane

set_option autoImplicit false

/-! # The capacity model

`saturation` assumes four rounds in a TTL. For a lane that keeps this assumption the verdict is
exact (`capacity_exact`): a cold lane that can idle does so within four rounds, and one that cannot
never does. A lane that starts with stamps is not idle from the fifth round on when it is saturated.
-/

namespace Thegn.Scan

theorem canIdle_iff {rows budget : Nat} (hbudget : 0 < budget) (hrows : rows ≤ usizeMax) :
    (saturation rows budget).canIdle = true ↔ rows ≤ 3 * budget := by
  unfold saturation
  rw [if_neg (by omega)]
  dsimp only [pumpsPerTtl]
  split_ifs with h
  · simp only [Saturation.canIdle, true_iff]
    omega
  · simp only [Saturation.canIdle, Bool.false_eq_true, false_iff]
    omega

/-- Rounds every `p` seconds, four of them in a TTL. -/
def quarterLane (targets : List ScanTarget) (start : Int) (p budget : Nat)
    (hdistinct : (targets.map ScanTarget.path).Nodup) (hstart : 0 < start) (hp : 1 ≤ p)
    (hbudget : 0 < budget) : Lane where
  targets := targets
  clock r := start + r * p
  ttl := 4 * p
  budget := budget
  distinct := hdistinct
  positive := by simpa using hstart
  monotone := by
    intro r s hrs
    have hmul : (r * p : Int) ≤ s * p := by
      apply mul_le_mul_of_nonneg_right _ (by omega)
      exact_mod_cast hrs
    show start + (r * p : Int) ≤ start + s * p
    omega
  ttl_pos := by omega
  budget_pos := hbudget

section

variable {targets : List ScanTarget} {start : Int} {p budget : Nat}
  {hdistinct : (targets.map ScanTarget.path).Nodup} {hstart : 0 < start} {hp : 1 ≤ p}
  {hbudget : 0 < budget}

/-- A stamp is fresh in the three rounds after its own. -/
theorem quarterLane_fresh {j r : Nat} (hjr : j ≤ r) :
    (quarterLane targets start p budget hdistinct hstart hp hbudget).Fresh j r ↔ r < j + 4 := by
  obtain ⟨d, rfl⟩ := Nat.exists_eq_add_of_le hjr
  have hexp : ((j + d : Nat) * p : Int) = j * p + d * p := by push_cast; ring
  show start + ((j + d : Nat) * p : Int) < start + j * p + (4 * p : Nat) ↔ _
  rw [hexp]
  constructor
  · intro h
    by_contra hge
    have hmul : (4 * p : Int) ≤ d * p := by
      apply mul_le_mul_of_nonneg_right _ (by omega)
      omega
    push_cast at h
    omega
  · intro h
    have hmul : (d * p : Int) ≤ 3 * p := by
      apply mul_le_mul_of_nonneg_right _ (by omega)
      omega
    push_cast
    omega

/-- After four rounds the stamps from before the start have expired. -/
theorem quarterLane_not_held (hpast : ∀ t ∈ targets, ∀ at_ ∈ t.measuredAt, at_ ≤ start) {r : Nat}
    (hr : 4 ≤ r) (x : Text) :
    ¬ (quarterLane targets start p budget hdistinct hstart hp hbudget).Held r x := by
  rintro ⟨-, t, ht, -, hfresh⟩
  cases hat : t.measuredAt with
  | none =>
    rw [hat] at hfresh
    simp [isFresh] at hfresh
  | some at_ =>
    have hle := hpast t ht at_ hat
    have hmul : (4 * p : Int) ≤ r * p := by
      apply mul_le_mul_of_nonneg_right _ (by omega)
      exact_mod_cast hr
    have hpos : 0 < at_ := by
      by_contra hneg
      rw [hat] at hfresh
      simp [isFresh, hneg] at hfresh
    rw [hat] at hfresh
    change isFresh (start + r * p) (some at_) (4 * p) = true at hfresh
    rw [Lane.isFresh_iff hpos (by omega) (by omega)] at hfresh
    push_cast at hfresh
    omega

end

/-- **The capacity model is exact** when there are four rounds in a TTL. From a cold start, a lane
that can idle has a round with nothing due among its first four, and a lane that cannot has none.
From any other start, a lane that cannot idle has none from the fifth round on. -/
theorem capacity_exact (targets : List ScanTarget) (start : Int) (p budget : Nat)
    (hdistinct : (targets.map ScanTarget.path).Nodup) (hstart : 0 < start) (hp : 1 ≤ p)
    (hbudget : 0 < budget) (hrows : targets.length ≤ usizeMax)
    (hpast : ∀ t ∈ targets, ∀ at_ ∈ t.measuredAt, at_ ≤ start) :
    ((∀ t ∈ targets, t.measuredAt = none) → (saturation targets.length budget).canIdle = true →
        ∃ r < 4, (quarterLane targets start p budget hdistinct hstart hp hbudget).Idle r)
      ∧ ((∀ t ∈ targets, t.measuredAt = none) → (saturation targets.length budget).canIdle = false →
        ∀ r, ¬ (quarterLane targets start p budget hdistinct hstart hp hbudget).Idle r)
      ∧ ((saturation targets.length budget).canIdle = false →
        ∀ r, 4 ≤ r →
        ¬ (quarterLane targets start p budget hdistinct hstart hp hbudget).Idle r) := by
  have hwindow : ∀ r, ∀ j < r,
      (quarterLane targets start p budget hdistinct hstart hp hbudget).Fresh j r → r ≤ j + 3 := by
    intro r j hj hf
    rw [quarterLane_fresh hj.le] at hf
    omega
  refine ⟨?_, ?_, ?_⟩
  · intro hcold hidle
    rw [canIdle_iff hbudget hrows] at hidle
    refine ⟨0 + 3, by omega, ?_⟩
    apply Lane.idle_of_first (l := quarterLane targets start p budget hdistinct hstart hp hbudget)
      hcold hidle
    · rw [quarterLane_fresh (by omega)]
      omega
    · omega
  · intro hcold hidle r
    rw [← Bool.not_eq_true, canIdle_iff hbudget hrows] at hidle
    have hl : (quarterLane targets start p budget hdistinct hstart hp hbudget).Cold := hcold
    apply Lane.not_idle _ (hl.not_held r) (hwindow r)
    show 3 * budget < targets.length
    omega
  · intro hidle r hr
    rw [← Bool.not_eq_true, canIdle_iff hbudget hrows] at hidle
    apply Lane.not_idle _ (quarterLane_not_held hpast hr) (hwindow r)
    show 3 * budget < targets.length
    omega

/-- Two cold rows and a budget of one: idle within four rounds. -/
theorem twoRows_idle :
    ∃ r < 4, (quarterLane [⟨['a'], none, false⟩, ⟨['b'], none, true⟩] 1000 25 1 (by decide)
      (by decide) (by decide) (by decide)).Idle r :=
  (capacity_exact [⟨['a'], none, false⟩, ⟨['b'], none, true⟩] 1000 25 1 (by decide) (by decide)
    (by decide) (by decide) (by decide) (by simp)).1 (by simp) (by decide)

end Thegn.Scan

/-! # The cadence the pump really uses

`pumpSlots` divides the TTL by four with truncation, applies a floor and a cap, and rounds up to
whole slots, so there need not be four rounds in a TTL. `pump_idles_iff` says when a cold lane gets
to a round with nothing due: when the rounds it takes to sweep the registry come in less than the
TTL. The times of the rounds are whole seconds, so a sweep may seem to take longer by one second,
depending on the millisecond it begins at; then a later sweep gets there.
-/

namespace Thegn.Scan

/-- The rounds of a full sweep. -/
def sweepRounds (rows budget : Nat) : Nat := (rows + budget - 1) / budget

/-- Milliseconds between rounds: the least positive multiple of the slot that is not below a quarter
of the TTL in whole seconds, the floor, and with the cap of 31 days. -/
def cadenceMs (ttlSecs floorSecs slotMs : Nat) : Nat :=
  max 1 ((1000 * min (max (ttlSecs / 4) floorSecs) (31 * 24 * 60 * 60) + slotMs - 1) / slotMs) *
    slotMs

theorem pumpSlots_mul (ttlSecs floorSecs : Nat) {slotMs : Nat} (hslot : 1 ≤ slotMs) :
    pumpSlots ttlSecs floorSecs slotMs * slotMs = cadenceMs ttlSecs floorSecs slotMs := by
  unfold pumpSlots cadenceSlots cadenceMillisSlots cadenceMs maxCadenceSecs usizeMax
  dsimp only
  generalize hmillis : 1000 * min (max (ttlSecs / 4) floorSecs) (31 * 24 * 60 * 60) = millis
  have hcap : millis ≤ 31 * 24 * 60 * 60 * 1000 := by omega
  have hslots : (millis + slotMs - 1) / slotMs ≤ millis := by
    rw [Nat.div_le_iff_le_mul (by omega)]
    have hle : millis ≤ millis * slotMs := Nat.le_mul_of_pos_right _ hslot
    omega
  rw [Nat.mul_comm (min (max (ttlSecs / 4) floorSecs) (31 * 24 * 60 * 60)) 1000, hmillis,
    Nat.max_eq_left hslot, Nat.min_eq_left hcap, Nat.max_comm, Nat.min_eq_left (by omega)]

/-- Rounds every `pumpSlots` slots, from the millisecond `startMs` of the epoch on. -/
def pumpLane (targets : List ScanTarget) (startMs ttlSecs floorSecs slotMs budget : Nat)
    (hdistinct : (targets.map ScanTarget.path).Nodup) (hstart : 1000 ≤ startMs) (httl : 1 ≤ ttlSecs)
    (hbudget : 0 < budget) : Lane where
  targets := targets
  clock r := ((startMs + r * (pumpSlots ttlSecs floorSecs slotMs * slotMs)) / 1000 : Nat)
  ttl := ttlSecs
  budget := budget
  distinct := hdistinct
  positive := by
    have hle : 1 ≤ (startMs + 0 * (pumpSlots ttlSecs floorSecs slotMs * slotMs)) / 1000 := by omega
    exact_mod_cast hle
  monotone := by
    intro r s hrs
    have hmul := Nat.mul_le_mul_right (pumpSlots ttlSecs floorSecs slotMs * slotMs) hrs
    have hle : (startMs + r * (pumpSlots ttlSecs floorSecs slotMs * slotMs)) / 1000
        ≤ (startMs + s * (pumpSlots ttlSecs floorSecs slotMs * slotMs)) / 1000 := by
      apply Nat.div_le_div_right
      omega
    exact Int.ofNat_le.mpr hle
  ttl_pos := by omega
  budget_pos := hbudget

section

variable {targets : List ScanTarget} {startMs ttlSecs floorSecs slotMs budget : Nat}
  {hdistinct : (targets.map ScanTarget.path).Nodup} {hstart : 1000 ≤ startMs} {httl : 1 ≤ ttlSecs}
  {hbudget : 0 < budget}

theorem pumpLane_fresh (hslot : 1 ≤ slotMs) {j r : Nat} :
    (pumpLane targets startMs ttlSecs floorSecs slotMs budget hdistinct hstart httl hbudget).Fresh j
      r
      ↔ (startMs + r * cadenceMs ttlSecs floorSecs slotMs) / 1000
          < (startMs + j * cadenceMs ttlSecs floorSecs slotMs) / 1000 + ttlSecs := by
  rw [← pumpSlots_mul ttlSecs floorSecs hslot, Lane.Fresh]
  dsimp only [pumpLane]
  omega

/-- When a sweep takes less than the TTL, some sweep does so in whole seconds. Otherwise every sweep
would gain on the clock, and a thousand of them a second. -/
theorem exists_fresh (start : Nat) {c m ttl : Nat} (h : m * c < 1000 * ttl) :
    ∃ r, (start + (r + m) * c) / 1000 < (start + r * c) / 1000 + ttl := by
  by_contra hnone
  push Not at hnone
  have hgain : ∀ k, start / 1000 + k * ttl ≤ (start + (k * m) * c) / 1000 := by
    intro k
    induction k with
    | zero => simp
    | succ k ih =>
      have hstep := hnone (k * m)
      rw [← Nat.succ_mul] at hstep
      calc start / 1000 + (k + 1) * ttl = start / 1000 + k * ttl + ttl := by ring
        _ ≤ (start + (k * m) * c) / 1000 + ttl := by omega
        _ ≤ (start + ((k + 1) * m) * c) / 1000 := hstep
  have hlast := hgain 1000
  have htotal : (1000 * m) * c = 1000 * (m * c) := by ring
  rw [htotal] at hlast
  omega

theorem length_le_sweepRounds (n : Nat) {budget : Nat} (hbudget : 0 < budget) :
    n ≤ sweepRounds n budget * budget := by
  unfold sweepRounds
  have hdiv := Nat.div_add_mod (n + budget - 1) budget
  have hmod := Nat.mod_lt (n + budget - 1) hbudget
  rw [Nat.mul_comm] at hdiv
  omega

theorem sweepRounds_pred_mul_lt {n budget : Nat} (hbudget : 0 < budget)
    (hn : 0 < sweepRounds n budget) : (sweepRounds n budget - 1) * budget < n := by
  have hmul : sweepRounds n budget * budget ≤ n + budget - 1 := Nat.div_mul_le_self _ _
  have hpos : budget ≤ sweepRounds n budget * budget := Nat.le_mul_of_pos_left _ hn
  rw [Nat.sub_mul]
  omega

/-- A sweep that takes the TTL or longer: the first rows it measured are due again when it is
over. -/
theorem pump_never_idles (hslot : 1 ≤ slotMs) (hcold : ∀ t ∈ targets, t.measuredAt = none)
    (hslow : 1000 * ttlSecs
      ≤ sweepRounds targets.length budget * cadenceMs ttlSecs floorSecs slotMs) (r : Nat) :
    ¬ (pumpLane targets startMs ttlSecs floorSecs slotMs budget hdistinct hstart httl hbudget).Idle
      r := by
  have hl : (pumpLane targets startMs ttlSecs floorSecs slotMs budget hdistinct hstart httl
      hbudget).Cold := hcold
  have hpos : 0 < sweepRounds targets.length budget := by
    by_contra hzero
    rw [Nat.eq_zero_of_not_pos hzero, Nat.zero_mul] at hslow
    omega
  have hwindow : ∀ j < r, (pumpLane targets startMs ttlSecs floorSecs slotMs budget hdistinct hstart
      httl hbudget).Fresh j r → r ≤ j + (sweepRounds targets.length budget - 1) := by
    intro j hj hfresh
    rw [pumpLane_fresh hslot] at hfresh
    by_contra hfar
    -- a sweep or more after round `j`, its stamps are a TTL old
    have hmul : (j + sweepRounds targets.length budget) * cadenceMs ttlSecs floorSecs slotMs
        ≤ r * cadenceMs ttlSecs floorSecs slotMs := by
      apply Nat.mul_le_mul_right
      omega
    rw [Nat.add_mul] at hmul
    omega
  exact Lane.not_idle _ (hl.not_held r) hwindow (sweepRounds_pred_mul_lt hbudget hpos)

/-- A sweep that takes less than the TTL: the first one that does so in whole seconds ends with
nothing due. -/
theorem pump_idles (hslot : 1 ≤ slotMs) (hcold : ∀ t ∈ targets, t.measuredAt = none)
    (hfast : sweepRounds targets.length budget * cadenceMs ttlSecs floorSecs slotMs <
      1000 * ttlSecs) :
    ∃ r, (pumpLane targets startMs ttlSecs floorSecs slotMs budget hdistinct hstart httl
      hbudget).Idle r := by
  classical
  have hl : (pumpLane targets startMs ttlSecs floorSecs slotMs budget hdistinct hstart httl
      hbudget).Cold := hcold
  have hexists : ∃ r,
    (pumpLane targets startMs ttlSecs floorSecs slotMs budget hdistinct hstart httl
      hbudget).Fresh r (r + sweepRounds targets.length budget) := by
    obtain ⟨r, hr⟩ := exists_fresh startMs hfast
    exact ⟨r, (pumpLane_fresh hslot).mpr hr⟩
  refine ⟨Nat.find hexists + sweepRounds targets.length budget, ?_⟩
  apply Lane.idle_of_first hl (length_le_sweepRounds _ hbudget) (Nat.find_spec hexists)
  intro j hj
  exact Nat.find_min hexists hj

end

/-- **When the pump gets to a round with nothing due**: a cold lane does exactly when a sweep of its
rows takes less than the TTL at the cadence it runs with. -/
theorem pump_idles_iff (targets : List ScanTarget) (startMs ttlSecs floorSecs slotMs budget : Nat)
    (hdistinct : (targets.map ScanTarget.path).Nodup) (hstart : 1000 ≤ startMs) (httl : 1 ≤ ttlSecs)
    (hslot : 1 ≤ slotMs) (hbudget : 0 < budget) (hcold : ∀ t ∈ targets, t.measuredAt = none) :
    (∃ r, (pumpLane targets startMs ttlSecs floorSecs slotMs budget hdistinct hstart httl
      hbudget).Idle r)
      ↔ sweepRounds targets.length budget * cadenceMs ttlSecs floorSecs slotMs <
        1000 * ttlSecs := by
  constructor
  · rintro ⟨r, hidle⟩
    by_contra hslow
    exact pump_never_idles hslot hcold (by omega) r hidle
  · exact pump_idles hslot hcold

/-- Cold rows with numbers for paths. -/
def coldRows (n : Nat) : List ScanTarget :=
  (List.range n).map fun i => { path := Text.ofNat i, measuredAt := none, active := false }

theorem coldRows_cold (n : Nat) : ∀ t ∈ coldRows n, t.measuredAt = none := by
  intro t ht
  obtain ⟨i, -, rfl⟩ := List.mem_map.mp ht
  rfl

/-- A TTL of 900 s with a floor of 60 s: six rows are swept in three rounds of 225 s. -/
theorem sixRows_idle :
    ∃ r, (pumpLane (coldRows 6) 1000000 900 60 500 2 (by decide) (by decide) (by decide)
      (by decide)).Idle r :=
  (pump_idles_iff (coldRows 6) 1000000 900 60 500 2 (by decide) (by decide) (by decide)
    (by decide) (by decide) (coldRows_cold 6)).mpr (by decide)

/-- A TTL of 45 s with a floor of 15 s: twelve rows take three rounds of 15 s, which is the TTL. -/
theorem twelveRows_never_idle :
    (saturation 12 4).canIdle = true
      ∧ ∀ r, ¬ (pumpLane (coldRows 12) 1000000 45 15 500 4 (by decide) (by decide) (by decide)
          (by decide)).Idle r :=
  ⟨by decide, fun r => pump_never_idles (by decide) (coldRows_cold 12) (by decide) r⟩

end Thegn.Scan
