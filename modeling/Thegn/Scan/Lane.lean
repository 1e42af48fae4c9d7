import Thegn.Lib.Utf8
import Thegn.Lib.Sweep

set_option autoImplicit false

/-! # The schedule of the measurement scans

Which rows of a registry are measured in a round (`plan`), how often rounds come (`pumpSlots`), and
the verdict whether a lane can keep up (`saturation`): `thegn-core/src/scan_sched.rs` and the parts
of `time_policy.rs` it uses. Times are seconds since the epoch.
-/

namespace Thegn.Scan

open Text

/-- The largest `usize` (and `u64`). -/
def usizeMax : Nat := 2 ^ 64 - 1

/-! ## Time policy -/

/-- 31 days. -/
def maxCadenceSecs : Nat := 31 * 24 * 60 * 60

/-- Slots of `slot_ms` for a duration, rounded up and at least one. -/
def cadenceMillisSlots (millis slotMs : Nat) : Nat :=
  let millis := min millis (maxCadenceSecs * 1000)
  let slot := max slotMs 1
  let slots := (millis + slot - 1) / slot
  min (max slots 1) usizeMax

def cadenceSlots (seconds floorSecs slotMs : Nat) : Nat :=
  cadenceMillisSlots (min (max seconds floorSecs) maxCadenceSecs * 1000) slotMs

/-- The age of a stamp; a stamp that is not positive or in the future has none. -/
def ageSeconds (now createdAt : Int) : Option Nat :=
  if createdAt ≤ 0 ∨ now < createdAt then none else some (now - createdAt).toNat

/-- A stamp in the future counts as fresh, one that is absent or not positive as stale. -/
def isFresh (now : Int) (fetchedAt : Option Int) (ttlSecs : Nat) : Bool :=
  if ttlSecs = 0 then false
  else fetchedAt.any fun at_ =>
    decide (0 < at_) && (decide (now < at_) ||
      (ageSeconds now at_).any (fun age => decide (age < ttlSecs)))

/-! ## Planning a round -/

/-- A path to be measured, when it was last measured, and whether it is on screen. -/
structure ScanTarget where
  path : Text
  measuredAt : Option Int
  active : Bool
  deriving DecidableEq

inductive ScanPriority
  | activeCold
  | cold
  | activeStale
  | stale
  deriving DecidableEq

/-- The position in the derived order. -/
def ScanPriority.rank : ScanPriority → Nat
  | .activeCold => 0
  | .cold => 1
  | .activeStale => 2
  | .stale => 3

/-- The class of a target, or `none` when it is fresh. -/
def priority (t : ScanTarget) (now : Int) (ttlSecs : Nat) : Option ScanPriority :=
  match t.measuredAt with
  | none => some (if t.active then .activeCold else .cold)
  | some at_ =>
    if isFresh now (some at_) ttlSecs then none
    else some (if t.active then .activeStale else .stale)

/-- What a due target is sorted by. -/
structure DueRow where
  priority : ScanPriority
  measuredAt : Int
  path : Text

/-- By class, then the oldest first, then by path; paths are compared byte by byte. -/
def DueRow.cmp (a b : DueRow) : Ordering :=
  ((compare a.priority.rank b.priority.rank).then (compare a.measuredAt b.measuredAt)).then
    (compare (utf8 a.path) (utf8 b.path))

def dueRow (now : Int) (ttlSecs : Nat) (t : ScanTarget) : Option DueRow :=
  (priority t now ttlSecs).map fun p =>
    { priority := p, measuredAt := t.measuredAt.getD (-(2 ^ 63)), path := t.path }

/-- The work of a round, in order; a budget of 0 is unlimited. -/
def plan (targets : List ScanTarget) (now : Int) (ttlSecs budget : Nat) : List Text :=
  let due := (targets.filterMap (dueRow now ttlSecs)).mergeSort (fun a b => a.cmp b != .gt)
  let due := if 0 < budget then due.take budget else due
  due.map DueRow.path

/-! ## Capacity and cadence -/

def pumpsPerTtl : Nat := 4

inductive Saturation
  | sustainable (spareRows : Nat)
  | saturated (rows capacity : Nat)
  deriving DecidableEq

def Saturation.canIdle : Saturation → Bool
  | .sustainable _ => true
  | .saturated _ _ => false

def saturation (rows budget : Nat) : Saturation :=
  if budget = 0 then .sustainable usizeMax
  else
    let capacity := min (budget * (pumpsPerTtl - 1)) usizeMax
    if rows ≤ capacity then .sustainable (capacity - rows) else .saturated rows capacity

/-- Slots between rounds: a quarter of the TTL, not below the floor. -/
def pumpSlots (ttlSecs floorSecs slotMs : Nat) : Nat := cadenceSlots (ttlSecs / 4) floorSecs slotMs

end Thegn.Scan

/-! # Running a lane

A lane repeats: plan a round, measure the planned rows and stamp them with the time of the round.
The times of the rounds are a clock that does not go back. A lane is a sweep of rows that expire
(`Lane.sweep`), so the counting arguments about sweeps apply to it.
-/

namespace Thegn.Scan

open Text List

/-- Stamp the measured paths. -/
def stamp (paths : List Text) (now : Int) (targets : List ScanTarget) : List ScanTarget :=
  targets.map fun t => if t.path ∈ paths then { t with measuredAt := some now } else t

/-- A lane: its registry, the time of each round, the TTL and the budget. -/
structure Lane where
  targets : List ScanTarget
  clock : Nat → Int
  ttl : Nat
  budget : Nat
  distinct : (targets.map ScanTarget.path).Nodup
  positive : 0 < clock 0
  monotone : Monotone clock
  ttl_pos : 0 < ttl
  budget_pos : 0 < budget

namespace Lane

variable (l : Lane)

/-- The registry before round `r`. -/
def registry : Nat → List ScanTarget
  | 0 => l.targets
  | r + 1 => stamp (plan (registry r) (l.clock r) l.ttl l.budget) (l.clock r) (registry r)

/-- The paths measured in round `r`. -/
def measured (r : Nat) : List Text := plan (l.registry r) (l.clock r) l.ttl l.budget

/-- Nothing is due in round `r`. -/
def Idle (r : Nat) : Prop := l.measured r = []

end Lane

/-! ## Planned rows -/

/-- The due targets. -/
def dueTargets (targets : List ScanTarget) (now : Int) (ttl : Nat) : List ScanTarget :=
  targets.filter fun t => (priority t now ttl).isSome

theorem map_path_due (targets : List ScanTarget) (now : Int) (ttl : Nat) :
    (targets.filterMap (dueRow now ttl)).map DueRow.path
      = (dueTargets targets now ttl).map ScanTarget.path := by
  induction targets with
  | nil => rfl
  | cons t targets ih =>
    unfold dueTargets at ih ⊢
    cases hp : priority t now ttl with
    | none =>
      have hd : dueRow now ttl t = none := by simp [dueRow, hp]
      rw [filterMap_cons_none hd, filter_cons_of_neg (by simp [hp])]
      exact ih
    | some p =>
      have hd : dueRow now ttl t
          = some ⟨p, t.measuredAt.getD (-(2 ^ 63)), t.path⟩ := by simp [dueRow, hp]
      rw [filterMap_cons_some hd, filter_cons_of_pos (by simp [hp]), map_cons, ih]
      rfl

/-- A planned round is the due paths in some order, up to the budget. -/
theorem plan_eq (targets : List ScanTarget) (now : Int) (ttl : Nat) {budget : Nat}
    (h : 0 < budget) :
    ∃ order : List Text, order.Perm ((dueTargets targets now ttl).map ScanTarget.path)
      ∧ plan targets now ttl budget = order.take budget := by
  refine ⟨((targets.filterMap (dueRow now ttl)).mergeSort (fun a b => a.cmp b != .gt)).map
    DueRow.path, ?_, ?_⟩
  · rw [← map_path_due]
    exact (mergeSort_perm _ _).map _
  · unfold plan
    dsimp only
    rw [if_pos h, map_take]

theorem stamp_path (paths : List Text) (now : Int) (targets : List ScanTarget) :
    (stamp paths now targets).map ScanTarget.path = targets.map ScanTarget.path := by
  unfold stamp
  rw [map_map]
  apply map_congr_left
  intro t _
  show (if t.path ∈ paths then { t with measuredAt := some now } else t).path = t.path
  split_ifs <;> rfl

namespace Lane

variable (l : Lane)

theorem registry_path (r : Nat) :
    (l.registry r).map ScanTarget.path = l.targets.map ScanTarget.path := by
  induction r with
  | zero => rfl
  | succ r ih => rw [registry, stamp_path, ih]

/-- The paths of the lane. -/
def paths : Finset Text := (l.targets.map ScanTarget.path).toFinset

theorem card_paths : l.paths.card = l.targets.length := by
  rw [paths, toFinset_card_of_nodup l.distinct, length_map]

theorem mem_paths {r : Nat} {x : Text} : x ∈ l.paths ↔ ∃ t ∈ l.registry r, t.path = x := by
  rw [paths, mem_toFinset, ← l.registry_path r, mem_map]

theorem eq_of_path {r : Nat} {t u : ScanTarget} (ht : t ∈ l.registry r) (hu : u ∈ l.registry r)
    (h : t.path = u.path) : t = u := by
  have hnodup : ((l.registry r).map ScanTarget.path).Nodup := by
    rw [l.registry_path]
    exact l.distinct
  exact inj_on_of_nodup_map hnodup ht hu h

/-- A row is due in round `r`. -/
def DueIn (r : Nat) (x : Text) : Prop :=
  ∃ t ∈ l.registry r, t.path = x ∧ (priority t (l.clock r) l.ttl).isSome = true

theorem nodup_due (r : Nat) :
    ((dueTargets (l.registry r) (l.clock r) l.ttl).map ScanTarget.path).Nodup := by
  have hnodup : ((l.registry r).map ScanTarget.path).Nodup := by
    rw [l.registry_path]
    exact l.distinct
  exact hnodup.sublist (filter_sublist.map _)

theorem mem_due {r : Nat} {x : Text} :
    x ∈ (dueTargets (l.registry r) (l.clock r) l.ttl).map ScanTarget.path ↔ l.DueIn r x := by
  unfold DueIn dueTargets
  simp only [mem_map, mem_filter]
  constructor
  · rintro ⟨t, ⟨ht, hp⟩, hx⟩
    exact ⟨t, ht, hx, hp⟩
  · rintro ⟨t, ht, hx, hp⟩
    exact ⟨t, ⟨ht, hp⟩, hx⟩

/-- **What a round measures**: only due rows, each once, at most the budget, and all due rows when
the budget is not used up. -/
theorem measured_spec (r : Nat) :
    (l.measured r).Nodup ∧ (l.measured r).length ≤ l.budget ∧ (∀ x ∈ l.measured r, l.DueIn r x)
      ∧ ((l.measured r).length < l.budget → ∀ x, l.DueIn r x → x ∈ l.measured r) := by
  obtain ⟨order, hperm, hplan⟩ := plan_eq (l.registry r) (l.clock r) l.ttl l.budget_pos
  unfold measured
  rw [hplan]
  have hnodup : order.Nodup := hperm.nodup_iff.mpr (l.nodup_due r)
  refine ⟨hnodup.sublist (take_sublist _ _), length_take_le _ _, ?_, ?_⟩
  · intro x hx
    exact l.mem_due.mp (hperm.subset (mem_of_mem_take hx))
  · intro hlt x hx
    rw [length_take] at hlt
    rw [take_of_length_le (by omega)]
    exact hperm.symm.subset (l.mem_due.mpr hx)

theorem idle_iff (r : Nat) : l.Idle r ↔ ∀ x, ¬ l.DueIn r x := by
  obtain ⟨-, -, hdue, hall⟩ := l.measured_spec r
  constructor
  · intro hidle x hx
    have hlt : (l.measured r).length < l.budget := by
      rw [show l.measured r = [] from hidle]
      exact l.budget_pos
    have hmem := hall hlt x hx
    rw [show l.measured r = [] from hidle] at hmem
    cases hmem
  · intro hnone
    rw [Idle, eq_nil_iff_forall_not_mem]
    intro x hx
    exact hnone x (hdue x hx)

/-! ## Stamps -/

/-- What was measured in round `j` is fresh in round `r`. -/
def Fresh (j r : Nat) : Prop := l.clock r < l.clock j + l.ttl

/-- A row that was never measured has a stamp from before the first round that is still fresh. -/
def Held (r : Nat) (x : Text) : Prop :=
  (∀ j < r, x ∉ l.measured j)
    ∧ ∃ t ∈ l.targets, t.path = x ∧ isFresh (l.clock r) t.measuredAt l.ttl = true

/-- Where the stamp of a target comes from: the last round that measured it, or the registry that
the lane started with. -/
def StampOf (r : Nat) (t : ScanTarget) : Prop :=
  (∃ j < r, t.path ∈ l.measured j ∧ (∀ i, j < i → i < r → t.path ∉ l.measured i)
    ∧ t.measuredAt = some (l.clock j))
  ∨ ((∀ j < r, t.path ∉ l.measured j) ∧ ∃ u ∈ l.targets, u.path = t.path
    ∧ u.measuredAt = t.measuredAt)

theorem registry_stampOf (r : Nat) : ∀ t ∈ l.registry r, l.StampOf r t := by
  induction r with
  | zero =>
    intro t ht
    exact .inr ⟨by omega, t, ht, rfl, rfl⟩
  | succ r ih =>
    intro t ht
    rw [registry, stamp, mem_map] at ht
    obtain ⟨u, hu, rfl⟩ := ht
    split_ifs with hmem
    · -- measured in this round, which is now the last one
      exact .inl ⟨r, by omega, hmem, by omega, rfl⟩
    · rcases ih u hu with ⟨j, hj, hserved, hlast, hat⟩ | ⟨hnever, hfrom⟩
      · refine .inl ⟨j, by omega, hserved, ?_, hat⟩
        intro i hji hir
        rcases Nat.lt_succ_iff_lt_or_eq.mp hir with hlt | rfl
        · exact hlast i hji hlt
        · exact hmem
      · refine .inr ⟨?_, hfrom⟩
        intro j hj
        rcases Nat.lt_succ_iff_lt_or_eq.mp hj with hlt | rfl
        · exact hnever j hlt
        · exact hmem

theorem isFresh_iff {now at_ : Int} {ttl : Nat} (hpos : 0 < at_) (hle : at_ ≤ now)
    (httl : 0 < ttl) : isFresh now (some at_) ttl = true ↔ now < at_ + ttl := by
  have hage : ageSeconds now at_ = some (now - at_).toNat := if_neg (by omega)
  unfold isFresh
  rw [if_neg (by omega), Option.any_some, hage, Option.any_some]
  simp only [Bool.and_eq_true, Bool.or_eq_true, decide_eq_true_eq]
  omega

theorem clock_pos (j : Nat) : 0 < l.clock j :=
  lt_of_lt_of_le l.positive (l.monotone (Nat.zero_le j))

theorem isFresh_clock {j r : Nat} (h : j ≤ r) :
    isFresh (l.clock r) (some (l.clock j)) l.ttl = true ↔ l.Fresh j r :=
  isFresh_iff (l.clock_pos j) (l.monotone h) l.ttl_pos

theorem priority_isSome {t : ScanTarget} {now : Int} {ttl : Nat} :
    (priority t now ttl).isSome = true ↔ isFresh now t.measuredAt ttl = false := by
  unfold priority
  cases t.measuredAt with
  | none => simp [isFresh]
  | some at_ => by_cases hf : isFresh now (some at_) ttl = true <;> simp [hf]

/-- **A row is due** unless its stamp, from a round or from the start, is fresh. -/
theorem dueIn_iff (r : Nat) (x : Text) :
    l.DueIn r x ↔ x ∈ l.paths ∧ ¬ l.Held r x ∧ ∀ j < r, x ∈ l.measured j → ¬ l.Fresh j r := by
  have hmono : ∀ {j k : Nat}, j ≤ k → l.Fresh j r → l.Fresh k r := by
    intro j k hjk hf
    have hle := l.monotone hjk
    unfold Fresh at *
    omega
  have hinit : ∀ {u v : ScanTarget}, u ∈ l.targets → v ∈ l.targets → u.path = v.path → u = v :=
    fun hu hv h => l.eq_of_path (r := 0) hu hv h
  constructor
  · rintro ⟨t, ht, rfl, hdue⟩
    rw [priority_isSome] at hdue
    refine ⟨(l.mem_paths (r := r)).mpr ⟨t, ht, rfl⟩, ?_⟩
    rcases l.registry_stampOf r t ht with ⟨j, hj, hserved, hlast, hat⟩ | ⟨hnever, u, hu, hpath, hat⟩
    · refine ⟨fun hheld => hheld.1 j hj hserved, ?_⟩
      intro i hi himem hfresh
      -- the last round that measured the row is not before round `i`
      have hij : i ≤ j := by
        by_contra hlt
        exact hlast i (by omega) hi himem
      rw [hat, (l.isFresh_clock hj.le).mpr (hmono hij hfresh)] at hdue
      cases hdue
    · refine ⟨?_, fun j hj hmem => absurd hmem (hnever j hj)⟩
      rintro ⟨-, v, hv, hvpath, hvfresh⟩
      rw [hinit hv hu (hvpath.trans hpath.symm), hat, hdue] at hvfresh
      cases hvfresh
  · rintro ⟨hx, hheld, hstale⟩
    obtain ⟨t, ht, rfl⟩ := (l.mem_paths (r := r)).mp hx
    refine ⟨t, ht, rfl, priority_isSome.mpr ?_⟩
    rw [← Bool.not_eq_true]
    rcases l.registry_stampOf r t ht with ⟨j, hj, hserved, -, hat⟩ | ⟨hnever, u, hu, hpath, hat⟩
    · rw [hat, l.isFresh_clock hj.le]
      exact hstale j hj hserved
    · intro hfresh
      exact hheld ⟨hnever, u, hu, hpath, by rw [hat]; exact hfresh⟩

/-! ## The lane as a sweep -/

/-- **A lane is a sweep of its paths.** -/
def sweep : Sweep Text where
  rows := l.paths
  budget := l.budget
  fresh := l.Fresh
  held := l.Held
  served r := (l.measured r).toFinset
  fresh_mono := by
    intro j j' r r' hf hj hr
    have h1 := l.monotone hj
    have h2 := l.monotone hr
    unfold Fresh at *
    omega
  served_due := by
    intro r x hx
    have hdue := (l.measured_spec r).2.2.1 x (mem_toFinset.mp hx)
    simpa using (l.dueIn_iff r x).mp hdue
  served_card r := le_trans (toFinset_card_le _) (l.measured_spec r).2.1
  served_all := by
    intro r hcard x hx hheld hstale
    obtain ⟨hnodup, -, -, hall⟩ := l.measured_spec r
    rw [toFinset_card_of_nodup hnodup] at hcard
    rw [mem_toFinset]
    exact hall hcard x ((l.dueIn_iff r x).mpr ⟨hx, hheld, by simpa using hstale⟩)

theorem idle_iff_sweep (r : Nat) : l.Idle r ↔ ∀ x, ¬ l.sweep.Due r x := by
  rw [idle_iff]
  apply forall_congr'
  intro x
  rw [dueIn_iff]
  simp [Sweep.Due, sweep]

/-- All rows are cold at the start. -/
def Cold : Prop := ∀ t ∈ l.targets, t.measuredAt = none

theorem Cold.not_held {l : Lane} (h : l.Cold) (r : Nat) (x : Text) : ¬ l.Held r x := by
  rintro ⟨-, t, ht, -, hfresh⟩
  rw [h t ht] at hfresh
  simp [isFresh] at hfresh

/-- **Too many rows**: a lane is not idle in round `r` when what is fresh was measured in the last
`window` rounds, and these cannot have measured all rows. -/
theorem not_idle {window r : Nat} (hheld : ∀ x, ¬ l.Held r x)
    (hwindow : ∀ j < r, l.Fresh j r → r ≤ j + window)
    (hrows : window * l.budget < l.targets.length) : ¬ l.Idle r := by
  have hcard : window * l.sweep.budget < l.sweep.rows.card := by
    rw [show l.sweep.rows.card = l.targets.length from l.card_paths]
    exact hrows
  obtain ⟨x, hx⟩ := l.sweep.exists_due hwindow (fun x _ => hheld x) hcard
  intro hidle
  exact (l.idle_iff_sweep r).mp hidle x hx

/-- **Few enough rows**: a cold lane is idle after the first `width` rounds over which a stamp stays
fresh, when the rows fit into these. -/
theorem idle_of_first {l : Lane} (hcold : l.Cold) {start width : Nat}
    (hrows : l.targets.length ≤ width * l.budget) (hfresh : l.Fresh start (start + width))
    (hfirst : ∀ j < start, ¬ l.Fresh j (j + width)) : l.Idle (start + width) := by
  rw [l.idle_iff_sweep]
  apply Sweep.not_due_of_first (fun r x => hcold.not_held r x) _ hfresh hfirst
  rw [show l.sweep.rows.card = l.targets.length from l.card_paths]
  exact hrows

end Lane

end Thegn.Scan
