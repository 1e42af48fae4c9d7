import Thegn.Recur.Gregorian

set_option autoImplicit false

/-! # What `COUNT` takes

The loops of `expand_rule` take a beginning of the occurrences in the order of the walk. With the
periods in order that is a beginning of them in time.
-/

namespace Thegn.Recur

open Accumulate List

variable {D T : Type} [LinearOrder D] [LinearOrder T] {cal : Calendar D T} {r : RRule D T}
  {zone : Option (Zone D T)}
  {start : NaiveDateTime D T} {first : D} {w : DateWindow D}

/-! ## Occurrences -/

def tickAt (cal : Calendar D T) (step : Nat) (start : NaiveDateTime D T) :
    Nat → Option (NaiveDateTime D T)
  | 0 => some start
  | k + 1 => (tickAt cal step start k).bind fun t => cal.checkedAddSeconds t step

def tickGroup (cal : Calendar D T) (r : RRule D T) (start : NaiveDateTime D T) (k : Nat) :
    List (NaiveDateTime D T) :=
  (tickAt cal (tickStep r) start k).toList.filter (keeps cal r)

/-- The occurrences of the `k`th period behind a first one. -/
def periodGroup (cal : Calendar D T) (r : RRule D T) (start : NaiveDateTime D T) (first : D)
    (k : Nat) : List (NaiveDateTime D T) :=
  ((periodAt cal r first k).toList.flatMap (candidates cal r start)).filter (start ≤ ·)

/-- The occurrences of one tick of the clock, or of one period; `COUNT` does not enter. -/
def group (cal : Calendar D T) (r : RRule D T) (start : NaiveDateTime D T) :
    Nat → List (NaiveDateTime D T) :=
  if r.freq.isSubdaily then tickGroup cal r start else periodGroup cal r start start.date

/-- The occurrences of a rule from its start on. -/
def occurrences (cal : Calendar D T) (r : RRule D T) (start : NaiveDateTime D T) :
    Set (NaiveDateTime D T) :=
  {x | ∃ k, x ∈ group cal r start k}

def InWindow (w : DateWindow D) (x : NaiveDateTime D T) : Bool := w.contains x.date

/-- Not behind the end of the window. -/
def Within (w : DateWindow D) (x : NaiveDateTime D T) : Bool := x.date ≤ w.to_

omit [LinearOrder T] in
theorem within_of_inWindow {x : NaiveDateTime D T} (h : InWindow w x = true) :
    Within w x = true := by
  simp only [InWindow, DateWindow.contains, Bool.and_eq_true] at h
  exact h.2

omit [LinearOrder T] in
theorem not_within {x : NaiveDateTime D T} (h : w.to_ < x.date) : Within w x = false := by
  simpa [Within] using h

theorem within_of_lt {x y : NaiveDateTime D T} (h : Within w x = true) (hlt : y < x) :
    Within w y = true := by
  simp only [Within, decide_eq_true_eq] at h ⊢
  exact (NaiveDateTime.date_le hlt.le).trans h

/-- Of the first `c` occurrences that the walk counts, those within the window's end are counted in
increasing order, and they are before all others within it. -/
def InOrder (cal : Calendar D T) (r : RRule D T) (start : NaiveDateTime D T) (w : DateWindow D)
    (c : Nat) : Prop :=
  InStep (group cal r start) c (Within w)

/-! ## The ticks are in order -/

theorem tickAt_lt (law : cal.Lawful) {step j k : Nat} (hstep : 0 < step) (hjk : j < k)
    {x y : NaiveDateTime D T}
    (hx : tickAt cal step start j = some x) (hy : tickAt cal step start k = some y) : x < y := by
  induction k, hjk using Nat.le_induction generalizing y with
  | base =>
    simp only [tickAt, hx, Option.bind_some] at hy
    exact law.lt_addSeconds hy hstep
  | succ k hjk ih =>
    obtain ⟨t, ht, hty⟩ := Option.bind_eq_some_iff.mp hy
    exact (ih ht).trans (law.lt_addSeconds hty hstep)

omit [LinearOrder D] [LinearOrder T] in
theorem tickStep_pos (r : RRule D T) : 0 < tickStep r := by
  have hunit : 0 < r.freq.unit := by cases r.freq <;> decide
  exact Nat.mul_pos hunit (by omega)

omit [LinearOrder D] [LinearOrder T] in
theorem mem_tickGroup {k : Nat} {x : NaiveDateTime D T} :
    x ∈ tickGroup cal r start k ↔ tickAt cal (tickStep r) start k = some x ∧
    keeps cal r x = true := by
  simp [tickGroup, mem_filter]

theorem tickGroup_pairwise (k : Nat) : (tickGroup cal r start k).Pairwise (· < ·) := by
  apply List.Pairwise.filter
  cases tickAt cal (tickStep r) start k <;> simp

theorem mem_periodGroup {k : Nat} {x : NaiveDateTime D T} :
    x ∈ periodGroup cal r start first k ↔
      start ≤ x ∧ ∃ p, periodAt cal r first k = some p ∧ x ∈ candidates cal r start p := by
  simp [periodGroup, mem_filter, and_comm]

theorem periodGroup_pairwise (k : Nat) : (periodGroup cal r start first k).Pairwise (· < ·) := by
  apply List.Pairwise.filter
  cases periodAt cal r first k with
  | none => simp
  | some p => simpa using candidates_pairwise cal r start p

theorem group_pairwise (k : Nat) : (group cal r start k).Pairwise (· < ·) := by
  unfold group
  split
  · exact tickGroup_pairwise k
  · exact periodGroup_pairwise k

/-- Only two kinds of rules can have occurrences out of order. -/
theorem inOrder (law : cal.Lawful)
    (hyearly : ¬(r.freq = .yearly ∧ r.byYearDay ≠ [] ∧ r.byWeekNo ≠ []))
    (hweekly : ¬(r.freq = .weekly ∧ r.byDay ≠ [] ∧ cal.checkedSubDays start.date 6 = none))
    (c : Nat) : InOrder cal r start w c := by
  refine inStep_of_lt group_pairwise fun j k hjk x hx y hy => ?_
  unfold group at hx hy
  split at hx
  case isTrue hsub =>
    rw [if_pos hsub] at hy
    exact tickAt_lt law (tickStep_pos r) hjk (mem_tickGroup.mp hx).1 (mem_tickGroup.mp hy).1
  case isFalse hsub =>
    rw [if_neg hsub] at hy
    obtain ⟨-, p, hp, hxp⟩ := mem_periodGroup.mp hx
    obtain ⟨-, q, hq, hyq⟩ := mem_periodGroup.mp hy
    exact candidates_lt law hyearly hweekly hjk hp hq hxp hyq

/-! ## The loop over the candidates of a period -/

/-- The number of occurrences so far, which only a rule with a `COUNT` keeps. -/
def emittedOf (r : RRule D T) (n : Nat) : Nat := if r.count.isSome then n else 0

omit [LinearOrder D] [LinearOrder T] in
theorem emittedOf_succ (n : Nat) : (if r.count.isSome then emittedOf r n + 1 else emittedOf r n) =
    emittedOf r (n + 1) := by
  unfold emittedOf
  split <;> rfl

omit [LinearOrder D] [LinearOrder T] in
@[simp] theorem emittedOf_zero : emittedOf r 0 = 0 := by simp [emittedOf]

omit [LinearOrder D] [LinearOrder T] in
/-- The loops return when the count is reached, and then as many occurrences are taken as it
says. -/
theorem any_count_iff {n : Nat} (hle : ∀ c ∈ r.count, n ≤ c) :
    r.count.any (· ≤ emittedOf r n) = true ↔ ∃ c ∈ r.count, n = c := by
  cases hc : r.count with
  | none => simp
  | some c =>
    have hn := hle c hc
    simp only [emittedOf, hc, Option.isSome_some, if_true, Option.any_some, decide_eq_true_eq,
      Option.mem_some_iff, exists_eq_left']
    omega

theorem succ_le_count {n : Nat} (hle : ∀ c ∈ r.count, n ≤ c)
    (hfull : ¬r.count.any (· ≤ emittedOf r n) = true) : ∀ c ∈ r.count, n + 1 ≤ c := by
  intro c hc
  have hne : n ≠ c := fun heq => hfull ((any_count_iff hle).mpr ⟨c, hc, heq⟩)
  have hn := hle c hc
  omega

theorem trySeconds_eq_ok (law : cal.Lawful) {n m : Nat} (h : trySeconds cal n = .ok m) : m = n := by
  unfold trySeconds at h
  split at h
  · cases h
    exact law.trySeconds _ _ ‹_›
  · cases h

theorem expandSubdaily_eq_ok (law : cal.Lawful) {cost : RuleCost} {b : ExpansionBudget}
    {res : List (NaiveDateTime D T) × ExpansionBudget}
    (h : expandSubdaily cal r zone cost start w b = .ok res) :
    ∃ tick, firstTick cal r start w.from_ (tickStep r) = .ok tick ∧
      expandTicks cal r zone cost (tickStep r) w maxSubdailySteps tick 0 [] b = .ok res := by
  unfold expandSubdaily at h
  split at h
  case isFalse => cases h
  case isTrue =>
    obtain ⟨step, hstep, h⟩ := bind_eq_ok.mp h
    obtain ⟨tick, htick, h⟩ := bind_eq_ok.mp h
    rw [trySeconds_eq_ok law hstep] at h htick
    exact ⟨tick, htick, h⟩

theorem not_pastUntil (hu : r.until_ = none) (x : NaiveDateTime D T) :
    pastUntil cal r zone x = false := by
  simp [pastUntil, hu]

/-- The loop takes a beginning of the candidates from the start on, and all of them unless the count
is reached. -/
theorem visit_taken (hu : r.until_ = none) {dts : List (NaiveDateTime D T)} :
    ∀ {taken : List (NaiveDateTime D T)} {b b' : ExpansionBudget} {v : Visit D T},
      (∀ c ∈ r.count, taken.length ≤ c) →
      visit cal r zone start w dts (emittedOf r taken.length) (taken.filter (InWindow w)) b =
        .ok (v, b') →
      ∃ new, new <+: dts.filter (start ≤ ·) ∧ (∀ c ∈ r.count, (taken ++ new).length ≤ c) ∧
        ((new = dts.filter (start ≤ ·) ∧
            v = .going (emittedOf r (taken ++ new).length) ((taken ++ new).filter (InWindow w))) ∨
          (∃ c ∈ r.count, (taken ++ new).length = c) ∧
          v = .finished ((taken ++ new).filter (InWindow w))) := by
  induction dts with
  | nil =>
    intro taken b b' v hle h
    cases h
    exact ⟨[], nil_prefix, by simpa using hle, .inl ⟨rfl, by simp⟩⟩
  | cons dt dts ih =>
    intro taken b b' v hle h
    simp only [visit, not_pastUntil hu, Bool.false_eq_true, if_false] at h
    by_cases hdt : dt < start
    · rw [if_pos hdt] at h
      rw [filter_cons_of_neg (by simpa using hdt)]
      exact ih hle h
    rw [if_neg hdt] at h
    rw [filter_cons_of_pos (by simpa using hdt)]
    split at h
    case isTrue hfull =>
      -- the count was reached before this candidate
      cases h
      exact ⟨[], nil_prefix, by simpa using hle,
        .inr ⟨by simpa using (any_count_iff hle).mp hfull, by simp⟩⟩
    case isFalse hfull =>
      have hlength : (taken ++ [dt]).length = taken.length + 1 := by simp
      have hle' : ∀ c ∈ r.count, (taken ++ [dt]).length ≤ c := by
        rw [hlength]
        exact succ_le_count hle hfull
      have hnext : ∃ b, visit cal r zone start w dts (emittedOf r (taken ++ [dt]).length)
          ((taken ++ [dt]).filter (InWindow w)) b = .ok (v, b') := by
        rw [emittedOf_succ, ← hlength] at h
        split at h
        case isTrue hin =>
          obtain ⟨b1, -, h⟩ := bind_eq_ok.mp h
          refine ⟨b1, ?_⟩
          rw [filter_append, filter_cons_of_pos (by simpa [InWindow] using hin), filter_nil]
          exact h
        case isFalse hout =>
          refine ⟨b, ?_⟩
          rw [filter_append, filter_cons_of_neg (by simpa [InWindow] using hout), filter_nil,
            append_nil]
          exact h
      obtain ⟨b1, hnext⟩ := hnext
      obtain ⟨new, hpre, hlen, hend⟩ := ih hle' hnext
      refine ⟨dt :: new, cons_prefix_cons.mpr ⟨rfl, hpre⟩, by simpa using hlen, ?_⟩
      rcases hend with ⟨rfl, hv⟩ | ⟨hc, hv⟩
      · exact .inl ⟨rfl, by simpa using hv⟩
      · exact .inr ⟨by simpa using hc, by simpa using hv⟩

/-! ## The loop over the periods -/

omit [LinearOrder D] [LinearOrder T] in
theorem periodAt_none {j k : Nat} (hjk : j ≤ k) (h : periodAt cal r first j = none) :
    periodAt cal r first k = none := by
  induction k, hjk using Nat.le_induction with
  | base => exact h
  | succ k _ ih => simp [periodAt, ih]

/-- A week past the window no later period reaches back into it. -/
theorem not_within_of_pastWindow (law : cal.Lawful) {j k : Nat} {p : D}
    (hpast : pastWindow cal w p = true) (hjk : j < k)
    (hp : periodAt cal r first j = some p) {y : NaiveDateTime D T}
    (hy : y ∈ periodGroup cal r start first k) : Within w y = false := by
  apply not_within
  obtain ⟨-, q, hq, hyq⟩ := mem_periodGroup.mp hy
  unfold pastWindow at hpast
  cases hsub : cal.checkedSubDays p 7 with
  | none => simp [hsub] at hpast
  | some a =>
    simp only [hsub, Option.any_some, decide_eq_true_eq] at hpast
    refine hpast.trans ?_
    have hlater := daysSince_later law hjk hp hq hyq
    have hseven := law.subDays _ _ _ hsub
    have hadd := law.daysSince_add y.date p a
    rw [← law.daysSince_pos]
    omega

/-- Only finitely many occurrences come before a time: the periods move on. -/
theorem finite_before (law : cal.Lawful) (y : NaiveDateTime D T) :
    {z | (∃ k, z ∈ periodGroup cal r start first k) ∧ z < y}.Finite := by
  let n := (cal.daysSince y.date first).toNat + 7
  refine (finite_toSet (walked (periodGroup cal r start first) (n + 1))).subset ?_
  rintro z ⟨⟨k, hz⟩, hzy⟩
  refine mem_walked.mpr ⟨k, ?_, hz⟩
  by_contra hk
  obtain ⟨-, q, hq, hzq⟩ := mem_periodGroup.mp hz
  cases hp : periodAt cal r first n with
  | none =>
    rw [periodAt_none (by omega) hp] at hq
    cases hq
  | some p =>
    have hn := le_daysSince law hp
    have hlater := daysSince_later law (by omega) hp hq hzq
    have hfirst := law.daysSince_add z.date p first
    have hadd := law.daysSince_add z.date y.date first
    have hlt : y.date < z.date := by
      rw [← law.daysSince_pos]
      omega
    exact absurd (NaiveDateTime.date_le hzy.le) (not_le.mpr hlt)

theorem expandPeriods_taken (law : cal.Lawful) (hu : r.until_ = none) {cost : RuleCost}
    {fuel : Nat} :
    ∀ {k : Nat} {period : D} {b b' : ExpansionBudget} {out : List (NaiveDateTime D T)},
      periodAt cal r first k = some period →
      (∀ c ∈ r.count, (walked (periodGroup cal r start first) k).length ≤ c) →
      expandPeriods cal r zone cost start w fuel period
        (emittedOf r (walked (periodGroup cal r start first) k).length)
        ((walked (periodGroup cal r start first) k).filter (InWindow w)) b = .ok (out, b') →
      ∃ taken, out = taken.filter (InWindow w) ∧
      Taken (periodGroup cal r start first) r.count (Within w) taken := by
  induction fuel with
  | zero => exact fun _ _ h => nomatch h
  | succ fuel ih =>
    intro k period b b' out hk hle h
    rw [expandPeriods] at h
    obtain ⟨b1, -, h⟩ := bind_eq_ok.mp h
    obtain ⟨⟨dts, b2⟩, hdts, h⟩ := bind_eq_ok.mp h
    obtain ⟨⟨v, b3⟩, hv, h⟩ := bind_eq_ok.mp h
    have hgroup : dts.filter (start ≤ ·) = periodGroup cal r start first k := by
      simp [periodGroup, hk, periodCandidates_eq hdts]
    obtain ⟨new, hpre, hlen, hend⟩ := visit_taken hu hle hv
    rw [hgroup] at hpre hend
    have hwalked : walked (periodGroup cal r start first) (k + 1) =
        walked (periodGroup cal r start first) k ++ periodGroup cal r start first k :=
          walked_succ _ _
    rcases hend with ⟨rfl, rfl⟩ | ⟨hfull, rfl⟩
    · rw [← hwalked] at h hlen
      -- the walk ends here when every later group is beyond the window
      have hstop : (∀ j, k < j → ∀ y ∈ periodGroup cal r start first j, Within w y = false) →
          out = (walked (periodGroup cal r start first) (k + 1)).filter (InWindow w) →
          ∃ taken, out = taken.filter (InWindow w) ∧
            Taken (periodGroup cal r start first) r.count (Within w) taken :=
        fun hfar hout => ⟨_, hout, k + 1, prefix_rfl, hlen, .inl ⟨rfl, hfar⟩⟩
      simp only at h
      split at h
      case isTrue hpast =>
        cases h
        exact hstop (fun j hj y hy => not_within_of_pastWindow law hpast hj hk hy) rfl
      case isFalse =>
        cases hnext : advance cal r period with
        | none =>
          simp only [hnext, Except.ok.injEq, Prod.mk.injEq] at h
          refine hstop (fun j hj y hy => ?_) h.1.symm
          obtain ⟨-, q, hq, -⟩ := mem_periodGroup.mp hy
          have hnone : periodAt cal r first (k + 1) = none := by simp [periodAt, hk, hnext]
          rw [periodAt_none hj hnone] at hq
          cases hq
        | some next =>
          simp only [hnext] at h
          split at h
          · cases h
          · exact ih (by simp [periodAt, hk, hnext]) hlen h
    · cases h
      obtain ⟨rest, hrest⟩ := hpre
      refine ⟨_, rfl, k + 1, ⟨rest, ?_⟩, hlen, .inr hfull⟩
      rw [hwalked, ← hrest, append_assoc]

/-! ## The loop over the ticks -/

omit [LinearOrder D] [LinearOrder T] in
theorem tickAt_none {step j k : Nat} (hjk : j ≤ k) (h : tickAt cal step start j = none) :
    tickAt cal step start k = none := by
  induction k, hjk using Nat.le_induction with
  | base => exact h
  | succ k _ ih => simp [tickAt, ih]

/-- A tick within the window's end is taken when the filters keep it, unless the count is
reached. -/
theorem visitTick_taken {cur : NaiveDateTime D T} (hto : ¬w.to_ < cur.date)
    {taken : List (NaiveDateTime D T)}
    {b b' : ExpansionBudget} {v : Visit D T} (hle : ∀ c ∈ r.count, taken.length ≤ c)
    (h : visitTick cal r w cur (emittedOf r taken.length) (taken.filter (InWindow w)) b =
      .ok (v, b')) :
    (∃ new, new = [cur].filter (keeps cal r) ∧ (∀ c ∈ r.count, (taken ++ new).length ≤ c) ∧
        v = .going (emittedOf r (taken ++ new).length) ((taken ++ new).filter (InWindow w))) ∨
      (∃ c ∈ r.count, taken.length = c) ∧ v = .finished (taken.filter (InWindow w)) := by
  unfold visitTick at h
  split at h
  case isFalse hkeep =>
    cases h
    exact .inl ⟨[], by simp [hkeep], by simpa using hle, by simp⟩
  case isTrue hkeep =>
    split at h
    case isTrue hfull =>
      cases h
      exact .inr ⟨(any_count_iff hle).mp hfull, rfl⟩
    case isFalse hfull =>
      have hlength : (taken ++ [cur]).length = taken.length + 1 := by simp
      have hle' : ∀ c ∈ r.count, (taken ++ [cur]).length ≤ c := by
        rw [hlength]
        exact succ_le_count hle hfull
      refine .inl ⟨[cur], by simp [hkeep], hle', ?_⟩
      rw [emittedOf_succ, ← hlength] at h
      simp only at h
      split at h
      case isTrue hfrom =>
        obtain ⟨b1, -, h⟩ := bind_eq_ok.mp h
        cases h
        have hin : InWindow w cur = true := by
          simp [InWindow, DateWindow.contains, hfrom, not_lt.mp hto]
        simp [hin]
      case isFalse hfrom =>
        cases h
        have hout : InWindow w cur = false := by simp [InWindow, DateWindow.contains, hfrom]
        simp [hout]

theorem expandTicks_taken (law : cal.Lawful) (hu : r.until_ = none) {cost : RuleCost}
    {steps : Nat} :
    ∀ {k : Nat} {cur : NaiveDateTime D T} {b b' : ExpansionBudget} {out : List (NaiveDateTime D T)},
      tickAt cal (tickStep r) start k = some cur →
      (∀ c ∈ r.count, (walked (tickGroup cal r start) k).length ≤ c) →
      expandTicks cal r zone cost (tickStep r) w steps cur
        (emittedOf r (walked (tickGroup cal r start) k).length)
        ((walked (tickGroup cal r start) k).filter (InWindow w)) b = .ok (out, b') →
      ∃ taken, out = taken.filter (InWindow w) ∧
      Taken (tickGroup cal r start) r.count (Within w) taken := by
  induction steps with
  | zero => exact fun _ _ h => nomatch h
  | succ steps ih =>
    intro k cur b b' out hk hle h
    rw [expandTicks] at h
    obtain ⟨b1, -, h⟩ := bind_eq_ok.mp h
    simp only [not_pastUntil hu, Bool.false_eq_true, if_false] at h
    split at h
    case isTrue hpast =>
      cases h
      refine ⟨_, rfl, k, prefix_rfl, hle, .inl ⟨rfl, fun j hj y hy => ?_⟩⟩
      rcases hj.lt_or_eq with hj | rfl
      · have hlt := tickAt_lt law (tickStep_pos r) hj hk (mem_tickGroup.mp hy).1
        exact not_within (hpast.trans_le (NaiveDateTime.date_le hlt.le))
      · rw [(mem_tickGroup.mp hy).1, Option.some.injEq] at hk
        exact not_within (hk ▸ hpast)
    case isFalse hto =>
      obtain ⟨⟨v, b2⟩, hv, h⟩ := bind_eq_ok.mp h
      have hgroup : [cur].filter (keeps cal r) = tickGroup cal r start k := by simp [tickGroup, hk]
      rcases visitTick_taken hto hle hv with ⟨new, rfl, hlen, rfl⟩ | ⟨hfull, rfl⟩
      · rw [hgroup, ← walked_succ] at h hlen
        cases hnext : cal.checkedAddSeconds cur (tickStep r) with
        | none =>
          simp only [hnext, Except.ok.injEq, Prod.mk.injEq] at h
          refine ⟨_, h.1.symm, k + 1, prefix_rfl, hlen, .inl ⟨rfl, fun j hj y hy => ?_⟩⟩
          have hnone : tickAt cal (tickStep r) start (k + 1) = none := by simp [tickAt, hk, hnext]
          have hy := (mem_tickGroup.mp hy).1
          rw [tickAt_none hj hnone] at hy
          cases hy
        | some next =>
          simp only [hnext] at h
          exact ih (by simp [tickAt, hk, hnext]) hlen h
      · cases h
        exact ⟨_, rfl, k, prefix_rfl, hle, .inr hfull⟩

/-! ## The rule -/

/-- A walk from the start takes occurrences in the order of the walk. -/
theorem expandRule_taken (law : cal.Lawful) (hu : r.until_ = none) {b b' : ExpansionBudget}
    {out : List (NaiveDateTime D T)} (hfirst : r.count.isSome ∨ w.from_ ≤ start.date)
    (h : expandRule cal r zone start w b = .ok (out, b')) :
    ∃ taken, out = taken.filter (InWindow w) ∧
    Taken (group cal r start) r.count (Within w) taken := by
  unfold expandRule at h
  unfold group
  cases hcost : RuleCost.of r with
  | none => simp [hcost] at h
  | some cost =>
    simp only [hcost] at h
    split at h
    case isTrue hsub =>
      rw [if_pos hsub]
      obtain ⟨tick, htick, h⟩ := expandSubdaily_eq_ok law h
      have hstart : tick = start := by
        unfold firstTick at htick
        split at htick
        case h_1 midnight hc hm =>
          have hfrom : w.from_ ≤ start.date := hfirst.resolve_left (by simp [hc])
          have hnot : ¬start < toLex (w.from_, midnight) := by
            rw [not_lt, Prod.Lex.le_iff]
            rcases hfrom.lt_or_eq with hlt | heq
            · exact .inl hlt
            · exact .inr ⟨heq, law.midnight_le _ _ hm⟩
          rw [if_neg hnot] at htick
          cases htick
          rfl
        case h_2 =>
          cases htick
          rfl
      rw [hstart] at h
      exact expandTicks_taken law hu (k := 0) rfl (by simp) (by simpa using h)
    case isFalse hsub =>
      rw [if_neg hsub]
      have hinit : initialPeriod cal r start.date w.from_ = start.date := by
        unfold initialPeriod
        rw [if_pos hfirst]
      rw [hinit] at h
      exact expandPeriods_taken law hu (k := 0) rfl (by simp) (by simpa using h)

/-- Without `COUNT` an expansion from the start on lists the occurrences in the window. -/
theorem mem_expandRule (law : cal.Lawful) (hu : r.until_ = none) {b b' : ExpansionBudget}
    {out : List (NaiveDateTime D T)} (hc : r.count = none) (hfrom : w.from_ ≤ start.date)
    (h : expandRule cal r zone start w b = .ok (out, b')) (x : NaiveDateTime D T) :
    x ∈ out ↔ x ∈ occurrences cal r start ∧ w.contains x.date := by
  obtain ⟨taken, rfl, htaken⟩ := expandRule_taken law hu (.inr hfrom) h
  rw [hc] at htaken
  rw [mem_filter]
  exact and_congr_left fun hin => htaken.mem_iff (within_of_inWindow hin)

/-- With the occurrences in order, `COUNT` takes the first ones. -/
theorem expandRule_earliest (law : cal.Lawful) (hu : r.until_ = none) {b b' : ExpansionBudget}
    {out : List (NaiveDateTime D T)} {c : Nat} (hc : r.count = some c)
    (hord : InOrder cal r start w c) (h : expandRule cal r zone start w b = .ok (out, b')) :
    out.Pairwise (· < ·) ∧ ∀ x, x ∈ out ↔ Earliest (occurrences cal r start) c x ∧
    w.contains x.date := by
  obtain ⟨taken, rfl, htaken⟩ := expandRule_taken law hu (.inl (by simp [hc])) h
  rw [hc] at htaken
  have hfilter : taken.filter (InWindow w) = (taken.filter (Within w)).filter (InWindow w) := by
    rw [filter_filter]
    refine filter_congr fun x _ => ?_
    cases hx : InWindow w x
    · simp
    · simp [within_of_inWindow hx]
  refine ⟨hfilter ▸ (htaken.begins hord).sorted.filter _, fun x => ?_⟩
  rw [mem_filter]
  exact and_congr_left fun hin =>
    htaken.earliest hord (fun _ _ => within_of_lt) (within_of_inWindow hin)

/-- A walk from a start in or behind the window takes the first occurrences only if they are in
order. -/
theorem inOrder_of_earliest (law : cal.Lawful) (hu : r.until_ = none) {b b' : ExpansionBudget}
    {out : List (NaiveDateTime D T)} {c : Nat} (hc : r.count = some c)
    (hfrom : w.from_ ≤ start.date)
    (h : expandRule cal r zone start w b = .ok (out, b')) (hsorted : out.Pairwise (· < ·))
    (hright : ∀ x, x ∈ out ↔ Earliest (occurrences cal r start) c x ∧ w.contains x.date) :
    InOrder cal r start w c := by
  by_cases hsub : r.freq.isSubdaily
  · refine inOrder law (fun hkind => ?_) (fun hkind => ?_) c
    · rw [hkind.1] at hsub
      cases hsub
    · rw [hkind.1] at hsub
      cases hsub
  · have hgroup : group cal r start = periodGroup cal r start start.date := if_neg hsub
    obtain ⟨taken, rfl, htaken⟩ := expandRule_taken law hu (.inl (by simp [hc])) h
    have hwindow : ∀ x ∈ occurrences cal r start, InWindow w x = Within w x := by
      rintro x ⟨k, hx⟩
      rw [hgroup] at hx
      have hx := hfrom.trans (NaiveDateTime.date_le (mem_periodGroup.mp hx).1)
      simp [InWindow, Within, DateWindow.contains, hx]
    have hfilter : taken.filter (InWindow w) = taken.filter (Within w) := by
      obtain ⟨n, hl, -⟩ := htaken
      refine filter_congr fun x hx => hwindow x ?_
      obtain ⟨j, -, hj⟩ := mem_walked.mp (hl.subset hx)
      exact ⟨j, hj⟩
    rw [hc] at htaken
    refine htaken.inStep (fun _ _ => within_of_lt) (fun y => hgroup ▸ finite_before law y)
      (hfilter ▸ hsorted) ?_
    intro x hx
    rw [hfilter] at hright
    refine ⟨fun hxl => ((hright x).mp (mem_filter.mpr ⟨hxl, hx⟩)).1, fun he => ?_⟩
    exact (mem_filter.mp ((hright x).mpr ⟨he, (hwindow x he.1).trans hx⟩)).1

omit [LinearOrder D] [LinearOrder T] in
theorem periodAt_congr {r' : RRule D T} (h : advance cal r = advance cal r') (first : D) (k : Nat) :
    periodAt cal r first k = periodAt cal r' first k := by
  induction k with
  | zero => rfl
  | succ k ih => simp only [periodAt, ih, h]

theorem occurrences_count (c : Option Nat) :
    occurrences cal { r with count := c } start = occurrences cal r start := by
  have hperiods : periodGroup cal { r with count := c } start start.date =
    periodGroup cal r start start.date := by
    funext k
    have hperiod : periodAt cal { r with count := c } start.date k =
      periodAt cal r start.date k := by
      apply periodAt_congr
      rfl
    unfold periodGroup
    rw [hperiod]
    rfl
  unfold occurrences group
  rw [hperiods]
  rfl

/-- The times of an expansion that succeeds. -/
def timesOf (result : Except ExpansionError (List (NaiveDateTime D T) × ExpansionBudget)) :
    Option (List (NaiveDateTime D T)) :=
  match result with
  | .ok (out, _) => some out
  | .error _ => none

omit [LinearOrder D] [LinearOrder T] in
theorem timesOf_eq_some
    {result : Except ExpansionError (List (NaiveDateTime D T) × ExpansionBudget)}
    {out : List (NaiveDateTime D T)} (h : timesOf result = some out) :
    ∃ b', result = .ok (out, b') := by
  match result with
  | .ok (out', b') =>
    cases h
    exact ⟨b', rfl⟩
  | .error e => cases h

open Gregorian

/-- 9:00 on a day. -/
def nineOClock (y : Int) (m k : Nat) : NaiveDateTime Day Clock :=
  toLex ((fromYmd y m k).getD default, 32400)

def defaultBudget : ExpansionBudget := ⟨4194304, 131072, 75497472, 0, 0, 0⟩

/-- `FREQ=MONTHLY;BYDAY=-1FR;COUNT=3`. -/
def threeLastFridays : RRule Day Clock :=
  { RRule.default with freq := .monthly, count := some 3, byDay := [⟨some (-1), .fri⟩] }

/-- `FREQ=YEARLY;BYYEARDAY=-1;BYWEEKNO=1;BYDAY=MO;COUNT=2`. -/
def lastDayAndFirstMonday : RRule Day Clock :=
  { RRule.default with
    freq := .yearly, count := some 2, byYearDay := [-1], byWeekNo := [1], byDay := [⟨none, .mon⟩] }

end Thegn.Recur
