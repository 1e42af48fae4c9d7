import Thegn.Recur.Expand

set_option autoImplicit false

/-! # The order of the periods

What the periods of a rule say about the dates of their candidates, and which rules have all
candidates of a period before those of every later one. Of `chrono` only the facts in
`Calendar.Lawful` are used.
-/

namespace Thegn.Recur

open List

variable {D T : Type} {cal : Calendar D T} {r : RRule D T} {p q d d' : D}

/-! ## Dates of a month -/

theorem mem_allWeekdaysInMonth {y : Int} {m : Nat} {wd : Weekday}
    (h : d ∈ allWeekdaysInMonth cal y m wd) : ∃ k, cal.fromYmdOpt y m k = some d := by
  obtain ⟨k, -, hk⟩ := mem_filterMap.mp (mem_filter.mp h).1
  exact ⟨k, hk⟩

theorem mem_nthWeekdayInMonth {y : Int} {m : Nat} {wd : Weekday} {n : Int}
    (h : nthWeekdayInMonth cal y m wd n = some d) : d ∈ allWeekdaysInMonth cal y m wd := by
  unfold nthWeekdayInMonth at h
  simp only at h
  split_ifs at h
  · exact mem_of_getElem? h
  · exact mem_of_getElem? h

theorem mem_byDayDates {y : Int} {m : Nat} (h : d ∈ byDayDates cal r y m) :
    ∃ k, cal.fromYmdOpt y m k = some d := by
  obtain ⟨bd, -, hd⟩ := mem_flatMap.mp h
  cases hn : bd.nth with
  | none =>
    simp only [hn] at hd
    exact mem_allWeekdaysInMonth hd
  | some n =>
    simp only [hn, Option.mem_toList] at hd
    exact mem_allWeekdaysInMonth (mem_nthWeekdayInMonth hd)

theorem mem_datesInMonth {s : D} {y : Int} {m : Nat} (h : d ∈ datesInMonth cal r s y m) :
    ∃ k, cal.fromYmdOpt y m k = some d := by
  unfold datesInMonth at h
  split_ifs at h
  · exact mem_byDayDates (mem_filter.mp h).1
  · exact mem_byDayDates h
  · obtain ⟨n, -, hn⟩ := mem_filterMap.mp h
    simp only at hn
    generalize (if 0 < n then n else (daysIn cal y m : Int) + n + 1) = day at hn
    split at hn
    · exact ⟨_, hn⟩
    · cases hn
  · exact ⟨_, Option.mem_toList.mp h⟩

/-! ## The periods of the walk -/

def periodAt (cal : Calendar D T) (r : RRule D T) (first : D) : Nat → Option D
  | 0 => some first
  | k + 1 => (periodAt cal r first k).bind (advance cal r)

/-- What holds of each step holds of every later period. -/
theorem periodAt_rel {R : D → D → Prop} (htrans : ∀ a b c, R a b → R b c → R a c)
    (hstep : ∀ a b, advance cal r a = some b → R a b) {first : D} {j k : Nat} (hjk : j < k)
    (hp : periodAt cal r first j = some p) (hq : periodAt cal r first k = some q) : R p q := by
  induction k, hjk using Nat.le_induction generalizing q with
  | base =>
    simp only [periodAt, hp, Option.bind_some] at hq
    exact hstep p q hq
  | succ k hjk ih =>
    obtain ⟨a, ha, haq⟩ := Option.bind_eq_some_iff.mp hq
    exact htrans p a q (ih ha) (hstep a q haq)

variable [LinearOrder D] [LinearOrder T] {start : NaiveDateTime D T}

/-! ## The calendar -/

/-- The months since the year 0, in one number. -/
def Calendar.monthIndex (cal : Calendar D T) (d : D) : Int := cal.year d * 12 + cal.month d

structure Calendar.Lawful (cal : Calendar D T) : Prop where
  daysSince_pos : ∀ d d', 0 < cal.daysSince d d' ↔ d' < d
  daysSince_add : ∀ a b c, cal.daysSince a b + cal.daysSince b c = cal.daysSince a c
  addDays : ∀ d n d', cal.checkedAddDays d n = some d' → cal.daysSince d' d = n
  addDays_total : ∀ d e (n : Nat), n ≤ cal.daysSince e d → (cal.checkedAddDays d n).isSome
  subDays : ∀ d n d', cal.checkedSubDays d n = some d' → cal.daysSince d d' = n
  subDays_mono : ∀ d d' n m, d ≤ d' → m ≤ n → (cal.checkedSubDays d n).isSome →
    (cal.checkedSubDays d' m).isSome
  weekday_eq : ∀ d d', (7 : Int) ∣ cal.daysSince d d' → cal.weekday d = cal.weekday d'
  month_range : ∀ d, 1 ≤ cal.month d ∧ cal.month d ≤ 12
  monthIndex_mono : ∀ d d', d ≤ d' → cal.monthIndex d ≤ cal.monthIndex d'
  addMonths : ∀ d n d', cal.checkedAddMonths d n = some d' →
    cal.monthIndex d' = cal.monthIndex d + n
  addMonths_total : ∀ d e (n : Nat), cal.monthIndex d + n ≤ cal.monthIndex e →
    (cal.checkedAddMonths d n).isSome
  /-- The months of the calendar are counted in 32 bits. -/
  monthIndex_lt : ∀ d e, cal.monthIndex e - cal.monthIndex d < 2 ^ 32
  fromYmd : ∀ y m k d, cal.fromYmdOpt y m k = some d → cal.year d = y ∧ cal.month d = m
  fromYo : ∀ y k d, cal.fromYoOpt y k = some d → cal.year d = y
  /-- The dates of an ISO year are before those of a later one. -/
  isoYear_lt : ∀ y w wd d y' w' wd' d', cal.fromIsoywdOpt y w wd = some d →
    cal.fromIsoywdOpt y' w' wd' = some d' → y < y' → d < d'
  /-- An ISO year starts at most three days before the year. -/
  isoYear_near : ∀ y w wd d d', cal.fromIsoywdOpt y w wd = some d → cal.year d' < y →
    -3 < cal.daysSince d d'
  /-- An ISO year ends before the year after the next. -/
  isoYear_before : ∀ y w wd d d', cal.fromIsoywdOpt y w wd = some d → y + 1 < cal.year d' → d < d'
  secondsSince_pos : ∀ t t', 0 < cal.secondsSince t t' ↔ t' < t
  secondsSince_add : ∀ s t u, cal.secondsSince s t + cal.secondsSince t u = cal.secondsSince s u
  addSeconds : ∀ t n t', cal.checkedAddSeconds t n = some t' → cal.secondsSince t' t = n
  addSeconds_total : ∀ t u (n : Nat), n ≤ cal.secondsSince u t → (cal.checkedAddSeconds t n).isSome
  midnight_le : ∀ t t', cal.fromHmsOpt 0 0 0 = some t → t ≤ t'
  trySeconds : ∀ n m, cal.trySeconds n = some m → m = n

namespace Calendar.Lawful

theorem daysSince_self (law : cal.Lawful) (d : D) : cal.daysSince d d = 0 := by
  have := law.daysSince_add d d d
  omega

theorem daysSince_nonneg (law : cal.Lawful) : 0 ≤ cal.daysSince d d' ↔ d' ≤ d := by
  have hpos := law.daysSince_pos d' d
  have hadd := law.daysSince_add d d' d
  rw [law.daysSince_self] at hadd
  rw [← not_lt (a := d), ← hpos]
  omega

theorem lt_of_monthIndex (law : cal.Lawful) (h : cal.monthIndex d < cal.monthIndex d') :
    d < d' := by
  by_contra hle
  have := law.monthIndex_mono d' d (not_lt.mp hle)
  omega

theorem lt_of_year (law : cal.Lawful) (h : cal.year d < cal.year d') : d < d' := by
  apply law.lt_of_monthIndex
  have := law.month_range d
  have := law.month_range d'
  unfold Calendar.monthIndex
  omega

/-- Whole years leave the month as it is. -/
theorem year_addMonths (law : cal.Lawful) {n : Nat}
    (h : cal.checkedAddMonths d (n * 12) = some d') : cal.year d' = cal.year d + n := by
  have hindex := law.addMonths d _ d' h
  have := law.month_range d
  have := law.month_range d'
  unfold Calendar.monthIndex at hindex
  push_cast at hindex
  omega

theorem lt_addSeconds (law : cal.Lawful) {t t' : NaiveDateTime D T} {n : Nat}
    (h : cal.checkedAddSeconds t n = some t') (hn : 0 < n) : t < t' := by
  rw [← law.secondsSince_pos, law.addSeconds _ _ _ h]
  omega

end Calendar.Lawful

theorem NaiveDateTime.lt_of_date {x y : NaiveDateTime D T} (h : x.date < y.date) : x < y := by
  rw [Prod.Lex.lt_iff]
  exact .inl h

theorem NaiveDateTime.date_le {x y : NaiveDateTime D T} (h : x ≤ y) : x.date ≤ y.date := by
  by_contra hlt
  exact absurd h (not_le.mpr (NaiveDateTime.lt_of_date (not_le.mp hlt)))

/-! ## Candidates -/

/-- The candidates of a period, apart from what they cost. -/
def candidates (cal : Calendar D T) (r : RRule D T) (start : NaiveDateTime D T) (period : D) :
    List (NaiveDateTime D T) :=
  selectPositions r.bySetPos
    (sortDedup ((clockTimes cal r start (keptDates cal r start period)).filterMap (andHmsOpt cal)))

theorem foldlM_pushCandidate {l : List (D × Nat × Nat × Nat)} :
    ∀ {acc acc' : List (NaiveDateTime D T) × ExpansionBudget},
      l.foldlM (pushCandidate cal) acc = .ok acc' →
      acc'.1 = acc.1 ++ l.filterMap (andHmsOpt cal) := by
  induction l with
  | nil =>
    intro acc acc' h
    cases h
    simp
  | cons c l ih =>
    intro acc acc' h
    rw [foldlM_cons] at h
    simp only [pushCandidate] at h
    cases hb : acc.2.candidate cal with
    | error e => simp [hb, bind, Except.bind] at h
    | ok b =>
      simp only [hb, bind, Except.bind] at h
      rw [ih h]
      cases hc : andHmsOpt cal c <;> simp [hc]

theorem periodCandidates_eq {cost : RuleCost} {b b' : ExpansionBudget}
    {out : List (NaiveDateTime D T)}
    (h : periodCandidates cal r cost start p b = .ok (out, b')) :
    out = candidates cal r start p := by
  unfold periodCandidates at h
  cases hm : checkedMul (periodDates cal r start p).length cost.filter with
  | none => simp [hm] at h
  | some filtering =>
    simp only [hm, bind, Except.bind] at h
    cases hw : b.work filtering with
    | error e => simp [hw] at h
    | ok b1 =>
      simp only [hw] at h
      cases hf : (clockTimes cal r start (keptDates cal r start p)).foldlM (pushCandidate cal)
        ([], b1) with
      | error e => simp [hf] at h
      | ok acc =>
        simp only [hf, Except.ok.injEq, Prod.mk.injEq] at h
        rw [← h.1, foldlM_pushCandidate hf]
        rfl

theorem selectPositions_subset {l : List Int} {out : List (NaiveDateTime D T)}
    {x : NaiveDateTime D T} (h : x ∈ selectPositions l out) : x ∈ out := by
  unfold selectPositions at h
  split at h
  · obtain ⟨i, -, hi⟩ := mem_filterMap.mp h
    exact mem_of_getElem? hi
  · exact h

/-- Increasing positions of an increasing list. -/
theorem selectPositions_pairwise {l : List Int} {out : List (NaiveDateTime D T)}
    (h : out.Pairwise (· < ·)) : (selectPositions l out).Pairwise (· < ·) := by
  unfold selectPositions
  split
  · rw [pairwise_filterMap]
    refine (sortDedup_pairwise _).imp fun {i j} hij x hx y hy => ?_
    obtain ⟨hi, rfl⟩ := List.getElem?_eq_some_iff.mp hx
    obtain ⟨hj, rfl⟩ := List.getElem?_eq_some_iff.mp hy
    exact pairwise_iff_getElem.mp h i j hi hj hij
  · exact h

theorem candidates_pairwise (cal : Calendar D T) (r : RRule D T) (start : NaiveDateTime D T)
    (p : D) : (candidates cal r start p).Pairwise (· < ·) :=
  selectPositions_pairwise (sortDedup_pairwise _)

theorem date_mem_periodDates {x : NaiveDateTime D T} (h : x ∈ candidates cal r start p) :
    x.date ∈ periodDates cal r start p := by
  have hx := selectPositions_subset h
  rw [mem_sortDedup, mem_filterMap] at hx
  obtain ⟨c, hc, htime⟩ := hx
  simp only [clockTimes, mem_flatMap, mem_map] at hc
  obtain ⟨d, hd, h, -, m, -, s, -, rfl⟩ := hc
  obtain ⟨t, -, rfl⟩ := Option.map_eq_some_iff.mp htime
  exact (mem_filter.mp hd).1

/-! ## Dates of a period -/

theorem mem_weekDates (law : cal.Lawful) (h : d ∈ weekDates cal r p) :
    r.byDay = [] ∧ d = p ∨
      r.byDay ≠ [] ∧ 0 ≤ cal.daysSince d (weekStartOf cal p r.wkst) ∧
      cal.daysSince d (weekStartOf cal p r.wkst) < 7 := by
  unfold weekDates at h
  split at h
  case isTrue hnil => exact .inl ⟨hnil, mem_singleton.mp h⟩
  case isFalse hne =>
    obtain ⟨i, hi, hadd⟩ := mem_filterMap.mp (mem_filter.mp h).1
    have := law.addDays _ _ _ hadd
    rw [mem_range] at hi
    exact .inr ⟨hne, by omega, by omega⟩

/-- The week of a period starts at most six days before it. -/
theorem daysSince_weekStartOf (law : cal.Lawful) (wkst : Weekday) :
    0 ≤ cal.daysSince p (weekStartOf cal p wkst) ∧
    cal.daysSince p (weekStartOf cal p wkst) < 7 := by
  simp only [weekStartOf]
  generalize hback : (((cal.weekday p).numDaysFromMonday : Int) - wkst.numDaysFromMonday) % 7 = back
  cases hsub : cal.checkedSubDays p back.toNat with
  | none => simp [law.daysSince_self]
  | some d =>
    have := law.subDays _ _ _ hsub
    simp only [Option.getD_some]
    omega

theorem mem_monthDates (law : cal.Lawful) (h : d ∈ monthDates cal r start p) :
    cal.monthIndex d = cal.monthIndex p := by
  have hd : d ∈ datesInMonth cal r start.date (cal.year p) (cal.month p) := by
    unfold monthDates at h
    rw [mem_sortDedup] at h
    split at h
    · exact (mem_filter.mp h).1
    · exact h
  obtain ⟨k, hk⟩ := mem_datesInMonth hd
  obtain ⟨hy, hm⟩ := law.fromYmd _ _ _ _ hk
  simp only [Calendar.monthIndex, hy, hm]

theorem mem_monthsDates (law : cal.Lawful) {s : D} {y : Int} {months : List Nat}
    (h : d ∈ monthsDates cal r s y months) : cal.year d = y := by
  -- every date of the list so far is in the year
  have hrun : ∀ (ms : List Nat) (out : List D), (∀ e ∈ out, cal.year e = y) →
      ∀ e ∈ ms.foldl (fun out m =>
        if r.byDay ≠ [] then
          let out := out ++ byDayDates cal r y m
          if r.byMonthDay ≠ [] then out.filter (monthDayMatches cal r.byMonthDay) else out
        else out ++ datesInMonth cal r s y m) out, cal.year e = y := by
    intro ms
    induction ms with
    | nil => exact fun out hout => hout
    | cons m ms ih =>
      intro out hout
      apply ih
      intro e he
      have hmem : e ∈ out ∨ ∃ k, cal.fromYmdOpt y m k = some e := by
        simp only at he
        split_ifs at he
        · exact (mem_append.mp (mem_filter.mp he).1).imp_right mem_byDayDates
        · exact (mem_append.mp he).imp_right mem_byDayDates
        · exact (mem_append.mp he).imp_right mem_datesInMonth
      rcases hmem with hmem | ⟨k, hk⟩
      · exact hout e hmem
      · exact (law.fromYmd _ _ _ _ hk).1
  exact hrun months [] (by simp) d h

theorem mem_yearDates (law : cal.Lawful) (h : d ∈ yearDates cal r start p) :
    (r.byYearDay ≠ [] ∨ r.byWeekNo = []) ∧ cal.year d = cal.year p ∨
      r.byWeekNo ≠ [] ∧ ∃ w wd, cal.fromIsoywdOpt (cal.year p) w wd = some d := by
  unfold yearDates at h
  rw [mem_sortDedup] at h
  split at h
  case isTrue hnone =>
    rw [not_or, not_ne_iff, not_ne_iff] at hnone
    exact .inl ⟨.inr hnone.2.2, mem_monthsDates law h⟩
  case isFalse =>
    rcases mem_append.mp h with h | h
    · obtain ⟨n, hn, hd⟩ := mem_filterMap.mp h
      simp only at hd
      generalize (if isLeap cal (cal.year p) then (366 : Int) else 365) = diy at hd
      generalize (if 0 < n then n else diy + n + 1) = doy at hd
      split at hd
      · exact .inl ⟨.inl (ne_nil_of_mem hn), law.fromYo _ _ _ hd⟩
      · cases hd
    · obtain ⟨n, hn, hd⟩ := mem_flatMap.mp h
      simp only at hd
      generalize (if 0 < n then n else (weeksInIsoYear cal (cal.year p) : Int) + n + 1) = wk at hd
      split at hd
      · simp at hd
      · obtain ⟨wd, -, hwd⟩ := mem_filterMap.mp hd
        exact .inr ⟨ne_nil_of_mem hn, _, wd, hwd⟩

/-! ## Later periods -/

variable {j k : Nat} {first : D}

theorem periodAt_days (law : cal.Lawful)
    (hadvance : ∀ a, advance cal r a = cal.checkedAddDays a (max r.interval 1))
    (hjk : j < k) (hp : periodAt cal r first j = some p) (hq : periodAt cal r first k = some q) :
    p < q := by
  refine periodAt_rel (fun _ _ _ => lt_trans) (fun a b hab => ?_) hjk hp hq
  rw [hadvance] at hab
  rw [← law.daysSince_pos, law.addDays _ _ _ hab]
  omega

theorem periodAt_weekly (law : cal.Lawful) (hf : r.freq = .weekly) (hjk : j < k)
    (hp : periodAt cal r first j = some p) (hq : periodAt cal r first k = some q) :
    7 ≤ cal.daysSince q p ∧ (7 : Int) ∣ cal.daysSince q p := by
  refine periodAt_rel (R := fun a b => 7 ≤ cal.daysSince b a ∧
    (7 : Int) ∣ cal.daysSince b a) ?_ (fun a b hab => ?_) hjk hp hq
  · rintro a b c ⟨hab, hdab⟩ ⟨hbc, hdbc⟩
    have := law.daysSince_add c b a
    exact ⟨by omega, this ▸ dvd_add hdbc hdab⟩
  · simp only [advance, hf, checkedMul, bind, Option.bind_eq_some_iff] at hab
    obtain ⟨days, hdays, hadd⟩ := hab
    split at hdays
    · cases hdays
      rw [law.addDays _ _ _ hadd]
      exact ⟨by omega, by omega⟩
    · cases hdays

theorem periodAt_monthly (law : cal.Lawful) (hf : r.freq = .monthly) (hjk : j < k)
    (hp : periodAt cal r first j = some p) (hq : periodAt cal r first k = some q) :
    cal.monthIndex p < cal.monthIndex q := by
  refine periodAt_rel (R := fun a b => cal.monthIndex a < cal.monthIndex b) (fun _ _ _ => lt_trans)
    (fun a b hab => ?_) hjk hp hq
  simp only [advance, hf] at hab
  rw [law.addMonths _ _ _ hab]
  omega

theorem periodAt_yearly (law : cal.Lawful) (hf : r.freq = .yearly) (hjk : j < k)
    (hp : periodAt cal r first j = some p) (hq : periodAt cal r first k = some q) :
    cal.year p < cal.year q := by
  refine periodAt_rel (R := fun a b => cal.year a < cal.year b) (fun _ _ _ => lt_trans)
    (fun a b hab => ?_) hjk hp hq
  simp only [advance, hf] at hab
  split at hab
  · rw [law.year_addMonths hab]
    omega
  · cases hab

theorem periodAt_lt (law : cal.Lawful) (hjk : j < k) (hp : periodAt cal r first j = some p)
    (hq : periodAt cal r first k = some q) : p < q := by
  cases hfreq : r.freq
  case secondly | minutely | hourly | daily =>
    exact periodAt_days law (fun a => by simp only [advance, hfreq]) hjk hp hq
  case weekly =>
    have hweek := periodAt_weekly law hfreq hjk hp hq
    rw [← law.daysSince_pos]
    omega
  case monthly => exact law.lt_of_monthIndex (periodAt_monthly law hfreq hjk hp hq)
  case yearly => exact law.lt_of_year (periodAt_yearly law hfreq hjk hp hq)

theorem le_daysSince (law : cal.Lawful) (hp : periodAt cal r first k = some p) :
    k ≤ cal.daysSince p first := by
  induction k generalizing p with
  | zero =>
    cases hp
    exact (law.daysSince_self first).ge
  | succ k ih =>
    obtain ⟨a, ha, -⟩ := Option.bind_eq_some_iff.mp hp
    have hpos := (law.daysSince_pos p a).mpr (periodAt_lt law k.lt_succ_self ha hp)
    have hadd := law.daysSince_add p a first
    have hle := ih ha
    omega

/-! ## Candidates of two periods -/

/-- The candidates of a later period may be before its nominal date, but not a week before any
earlier period. -/
theorem daysSince_later (law : cal.Lawful) (hjk : j < k)
    (hp : periodAt cal r first j = some p) (hq : periodAt cal r first k = some q)
    {y : NaiveDateTime D T} (hy : y ∈ candidates cal r start q) : -7 < cal.daysSince y.date p := by
  have hd := date_mem_periodDates hy
  unfold periodDates at hd
  have after : p < y.date → -7 < cal.daysSince y.date p := fun hlt => by
    have := (law.daysSince_pos y.date p).mpr hlt
    omega
  cases hfreq : r.freq <;> simp only [hfreq] at hd
  case secondly | minutely | hourly | daily =>
    apply after
    rw [mem_singleton.mp hd]
    exact periodAt_days law (fun a => by simp only [advance, hfreq]) hjk hp hq
  case weekly =>
    have hweek := (periodAt_weekly law hfreq hjk hp hq).1
    rcases mem_weekDates law hd with ⟨-, heq⟩ | ⟨-, hge, -⟩
    · rw [heq]
      omega
    · have hstart := daysSince_weekStartOf law (p := q) r.wkst
      have h1 := law.daysSince_add y.date (weekStartOf cal q r.wkst) p
      have h2 := law.daysSince_add q (weekStartOf cal q r.wkst) p
      omega
  case monthly =>
    apply after
    apply law.lt_of_monthIndex
    rw [mem_monthDates law hd]
    exact periodAt_monthly law hfreq hjk hp hq
  case yearly =>
    have hyear := periodAt_yearly law hfreq hjk hp hq
    rcases mem_yearDates law hd with ⟨-, hsame⟩ | ⟨-, w, wd, hiso⟩
    · exact after (law.lt_of_year (hsame ▸ hyear))
    · have := law.isoYear_near _ _ _ _ _ hiso hyear
      omega

/-- Weeks whose start can be represented do not overlap. -/
theorem daysSince_weekStart (law : cal.Lawful) (wkst : Weekday)
    (hsub : (cal.checkedSubDays p 6).isSome)
    (hpq : 7 ≤ cal.daysSince q p ∧ (7 : Int) ∣ cal.daysSince q p) :
    7 ≤ cal.daysSince (weekStartOf cal q wkst) (weekStartOf cal p wkst) := by
  simp only [weekStartOf, law.weekday_eq q p hpq.2]
  generalize hback : ((((cal.weekday p).numDaysFromMonday : Int) - wkst.numDaysFromMonday) %
    7).toNat = back
  have hback6 : back ≤ 6 := by omega
  have hle : p ≤ q := law.daysSince_nonneg.mp (by omega)
  obtain ⟨a, ha⟩ := Option.isSome_iff_exists.mp (law.subDays_mono p p 6 back le_rfl hback6 hsub)
  obtain ⟨b, hb⟩ := Option.isSome_iff_exists.mp (law.subDays_mono p q 6 back hle hback6 hsub)
  have h1 := law.subDays _ _ _ ha
  have h2 := law.subDays _ _ _ hb
  have h3 := law.daysSince_add q b a
  have h4 := law.daysSince_add q p a
  simp only [ha, hb, Option.getD_some]
  omega

/-- Only two kinds of rules can have candidates out of order. -/
theorem candidates_lt (law : cal.Lawful)
    (hyearly : ¬(r.freq = .yearly ∧ r.byYearDay ≠ [] ∧ r.byWeekNo ≠ []))
    (hweekly : ¬(r.freq = .weekly ∧ r.byDay ≠ [] ∧ cal.checkedSubDays first 6 = none)) (hjk : j < k)
    (hp : periodAt cal r first j = some p) (hq : periodAt cal r first k = some q)
    {x y : NaiveDateTime D T}
    (hx : x ∈ candidates cal r start p) (hy : y ∈ candidates cal r start q) : x < y := by
  apply NaiveDateTime.lt_of_date
  have hdx := date_mem_periodDates hx
  have hdy := date_mem_periodDates hy
  unfold periodDates at hdx hdy
  cases hfreq : r.freq <;> simp only [hfreq] at hdx hdy
  case secondly | minutely | hourly | daily =>
    rw [mem_singleton.mp hdx, mem_singleton.mp hdy]
    exact periodAt_days law (fun a => by simp only [advance, hfreq]) hjk hp hq
  case weekly =>
    have hweek := periodAt_weekly law hfreq hjk hp hq
    rcases mem_weekDates law hdx with ⟨hnil, hex⟩ | ⟨hne, hx0, hx7⟩
    · rcases mem_weekDates law hdy with ⟨-, hey⟩ | ⟨hne, -⟩
      · rw [hex, hey, ← law.daysSince_pos]
        omega
      · exact absurd hnil hne
    · rcases mem_weekDates law hdy with ⟨hnil, -⟩ | ⟨-, hy0, hy7⟩
      · exact absurd hnil hne
      · have hsub : (cal.checkedSubDays first 6).isSome := by
          rw [Option.isSome_iff_ne_none]
          exact fun hnone => hweekly ⟨hfreq, hne, hnone⟩
        have hstart : first ≤ p := by
          rcases Nat.eq_zero_or_pos j with rfl | hj
          · simp only [periodAt, Option.some.injEq] at hp
            exact hp.le
          · have := (periodAt_weekly law hfreq hj rfl hp).1
            exact law.daysSince_nonneg.mp (by omega)
        have hdist :=
          daysSince_weekStart law r.wkst (law.subDays_mono _ p 6 6 hstart le_rfl hsub) hweek
        rw [← law.daysSince_pos]
        have h1 := law.daysSince_add y.date (weekStartOf cal q r.wkst) (weekStartOf cal p r.wkst)
        have h2 := law.daysSince_add y.date x.date (weekStartOf cal p r.wkst)
        omega
  case monthly =>
    apply law.lt_of_monthIndex
    rw [mem_monthDates law hdx, mem_monthDates law hdy]
    exact periodAt_monthly law hfreq hjk hp hq
  case yearly =>
    have hyear := periodAt_yearly law hfreq hjk hp hq
    have hone : ¬(r.byYearDay ≠ [] ∧ r.byWeekNo ≠ []) := fun h => hyearly ⟨hfreq, h⟩
    rcases mem_yearDates law hdx with ⟨hx', hxy⟩ | ⟨hx', w, wd, hxi⟩
    · rcases mem_yearDates law hdy with ⟨-, hyy⟩ | ⟨hy', -⟩
      · apply law.lt_of_year
        rw [hxy, hyy]
        exact hyear
      · exact absurd ⟨hx'.resolve_right hy', hy'⟩ hone
    · rcases mem_yearDates law hdy with ⟨hy', -⟩ | ⟨-, w', wd', hyi⟩
      · exact absurd ⟨hy'.resolve_right hx', hx'⟩ hone
      · exact law.isoYear_lt _ _ _ _ _ _ _ _ hxi hyi hyear

end Thegn.Recur
