import Thegn.Lib.Scan
import Thegn.Recur.Count

set_option autoImplicit false

/-! # What `UNTIL` leaves out

The walk over the periods returns at the first candidate past `UNTIL`; the walk over the clock goes
on to a day past the projected bound, since instants can go back where the nominal times go on. So
each leaves out just what is past `UNTIL` exactly when nothing in the window that is not past it
comes after the place where the walk ends.
-/

namespace Thegn.Recur

open Accumulate List Option

variable {D T : Type} [LinearOrder D] [LinearOrder T] {cal : Calendar D T} {r : RRule D T}
  {zone : Option (Zone D T)}
  {start : NaiveDateTime D T} {first : D} {w : DateWindow D}

/-! ## The loop over the periods -/

theorem visit_scanned (hc : r.count = none) {dts : List (NaiveDateTime D T)} :
    ∀ {out : List (NaiveDateTime D T)} {b b' : ExpansionBudget} {v : Visit D T},
      visit cal r zone start w dts 0 out b = .ok (v, b') →
      ((∃ z ∈ dts.filter (start ≤ ·), pastUntil cal r zone z = true) ∧
          v = .finished (out ++
            ((dts.filter (start ≤ ·)).takeWhile (!pastUntil cal r zone ·)).filter (InWindow w))) ∨
        ((∀ z ∈ dts.filter (start ≤ ·), pastUntil cal r zone z = false) ∧
          v = .going 0 (out ++ (dts.filter (start ≤ ·)).filter (InWindow w))) := by
  induction dts with
  | nil =>
    intro out b b' v h
    cases h
    exact .inr ⟨by simp, by simp⟩
  | cons dt dts ih =>
    intro out b b' v h
    simp only [visit, hc, any_none, Bool.false_eq_true, if_false, isSome_none] at h
    by_cases hdt : dt < start
    · rw [if_pos hdt] at h
      rw [filter_cons_of_neg (by simpa using hdt)]
      exact ih h
    rw [if_neg hdt] at h
    rw [filter_cons_of_pos (by simpa using hdt)]
    cases hpast : pastUntil cal r zone dt with
    | true =>
      rw [hpast, if_pos rfl] at h
      cases h
      exact .inl ⟨⟨dt, by simp, hpast⟩, by simp [hpast]⟩
    | false =>
      rw [hpast, if_neg Bool.false_ne_true] at h
      -- the candidate is taken when it is in the window
      have hnext : ∃ b, visit cal r zone start w dts 0 (out ++ [dt].filter (InWindow w)) b =
        .ok (v, b') := by
        split at h
        case isTrue hin =>
          obtain ⟨b1, -, h⟩ := bind_eq_ok.mp h
          exact ⟨b1, by rw [filter_cons_of_pos (by simpa [InWindow] using hin)]; exact h⟩
        case isFalse hout =>
          exact ⟨b, by rw [filter_cons_of_neg (by simpa [InWindow] using hout)]; simpa using h⟩
      obtain ⟨b1, hnext⟩ := hnext
      have hcons : ∀ l : List (NaiveDateTime D T),
          (dt :: l).filter (InWindow w) = [dt].filter (InWindow w) ++ l.filter (InWindow w) := by
        intro l
        rw [← filter_append, singleton_append]
      rcases ih hnext with ⟨⟨z, hz, hzpast⟩, rfl⟩ | ⟨hnone, rfl⟩
      · refine .inl ⟨⟨z, .tail _ hz, hzpast⟩, ?_⟩
        rw [takeWhile_cons_of_pos (by simp [hpast]),
          hcons ((dts.filter (start ≤ ·)).takeWhile (!pastUntil cal r zone ·)), append_assoc]
      · refine .inr ⟨fun z hz => ?_, by rw [hcons (dts.filter (start ≤ ·)), append_assoc]⟩
        rcases mem_cons.mp hz with rfl | hz
        · exact hpast
        · exact hnone z hz

theorem expandPeriods_scanned (law : cal.Lawful) (hc : r.count = none) {cost : RuleCost}
    {fuel : Nat} :
    ∀ {k : Nat} {period : D} {b b' : ExpansionBudget} {out : List (NaiveDateTime D T)},
      periodAt cal r first k = some period →
      (∀ z ∈ walked (periodGroup cal r start first) k, pastUntil cal r zone z = false) →
      expandPeriods cal r zone cost start w fuel period 0
        ((walked (periodGroup cal r start first) k).filter (InWindow w))
        b = .ok (out, b') →
      Scanned (periodGroup cal r start first) (pastUntil cal r zone) (InWindow w) out := by
  induction fuel with
  | zero => exact fun _ _ h => nomatch h
  | succ fuel ih =>
    intro k period b b' out hk hnone h
    rw [expandPeriods] at h
    obtain ⟨b1, -, h⟩ := bind_eq_ok.mp h
    obtain ⟨⟨dts, b2⟩, hdts, h⟩ := bind_eq_ok.mp h
    obtain ⟨⟨v, b3⟩, hv, h⟩ := bind_eq_ok.mp h
    have hgroup : dts.filter (start ≤ ·) = periodGroup cal r start first k := by
      simp [periodGroup, hk, periodCandidates_eq hdts]
    have hwalked : walked (periodGroup cal r start first) (k + 1) =
        walked (periodGroup cal r start first) k ++ periodGroup cal r start first k :=
          walked_succ _ _
    have hvisit := visit_scanned hc hv
    rw [hgroup] at hvisit
    rcases hvisit with ⟨⟨z, hz, hpast⟩, rfl⟩ | ⟨hgroupNone, rfl⟩
    · cases h
      refine ⟨k + 1, ?_, .inl ⟨z, hwalked ▸ mem_append_right _ hz, hpast⟩⟩
      rw [hwalked, takeWhile_append_of_pos (by simpa using hnone), filter_append]
    · rw [← filter_append, ← hwalked] at h
      have hnone' : ∀ z ∈ walked (periodGroup cal r start first) (k + 1),
        pastUntil cal r zone z = false := by
        intro z hz
        rw [hwalked, mem_append] at hz
        exact hz.elim (hnone z) (hgroupNone z)
      have hstop : (∀ j, k < j → ∀ y ∈ periodGroup cal r start first j, InWindow w y = false) →
          out = (walked (periodGroup cal r start first) (k + 1)).filter (InWindow w) →
          Scanned (periodGroup cal r start first) (pastUntil cal r zone) (InWindow w) out := by
        rintro hfar rfl
        refine ⟨k + 1, ?_, .inr hfar⟩
        rw [takeWhile_eq_self_iff.mpr (by simpa using hnone')]
      simp only at h
      split at h
      case isTrue hpast =>
        cases h
        refine hstop (fun j hj y hy => ?_) rfl
        have hfar := not_within_of_pastWindow law hpast hj hk hy
        rw [← Bool.not_eq_true]
        exact fun hin => Bool.false_ne_true (hfar ▸ within_of_inWindow hin)
      case isFalse =>
        cases hnext : advance cal r period with
        | none =>
          simp only [hnext, Except.ok.injEq, Prod.mk.injEq] at h
          refine hstop (fun j hj y hy => ?_) h.1.symm
          obtain ⟨-, q, hq, -⟩ := mem_periodGroup.mp hy
          have hend : periodAt cal r first (k + 1) = none := by simp [periodAt, hk, hnext]
          rw [periodAt_none hj hend] at hq
          cases hq
        | some next =>
          simp only [hnext] at h
          split at h
          · cases h
          · exact ih (by simp [periodAt, hk, hnext]) hnone' h

/-! ## The loop over the ticks -/

def ticks (cal : Calendar D T) (step : Nat) (first : NaiveDateTime D T) (k : Nat) :
    List (NaiveDateTime D T) :=
  (tickAt cal step first k).toList

/-- A tick at which the walk over the clock ends. -/
def endsWalk (cal : Calendar D T) (r : RRule D T) (zone : Option (Zone D T))
    (x : NaiveDateTime D T) : Bool :=
  pastUntil cal r zone x && safelyPast cal r zone x

/-- A tick that the filters keep, in the window. -/
def Shown (cal : Calendar D T) (r : RRule D T) (w : DateWindow D) (x : NaiveDateTime D T) : Bool :=
  keeps cal r x && InWindow w x

theorem expandTicks_scanned (law : cal.Lawful) (hc : r.count = none) {cost : RuleCost}
    {step steps : Nat} (hstep : 0 < step) {tick : NaiveDateTime D T} :
    ∀ {k : Nat} {cur : NaiveDateTime D T} {b b' : ExpansionBudget} {out : List (NaiveDateTime D T)},
      tickAt cal step tick k = some cur →
      (∀ z ∈ walked (ticks cal step tick) k, endsWalk cal r zone z = false) →
      expandTicks cal r zone cost step w steps cur 0
        ((walked (ticks cal step tick) k).filter fun x => Shown cal r w x &&
          !pastUntil cal r zone x) b = .ok (out, b') →
      Scanned (ticks cal step tick) (endsWalk cal r zone)
      (fun x => Shown cal r w x && !pastUntil cal r zone x) out := by
  induction steps with
  | zero => exact fun _ _ h => nomatch h
  | succ steps ih =>
    intro k cur b b' out hk hnone h
    rw [expandTicks] at h
    obtain ⟨b1, -, h⟩ := bind_eq_ok.mp h
    have hticks : ticks cal step tick k = [cur] := by simp [ticks, hk]
    have hwalked : walked (ticks cal step tick) (k + 1) = walked (ticks cal step tick) k ++
      [cur] := by
      rw [walked_succ, hticks]
    have hpass : (walked (ticks cal step tick) k).takeWhile (!endsWalk cal r zone ·) =
      walked (ticks cal step tick) k := takeWhile_eq_self_iff.mpr (by simpa using hnone)
    -- a tick that does not end the walk is followed by the next one, or by the end of the calendar
    have hgo : ∀ {b : ExpansionBudget} {res}, endsWalk cal r zone cur = false →
        (cal.checkedAddSeconds cur step = none →
          res = .ok ((walked (ticks cal step tick) (k + 1)).filter fun x =>
          Shown cal r w x && !pastUntil cal r zone x, b)) →
        (∀ next, cal.checkedAddSeconds cur step = some next → res =
          expandTicks cal r zone cost step w steps next 0
            ((walked (ticks cal step tick) (k + 1)).filter
            fun x => Shown cal r w x && !pastUntil cal r zone x) b) → res = .ok (out, b') →
        Scanned (ticks cal step tick) (endsWalk cal r zone) (fun x => Shown cal r w x &&
          !pastUntil cal r zone x)
          out := by
      intro b res hcur hend hgoes h
      have hnone' : ∀ z ∈ walked (ticks cal step tick) (k + 1), endsWalk cal r zone z = false := by
        intro z hz
        rw [hwalked, mem_append, mem_singleton] at hz
        rcases hz with hz | rfl
        · exact hnone z hz
        · exact hcur
      cases hnext : cal.checkedAddSeconds cur step with
      | none =>
        simp only [hend hnext, Except.ok.injEq, Prod.mk.injEq] at h
        refine ⟨k + 1, ?_, .inr fun j hj y hy => ?_⟩
        · rw [takeWhile_eq_self_iff.mpr (by simpa using hnone')]
          exact h.1.symm
        · have hend : tickAt cal step tick (k + 1) = none := by simp [tickAt, hk, hnext]
          rw [ticks, tickAt_none hj hend] at hy
          cases hy
      | some next =>
        rw [hgoes next hnext] at h
        exact ih (by simp [tickAt, hk, hnext]) hnone' h
    split at h
    case isTrue hpast =>
      have hskip : (walked (ticks cal step tick) (k + 1)).filter (fun x => Shown cal r w x &&
        !pastUntil cal r zone x) =
          (walked (ticks cal step tick) k).filter (fun x => Shown cal r w x &&
            !pastUntil cal r zone x) := by
        rw [hwalked, filter_append]
        simp [hpast]
      split at h
      case isTrue hsafe =>
        cases h
        have hends : endsWalk cal r zone cur = true := by simp [endsWalk, hpast, hsafe]
        refine ⟨k + 1, ?_, .inl ⟨cur, by simp [hwalked], hends⟩⟩
        rw [hwalked, takeWhile_append_of_pos (by simpa using hnone)]
        simp [hends]
      case isFalse hsafe =>
        rw [← hskip] at h
        exact hgo (by simp [endsWalk, hsafe]) (fun hn => by rw [hn]) (fun next hn => by rw [hn]) h
    case isFalse hpast =>
      have hcur : endsWalk cal r zone cur = false := by simp [endsWalk, hpast]
      split at h
      case isTrue hto =>
        cases h
        refine ⟨k, by rw [hpass], .inr fun j hj y hy => ?_⟩
        have hy : tickAt cal step tick j = some y := by simpa [ticks] using hy
        have hfar : w.to_ < y.date := by
          rcases hj.lt_or_eq with hj | rfl
          · exact hto.trans_le (NaiveDateTime.date_le (tickAt_lt law hstep hj hk hy).le)
          · rw [hk, Option.some.injEq] at hy
            exact hy ▸ hto
        have hout : InWindow w y = false := by
          rw [← Bool.not_eq_true]
          exact fun hin => Bool.false_ne_true (not_within hfar ▸ within_of_inWindow hin)
        simp [Shown, hout]
      case isFalse hto =>
        obtain ⟨⟨v, b2⟩, hv, h⟩ := bind_eq_ok.mp h
        have hvisit : v = .going 0
            ((walked (ticks cal step tick) (k + 1)).filter fun x => Shown cal r w x &&
              !pastUntil cal r zone x) := by
          rw [hwalked, filter_append]
          simp only [visitTick, hc, any_none, Bool.false_eq_true, if_false, isSome_none] at hv
          split at hv
          case isTrue hkeep =>
            split at hv
            case isTrue hfrom =>
              obtain ⟨b3, -, hv⟩ := bind_eq_ok.mp hv
              cases hv
              simp [Shown, InWindow, DateWindow.contains, hkeep, hfrom, not_lt.mp hto, hpast]
            case isFalse hfrom =>
              cases hv
              simp [Shown, InWindow, DateWindow.contains, hfrom]
          case isFalse hkeep =>
            cases hv
            simp [Shown, hkeep]
        subst hvisit
        exact hgo hcur (fun hn => by rw [hn]) (fun next hn => by rw [hn]) h

/-! ## The rule -/

/-- The ticks of the walk over the clock, or the candidates of the periods, from where the walk
begins. -/
def walkGroups (cal : Calendar D T) (r : RRule D T) (start : NaiveDateTime D T) (w : DateWindow D) :
    Nat → List (NaiveDateTime D T) :=
  if r.freq.isSubdaily then
    match firstTick cal r start w.from_ (tickStep r) with
    | .ok tick => ticks cal (tickStep r) tick
    | .error _ => fun _ => []
  else periodGroup cal r start (initialPeriod cal r start.date w.from_)

/-- Where the walk ends: at the first candidate past `UNTIL`, or at the first tick past it that is
safely so. -/
def stopsAt (cal : Calendar D T) (r : RRule D T) (zone : Option (Zone D T))
    (x : NaiveDateTime D T) : Bool :=
  if r.freq.isSubdaily then endsWalk cal r zone x else pastUntil cal r zone x

/-- In the window, and for a tick kept by the filters. -/
def shownIn (cal : Calendar D T) (r : RRule D T) (w : DateWindow D)
    (x : NaiveDateTime D T) : Bool :=
  if r.freq.isSubdaily then Shown cal r w x else InWindow w x

theorem expandRule_scanned (law : cal.Lawful) (hc : r.count = none) {b b' : ExpansionBudget}
    {out : List (NaiveDateTime D T)} (h : expandRule cal r zone start w b = .ok (out, b')) :
    Scanned (walkGroups cal r start w) (stopsAt cal r zone) (fun x => shownIn cal r w x &&
      !pastUntil cal r zone x)
      out := by
  unfold expandRule at h
  unfold walkGroups stopsAt shownIn
  cases hcost : RuleCost.of r with
  | none => simp [hcost] at h
  | some cost =>
    simp only [hcost] at h
    cases hsub : r.freq.isSubdaily with
    | true =>
      rw [hsub, if_pos rfl] at h
      simp only [if_true]
      obtain ⟨tick, htick, h⟩ := expandSubdaily_eq_ok law h
      rw [htick]
      exact expandTicks_scanned law hc (tickStep_pos r) (k := 0) rfl (by simp) (by simpa using h)
    | false =>
      rw [hsub, if_neg Bool.false_ne_true] at h
      simp only [Bool.false_eq_true, if_false]
      exact (expandPeriods_scanned law hc (k := 0) rfl (by simp) (by simpa using h)).and_not_stop

theorem pastUntil_of_stopsAt {x : NaiveDateTime D T} (h : stopsAt cal r zone x = true) :
    pastUntil cal r zone x = true := by
  unfold stopsAt endsWalk at h
  split at h
  · exact (Bool.and_eq_true _ _ ▸ h).1
  · exact h

theorem walkGroups_until (u : Option (D × T)) :
    walkGroups cal { r with until_ := u } start w = walkGroups cal r start w := by
  have hperiods : ∀ first, periodGroup cal { r with until_ := u } start first =
    periodGroup cal r start first := by
    intro first
    funext k
    have hperiod : periodAt cal { r with until_ := u } first k = periodAt cal r first k := by
      apply periodAt_congr
      rfl
    unfold periodGroup
    rw [hperiod]
    rfl
  unfold walkGroups
  rw [hperiods]
  rfl

/-- No time in the window that is not past `UNTIL` comes behind one at which the walk ends. -/
def UntilLast (cal : Calendar D T) (r : RRule D T) (zone : Option (Zone D T))
    (start : NaiveDateTime D T) (w : DateWindow D) : Prop :=
  ∀ x y, Before (walkGroups cal r start w) x y → stopsAt cal r zone x = true →
    shownIn cal r w y = true → pastUntil cal r zone y = true

/-- Where `UNTIL` keeps the order of the wall times it cuts nothing else, for all but two kinds of
rules. -/
theorem untilLast_of_mono (law : cal.Lawful)
    (hyearly : ¬(r.freq = .yearly ∧ r.byYearDay ≠ [] ∧ r.byWeekNo ≠ []))
    (hweekly : ¬(r.freq = .weekly ∧ r.byDay ≠ [] ∧
      cal.checkedSubDays (initialPeriod cal r start.date w.from_) 6 = none))
    (hmono : ∀ x y, x < y → pastUntil cal r zone x = true → pastUntil cal r zone y = true) :
    UntilLast cal r zone start w := by
  rintro x y ⟨n, pre, post, heq, hy⟩ hstop -
  have hwalked : (walked (walkGroups cal r start w) n).Pairwise (· < ·) := by
    unfold walkGroups
    split
    case isFalse =>
      refine walked_pairwise periodGroup_pairwise (fun j k hjk x hx y hy => ?_) n
      obtain ⟨-, p, hp, hxp⟩ := mem_periodGroup.mp hx
      obtain ⟨-, q, hq, hyq⟩ := mem_periodGroup.mp hy
      exact candidates_lt law hyearly hweekly hjk hp hq hxp hyq
    case isTrue =>
      split
      case h_2 => exact walked_pairwise (fun _ => .nil) (fun _ _ _ _ hx => nomatch hx) n
      case h_1 tick _ =>
        refine walked_pairwise (fun j => ?_) (fun j k hjk x hx y hy => ?_) n
        · unfold ticks
          cases tickAt cal (tickStep r) tick j <;> simp
        · exact tickAt_lt law (tickStep_pos r) hjk (mem_toList.mp hx) (mem_toList.mp hy)
  rw [heq] at hwalked
  exact hmono x y (rel_of_pairwise_cons (pairwise_append.mp hwalked).2.1 hy)
    (pastUntil_of_stopsAt hstop)

/-! ## A gap -/

open Gregorian

/-- A time moved by some seconds. -/
def moved (t : NaiveDateTime Day Clock) (seconds : Int) : NaiveDateTime Day Clock :=
  let n := t.date.val * 86400 + t.time.val + seconds
  toLex ((inRange (n / 86400)).getD t.date, Fin.ofNat 86400 (n % 86400).toNat)

def onDay (y : Int) (m k hour minute : Nat) : NaiveDateTime Day Clock :=
  toLex ((fromYmd y m k).getD default, Fin.ofNat 86400 (hour * 3600 + minute * 60))

/-- A zone six hours behind UTC that skips from 2:00 to 3:00 on the eighth of March 2026, with
skipped times shifted forward. -/
def skipsAnHour : Zone Day Clock where
  resolveLocal t := some (if t < onDay 2026 3 8 3 0 then moved t 21600 else moved t 18000)
  naiveLocal t := if t < onDay 2026 3 8 8 0 then moved t (-21600) else moved t (-18000)

/-- `FREQ=DAILY;BYHOUR=2,3;BYMINUTE=10,30;UNTIL=20260308T081500Z`. -/
def untilInGap : RRule Day Clock :=
  { (RRule.default : RRule Day Clock) with
    freq := .daily, byHour := [2, 3], byMinute := [10, 30],
    until_ := some (ofLex (onDay 2026 3 8 8 15)) }

/-- The same rule with `UNTIL` two days earlier. -/
def untilBeforeGap : RRule Day Clock :=
  { untilInGap with until_ := some (ofLex (onDay 2026 3 6 8 15)) }

end Thegn.Recur
