import Thegn.Calendar.Instant
import Thegn.Ics.Duration

set_option autoImplicit false

/-! # Where the two readers agree

`parse_trigger_minutes` multiplies and adds unchecked, and takes a number that does not fit in 32
bits for none. Its word tracks the minutes of the numbers it can read (`tracks_trigger`); for a text
that `parse_duration` accepts these are the minutes of its components, if each number fits.
-/

namespace Thegn.Ics

open Thegn.Text Unchecked List

/-! ## The minutes a text comes to -/

/-- The runs of digits of a text, each with the character that ends it; `num` stands before the
text. -/
def termsFrom (num : Text) : Text → List (Text × Char)
  | [] => []
  | c :: cs => if c.isDigit then termsFrom (num ++ [c]) cs else (num, c) :: termsFrom [] cs

def dateMinutes : Char → Nat
  | 'W' => 10080
  | 'D' => 1440
  | _ => 0

def timeMinutes : Char → Nat
  | 'H' => 60
  | 'M' => 1
  | _ => 0

/-- A number as the reader takes it: nothing if it does not fit in 32 bits. -/
def readValue (num : Text) : Nat := (parseUnsigned (2 ^ 32) num).getD 0

def exactValue (num : Text) : Nat := Nat.ofDigitChars 10 num 0

def sumTerms (value : Text → Nat) (minutes : Char → Nat) (terms : List (Text × Char)) : Nat :=
  (terms.map fun t => value t.1 * minutes t.2).sum

/-- The minutes of a trigger, with the numbers read by `value`. -/
def leadMinutes (value : Text → Nat) (v : Text) : Nat :=
  sumTerms value dateMinutes (termsFrom [] (triggerParts v).1)
    + sumTerms value timeMinutes (termsFrom [] (triggerParts v).2)

variable (trySeconds : Int → Option Int)

/-- **What the two readers owe each other**: no operation overflows, and a duration before the start
that `parse_duration` accepts is read with its minutes, if they fit, and not with others. -/
structure ReadsAlike (v : Text) : Prop where
  no_overflow : ∀ w, parseTriggerMinutes v = some w → w.overflowed = false
  fits : ∀ t date time, (parseDuration trySeconds v).isSome = true →
    signOf (normalized v) = (true, 'P' :: t) → Written date time t →
    minutes date + minutes time < 2 ^ 32 →
    ∃ w, parseTriggerMinutes v = some w ∧ w.value.toNat = minutes date + minutes time
  no_other : ∀ t date time, (parseDuration trySeconds v).isSome = true →
    signOf (normalized v) = (true, 'P' :: t) →
    Written date time t → 2 ^ 32 ≤ minutes date + minutes time →
    ∀ w, parseTriggerMinutes v = some w → w.value.toNat = minutes date + minutes time

/-! ## The unchecked reader -/

/-- `minutes` are the products of the factors. -/
def Weighs (factors : Char → Option (List (BitVec 32))) (minutes : Char → Nat) : Prop :=
  ∀ c, (factors c = none ∧ minutes c = 0) ∨
    ∃ ks, factors c = some ks ∧ (∀ k ∈ ks, 0 < k.toNat) ∧ (ks.map BitVec.toNat).prod = minutes c

theorem weighs_date : Weighs dateFactors dateMinutes := by
  intro c
  by_cases hW : c = 'W'
  · exact .inr ⟨[7, 24, 60], by rw [hW]; rfl, by simp, by rw [hW]; simp [dateMinutes]⟩
  · by_cases hD : c = 'D'
    · exact .inr ⟨[24, 60], by rw [hD]; rfl, by simp, by rw [hD]; simp [dateMinutes]⟩
    · exact .inl ⟨dateFactors.eq_3 c hW hD, dateMinutes.eq_3 c hW hD⟩

theorem weighs_time : Weighs timeFactors timeMinutes := by
  intro c
  by_cases hH : c = 'H'
  · exact .inr ⟨[60], by rw [hH]; rfl, by simp, by rw [hH]; simp [timeMinutes]⟩
  · by_cases hM : c = 'M'
    · exact .inr ⟨[], by rw [hM]; rfl, by simp, by rw [hM]; simp [timeMinutes]⟩
    · exact .inl ⟨timeFactors.eq_3 c hH hM, timeMinutes.eq_3 c hH hM⟩

theorem readNumber_toNat (num : Text) : (readNumber num).toNat = readValue num := by
  have hlt : readValue num < 2 ^ 32 := by
    unfold readValue
    cases h : parseUnsigned (2 ^ 32) num with
    | none => decide
    | some n => exact parseUnsigned_lt h
  rw [readNumber, BitVec.toNat_ofNat]
  exact Nat.mod_eq_of_lt hlt

theorem tracks_factors {x : Word 32} {n : Nat} (h : x.Tracks n) {ks : List (BitVec 32)}
    (hks : ∀ k ∈ ks, 0 < k.toNat) :
    (ks.foldl Word.mul x).Tracks (n * (ks.map BitVec.toNat).prod) := by
  induction ks generalizing x n with
  | nil => simpa using h
  | cons k ks ih =>
    have hk := ih (h.mul (hks k (.head _))) fun j hj => hks j (mem_cons_of_mem k hj)
    rw [map_cons, prod_cons, ← Nat.mul_assoc]
    exact hk

/-- A loop adds the minutes of the terms it reads. -/
theorem tracks_tally {factors : Char → Option (List (BitVec 32))} {letter : Char → Nat}
    (hw : Weighs factors letter) (cs : Text) {t : Tally} {n : Nat} (h : t.mins.Tracks n) :
    (cs.foldl (tally factors) t).mins.Tracks
    (n + sumTerms readValue letter (termsFrom t.num cs)) := by
  induction cs generalizing t n with
  | nil => simpa [termsFrom, sumTerms] using h
  | cons c cs ih =>
    rw [foldl_cons, termsFrom]
    by_cases hc : c.isDigit = true
    · have hstep : tally factors t c = { t with num := t.num ++ [c] } := by rw [tally, if_pos hc]
      rw [hstep, if_pos hc]
      exact ih (t := { t with num := t.num ++ [c] }) h
    · rw [if_neg hc]
      have hsum : sumTerms readValue letter ((t.num, c) :: termsFrom [] cs)
          = readValue t.num * letter c + sumTerms readValue letter (termsFrom [] cs) := by
            simp [sumTerms]
      rw [hsum, ← Nat.add_assoc]
      rcases hw c with ⟨hnone, hzero⟩ | ⟨ks, hsome, hpos, hprod⟩
      · have hstep : tally factors t c = ⟨t.mins, []⟩ := by rw [tally, if_neg hc, hnone]
        rw [hstep, hzero, Nat.mul_zero, Nat.add_zero]
        exact ih (t := ⟨t.mins, []⟩) h
      · have hstep : tally factors t c
            = ⟨t.mins.add (ks.foldl Word.mul (.const (readNumber t.num))), []⟩ := by
          rw [tally, if_neg hc, hsome]
        have hterm := tracks_factors (Word.tracks_const (readNumber t.num)) hpos
        rw [readNumber_toNat, hprod] at hterm
        rw [hstep]
        exact ih (t := ⟨_, []⟩) (h.add hterm)

/-- **What the reader computes**: the minutes of the numbers that fit in 32 bits. -/
theorem tracks_trigger {v : Text} (h : startsWith (normalized v) ['-'] = true) :
    ∃ w, parseTriggerMinutes v = some w ∧ w.Tracks (leadMinutes readValue v) := by
  refine ⟨_, by rw [parseTriggerMinutes, if_pos h], ?_⟩
  have hzero : (Word.const (0 : BitVec 32)).Tracks 0 := Word.tracks_const 0
  have hdate := tracks_tally weighs_date (triggerParts v).1 (t := ⟨.const 0, []⟩) hzero
  have htime := tracks_tally weighs_time (triggerParts v).2
    (t := ⟨((triggerParts v).1.foldl (tally dateFactors) ⟨.const 0, []⟩).mins, []⟩) hdate
  rw [Nat.zero_add] at htime
  exact htime

theorem trigger_eq_none {v : Text} (h : startsWith (normalized v) ['-'] ≠ true) :
    parseTriggerMinutes v = none := by
  rw [parseTriggerMinutes, if_neg h]

/-! ## The text of components -/

section Written

variable {date time cs : List Component} {t v : Text}

theorem isDigit_letter (u : DurationUnit) : u.letter.isDigit = false := by
  cases u <;> decide

theorem termsFrom_digits {ds : Text} (hds : ∀ d ∈ ds, d.isDigit = true) {c : Char}
    (hc : c.isDigit = false)
    (num rest : Text) : termsFrom num (ds ++ c :: rest) = (num ++ ds, c) :: termsFrom [] rest := by
  induction ds generalizing num with
  | nil =>
    rw [nil_append, termsFrom, if_neg (by rw [hc]; decide), append_nil]
  | cons d ds ih =>
    rw [cons_append, termsFrom, if_pos (hds d mem_cons_self),
      ih fun e he => hds e (mem_cons_of_mem d he), append_assoc]
    rfl

theorem termsFrom_componentsText {inTime : Bool} (h : ∀ c ∈ cs, c.Valid inTime) :
    termsFrom [] (componentsText cs) = cs.map fun c => (c.digits, c.unit.letter) := by
  induction cs with
  | nil => rfl
  | cons c cs ih =>
    have hc := h c (.head _)
    have htext : componentsText (c :: cs) = c.digits ++ c.unit.letter :: componentsText cs := by
      simp [componentsText, Component.text]
    rw [htext, termsFrom_digits hc.digits (isDigit_letter _),
      ih fun d hd => h d (mem_cons_of_mem c hd)]
    rfl

theorem minutes_letter (u : DurationUnit) :
    (if u.inTime then timeMinutes else dateMinutes) u.letter = u.minutes := by
  cases u <;> rfl

/-- The terms of components come to their minutes. -/
theorem sumTerms_componentsText (value : Text → Nat) {inTime : Bool}
    (h : ∀ c ∈ cs, c.Valid inTime) :
    sumTerms value (if inTime then timeMinutes else dateMinutes) (termsFrom [] (componentsText cs))
      = (cs.map fun c => value c.digits * c.unit.minutes).sum := by
  rw [termsFrom_componentsText h, sumTerms, map_map]
  congr 1
  apply map_congr_left
  intro c hc
  show value c.digits * _ = _
  rw [← (h c hc).unit, minutes_letter]

/-- A component does not begin with `c`, and has no `c` in it. -/
theorem not_mem_componentsText {inTime : Bool} (h : ∀ c ∈ cs, c.Valid inTime) {x : Char}
    (hx : x.isDigit = false) (hu : ∀ u : DurationUnit, u.letter ≠ x) : x ∉ componentsText cs := by
  intro hmem
  obtain ⟨c, hc, hmem⟩ := mem_flatMap.mp hmem
  rcases mem_append.mp hmem with hd | hl
  · rw [(h c hc).digits x hd] at hx
    cases hx
  · exact hu c.unit (mem_singleton.mp hl).symm

/-- The parts of a trigger that is a duration are those of the duration. -/
theorem triggerParts_written (hsign : signOf (normalized v) = (true, 'P' :: t))
    (h : Written date time t) : triggerParts v = (componentsText date, componentsText time) := by
  have hnorm : normalized v = '-' :: 'P' :: t := by
    cases hn : normalized v with
    | nil =>
      rw [hn] at hsign
      cases hsign
    | cons c r =>
      rw [hn] at hsign
      unfold signOf at hsign
      split at hsign
      · rename_i heq
        cases heq
        cases hsign
        rfl
      · cases hsign
      · cases hsign
  have hletter : ∀ (x : Char), x = 'P' ∨ x = 'T' → ∀ u : DurationUnit, u.letter ≠ x := by
    rintro x (rfl | rfl) u <;> cases u <;> decide
  have hP : ∀ c ∈ t.head?, (c == 'P') = false := by
    intro c hc
    apply beq_false_of_ne
    rintro rfl
    have hno := not_mem_componentsText h.dates (x := 'P') (by decide) (hletter 'P' (.inl rfl))
    rw [h.text] at hc
    cases hdate : componentsText date with
    | nil =>
      rw [hdate] at hc
      split at hc
      · cases hc
      · cases hc
    | cons d ds =>
      rw [hdate] at hc hno
      cases hc
      exact hno (.head _)
  have hbody : ((normalized v).dropWhile (fun c => c == '-' || c == '+')).dropWhile
    (· == 'P') = t := by
    rw [hnorm]
    show t.dropWhile (· == 'P') = t
    cases ht : t with
    | nil => rfl
    | cons c r =>
      rw [ht] at hP
      exact dropWhile_cons_of_neg (by rw [hP c rfl]; decide)
  have hT : ∀ c ∈ componentsText date, (c == 'T') = false := by
    intro c hc
    apply beq_false_of_ne
    rintro rfl
    exact not_mem_componentsText h.dates (by decide) (hletter 'T' (.inr rfl)) hc
  rw [triggerParts, hbody, h.text]
  by_cases htime : time = []
  · rw [if_pos htime, append_nil, splitOnceP_eq_none hT, htime]
    rfl
  · rw [if_neg htime, splitOnceP_append hT (by decide)]
    rfl

theorem leadMinutes_written (value : Text → Nat) (hsign : signOf (normalized v) = (true, 'P' :: t))
    (h : Written date time t) :
    leadMinutes value v = ((date ++ time).map fun c => value c.digits * c.unit.minutes).sum := by
  have hdate := sumTerms_componentsText value h.dates
  have htime := sumTerms_componentsText value h.times
  rw [leadMinutes, triggerParts_written hsign h, map_append, sum_append, ← hdate, ← htime]
  rfl

theorem leadMinutes_exact (hsign : signOf (normalized v) = (true, 'P' :: t))
    (h : Written date time t) : leadMinutes exactValue v = minutes date + minutes time := by
  rw [leadMinutes_written exactValue hsign h, map_append, sum_append]
  rfl

/-- A number that fits is read. -/
theorem readValue_of_lt {num : Text} (hne : num ≠ []) (hd : ∀ d ∈ num, d.isDigit = true)
    (hlt : exactValue num < 2 ^ 32) : readValue num = exactValue num := by
  have hplus : stripPrefix ['+'] num = none := by
    rw [Option.eq_none_iff_forall_ne_some]
    intro r hr
    rw [stripPrefix_eq_some] at hr
    have hmem := hd '+' (by rw [hr]; exact .head _)
    cases hmem
  rw [readValue, parseUnsigned, hplus, Option.getD_none, if_pos ⟨hne, all_eq_true.mpr hd, hlt⟩]
  rfl

/-- If the minutes of a duration fit, its numbers are read. -/
theorem leadMinutes_read (hsign : signOf (normalized v) = (true, 'P' :: t))
    (h : Written date time t)
    (hlt : minutes date + minutes time < 2 ^ 32) :
    leadMinutes readValue v = minutes date + minutes time := by
  rw [← leadMinutes_exact hsign h, leadMinutes_written exactValue hsign h] at *
  rw [leadMinutes_written readValue hsign h]
  congr 1
  apply map_congr_left
  intro c hc
  have hle :=
    single_le_sum (by simp) _ (mem_map_of_mem (f := fun c =>
      exactValue c.digits * c.unit.minutes) hc)
  have hvalid : c.digits ≠ [] ∧ ∀ d ∈ c.digits, d.isDigit = true := by
    rcases mem_append.mp hc with hc | hc
    · exact ⟨(h.dates c hc).nonempty, (h.dates c hc).digits⟩
    · exact ⟨(h.times c hc).nonempty, (h.times c hc).digits⟩
  rcases Nat.eq_zero_or_pos c.unit.minutes with hzero | hpos
  · rw [hzero, Nat.mul_zero, Nat.mul_zero]
  · have hval : exactValue c.digits ≤ exactValue c.digits * c.unit.minutes :=
      Nat.le_mul_of_pos_right _ hpos
    rw [readValue_of_lt hvalid.1 hvalid.2 (by omega)]

end Written

/-! ## Agreement -/

theorem startsWith_of_sign {v t : Text} (h : signOf (normalized v) = (true, t)) :
    startsWith (normalized v) ['-'] = true := by
  unfold signOf at h
  split at h
  · rename_i heq
    rw [heq, startsWith_iff]
    exact ⟨_, rfl⟩
  · cases h
  · cases h

theorem sign_of_startsWith {v t : Text} {negative : Bool}
    (h : startsWith (normalized v) ['-'] = true)
    (hsign : signOf (normalized v) = (negative, t)) : negative = true := by
  obtain ⟨r, hr⟩ := startsWith_iff.mp h
  rw [hr] at hsign
  cases hsign
  rfl

/-- **The two readers agree on exactly the texts whose minutes fit**: those of the numbers that are
read must fit in 32 bits, and for a duration those of all its numbers. -/
theorem readsAlike_iff (v : Text) :
    ReadsAlike trySeconds v ↔ (startsWith (normalized v) ['-'] = true →
      leadMinutes readValue v < 2 ^ 32 ∧ ((parseDuration trySeconds v).isSome = true →
        leadMinutes exactValue v < 2 ^ 32)) := by
  constructor
  · intro h hneg
    obtain ⟨w, hw, htracks⟩ := tracks_trigger hneg
    constructor
    · have hover := h.no_overflow w hw
      rw [htracks.overflowed, decide_eq_false_iff_not, Nat.not_le] at hover
      exact hover
    · intro hsome
      obtain ⟨d, hd⟩ := Option.isSome_iff_exists.mp hsome
      obtain ⟨negative, t, date, time, hsign, hwritten, -⟩ := parseDuration_eq_some hd
      obtain rfl := sign_of_startsWith hneg hsign
      rw [leadMinutes_exact hsign hwritten]
      -- a word holds no number from 2^32 on
      by_contra hbig
      have hno := h.no_other t date time hsome hsign hwritten (by omega) w hw
      have hlt := w.value.isLt
      omega
  · intro h
    have hread : ∀ t date time, (parseDuration trySeconds v).isSome = true →
      signOf (normalized v) = (true, 'P' :: t) →
        Written date time t → ∃ w, parseTriggerMinutes v = some w ∧
          w.value.toNat = minutes date + minutes time := by
      intro t date time hsome hsign hwritten
      have hneg := startsWith_of_sign hsign
      have hexact := (h hneg).2 hsome
      rw [leadMinutes_exact hsign hwritten] at hexact
      obtain ⟨w, hw, htracks⟩ := tracks_trigger hneg
      refine ⟨w, hw, ?_⟩
      rw [htracks.value (h hneg).1, leadMinutes_read hsign hwritten hexact]
    constructor
    · intro w hw
      by_cases hneg : startsWith (normalized v) ['-'] = true
      · obtain ⟨w', hw', htracks⟩ := tracks_trigger hneg
        rw [hw, Option.some.injEq] at hw'
        rw [hw', htracks.overflowed, decide_eq_false_iff_not, Nat.not_le]
        exact (h hneg).1
      · rw [trigger_eq_none hneg] at hw
        cases hw
    · exact fun t date time hsome hsign hwritten _ => hread t date time hsome hsign hwritten
    · intro t date time hsome hsign hwritten _ w hw
      obtain ⟨w', hw', hval⟩ := hread t date time hsome hsign hwritten
      rw [hw, Option.some.injEq] at hw'
      rw [hw', hval]

/-- Weeks that overflow, and days that do not fit and are read as none. -/
theorem lead_lost : ¬ ReadsAlike Instant.chrono.trySeconds "-P999999W".toList ∧
    parseTriggerMinutes "-P4294967296D".toList = some (.const 0) ∧
    ¬ ReadsAlike Instant.chrono.trySeconds "-P4294967296D".toList := by
  have hzero : parseTriggerMinutes "-P4294967296D".toList = some (.const 0) := by decide
  refine ⟨fun h => ?_, hzero, fun h => ?_⟩
  · have hover : (parseTriggerMinutes "-P999999W".toList).map Word.overflowed = some true := by
      decide
    obtain ⟨w, hw, hover⟩ := Option.map_eq_some_iff.mp hover
    rw [h.no_overflow w hw] at hover
    cases hover
  · have hwritten : Written [⟨"4294967296".toList, .day⟩] [] "4294967296D".toList := by
      refine ⟨by decide, fun c hc => ?_, by simp⟩
      rw [mem_singleton.mp hc]
      exact ⟨by decide, by simp, rfl⟩
    have hbig : 2 ^ 32 ≤ minutes [⟨"4294967296".toList, .day⟩] + minutes [] := by decide
    have haccepted :
        (parseDuration Instant.chrono.trySeconds "-P4294967296D".toList).isSome = true := by
      decide
    have hno := h.no_other _ _ _ haccepted (by decide) hwritten hbig _ hzero
    rw [← hno] at hbig
    revert hbig
    decide

end Thegn.Ics
