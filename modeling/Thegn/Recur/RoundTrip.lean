import Thegn.Lib.Traverse
import Thegn.Recur.Rule

set_option autoImplicit false

/-! # Rules are read back

A rule that `RRule::parse` accepts is written by `to_rrule` as a text that is read as the same rule
(`parse_toRrule`). What was read keeps an invariant (`RRule.Readable`): the text of each value is
read as the value.
-/

namespace Thegn.Recur

open Text Traverse List

/-! ## Lists -/

/-- A character that no separator and no white space is. -/
def Solid (c : Char) : Prop := isWhitespace c = false ∧ c ≠ ';' ∧ c ≠ '=' ∧ c ≠ ','

instance : DecidablePred Solid := fun c =>
  inferInstanceAs (Decidable (isWhitespace c = false ∧ c ≠ ';' ∧ c ≠ '=' ∧ c ≠ ','))

theorem solid_digit {c : Char} (h : c.isDigit = true) : Solid c := by
  refine ⟨?_, ?_, ?_, ?_⟩
  · have hrange := Char.isDigit_iff_toNat.mp h
    simp only [Char.reduceToNat] at hrange
    simp only [isWhitespace, Bool.or_eq_false_iff, Bool.and_eq_false_iff, decide_eq_false_iff_not,
      beq_eq_false_iff_ne]
    omega
  · rintro rfl
    cases h
  · rintro rfl
    cases h
  · rintro rfl
    cases h

theorem solid_ofNat {n : Nat} {c : Char} (h : c ∈ ofNat n) : Solid c :=
  solid_digit (isDigit_of_mem_ofNat h)

theorem solid_ofInt {n : Int} {c : Char} (h : c ∈ ofInt n) : Solid c := by
  rcases mem_ofInt h with h | rfl
  · exact solid_digit h
  · decide

theorem ofInt_ne_nil (n : Int) : ofInt n ≠ [] := by
  cases n with
  | ofNat n => exact ofNat_ne_nil n
  | negSucc n => exact cons_ne_nil _ _

theorem solid_wdStr (w : Weekday) {c : Char} (h : c ∈ wdStr w) : Solid c := by
  cases w <;> simp only [wdStr, String.reduceToList, mem_cons, not_mem_nil, or_false] at h <;>
    rcases h with rfl | rfl <;> decide

theorem trim_solid {t : Text} (h : ∀ c ∈ t, Solid c) : trim t = t :=
  (trimmed_of_forall fun c hc => (h c hc).1).trim_eq

/-- The characters of a joined text. -/
theorem mem_join {sep : Text} {ls : List Text} {ch : Char} (h : ch ∈ join sep ls) :
    ch ∈ sep ∨ ∃ l ∈ ls, ch ∈ l := by
  induction ls with
  | nil => exact absurd h not_mem_nil
  | cons l ls ih =>
    cases ls with
    | nil =>
      rw [join, intercalate_singleton] at h
      exact .inr ⟨l, .head _, h⟩
    | cons m ls =>
      rw [join, intercalate_cons_cons, mem_append, mem_append] at h
      rcases h with (h | h) | h
      · exact .inr ⟨l, .head _, h⟩
      · exact .inl h
      · exact (ih h).imp id fun ⟨x, hx, hch⟩ => ⟨x, .tail _ hx, hch⟩

/-- Written entries are the tokens of the list value. -/
theorem tokens_join {ws : List Text} (hne : ws ≠ []) (h : ∀ w ∈ ws, w ≠ [] ∧ ∀ c ∈ w, Solid c) :
    tokens (join [','] ws) = ws := by
  have hsplit : (join [','] ws).splitOn ',' = ws :=
    splitOn_intercalate ',' (fun w hw hc => ((h w hw).2 ',' hc).2.2.2 rfl) hne
  have htrim : ws.map trim = ws := by
    rw [map_congr_left fun w hw => trim_solid (h w hw).2, map_id']
  rw [tokens, hsplit, htrim, filter_eq_self]
  exact fun w hw => decide_eq_true (h w hw).1

/-! ## Entries of a list -/

section Entries

variable {α : Type} {tryFrom : Int → Option α} {write : α →
  Text} {part : Text} {lo hi : Int} {signed : Bool}

/-- The entries are no more than allowed, and the text of each is read as the entry. -/
def Listed (read : Text → Except RecurError α) (write : α → Text) (xs : List α) : Prop :=
  xs.length ≤ maxByList ∧ ∀ x ∈ xs, read (write x) = .ok x

theorem listed_nil {read : Text → Except RecurError α} : Listed read write [] :=
  ⟨Nat.zero_le _, fun _ hx => absurd hx not_mem_nil⟩

/-- What a list part is read by. -/
def readList (read : Text → Except RecurError α) (e : RecurError) (v : Text) :
    Except RecurError (List α) :=
  if (tokens v).length > maxByList then .error e else (tokens v).mapM read

theorem listed_of_readList {read : Text → Except RecurError α} {e : RecurError} {v : Text}
    {xs : List α}
    (hback : ∀ {t x}, read t = .ok x → read (write x) = .ok x) (h : readList read e v = .ok xs) :
    Listed read write xs := by
  rw [readList] at h
  split_ifs at h with hlen
  obtain ⟨hlength, hxs⟩ := forall_of_mapM_eq_ok h
  refine ⟨by omega, fun x hx => ?_⟩
  obtain ⟨t, -, ht⟩ := hxs x hx
  exact hback ht

theorem readList_listValue {read : Text → Except RecurError α} {e : RecurError} {xs : List α}
    {v : Text}
    (hsolid : ∀ x, write x ≠ [] ∧ ∀ c ∈ write x, Solid c) (h : Listed read write xs)
    (hv : listValue write xs = some v) : readList read e v = .ok xs := by
  rw [listValue] at hv
  split_ifs at hv with hne
  obtain rfl := Option.some.inj hv
  have htokens : tokens (join [','] (xs.map write)) = xs.map write := by
    refine tokens_join (fun hnil => hne (map_eq_nil_iff.mp hnil)) fun w hw => ?_
    obtain ⟨x, -, rfl⟩ := mem_map.mp hw
    exact hsolid x
  rw [readList, htokens, length_map, if_neg (Nat.not_lt_of_le h.1), mapM_map_eq_ok h.2]

/-- An entry that was read is read from the text of its number. -/
theorem checkedToken_back {t : Text} {x : α}
    (hwrite : ∀ n y, tryFrom n = some y → write y = ofInt n)
    (h : checkedToken tryFrom part lo hi signed t = .ok x) :
    checkedToken tryFrom part lo hi signed (write x) = .ok x := by
  unfold checkedToken at h ⊢
  cases hn : parseSigned (2 ^ 63) t with
  | none =>
    rw [hn] at h
    cases h
  | some n =>
    rw [hn] at h
    dsimp only at h
    split_ifs at h with hok
    cases hx : tryFrom n with
    | none =>
      rw [hx] at h
      cases h
    | some y =>
      rw [hx] at h
      cases h
      have hrange : -((2 ^ 63 : Nat) : Int) ≤ n ∧ n < ((2 ^ 63 : Nat) : Int) := by
        rcases parseSigned_range hn with hrange | rfl
        · exact hrange
        · exact ⟨by decide, by decide⟩
      rw [hwrite n _ hx, parseSigned_ofInt hrange.1 hrange.2]
      dsimp only
      rw [if_pos hok, hx]

end Entries

theorem ofNat_of_tryUnsigned {bound : Nat} {n : Int} {x : Nat} (h : tryUnsigned bound n = some x) :
    ofNat x = ofInt n := by
  unfold tryUnsigned at h
  split_ifs at h with hn
  obtain rfl := Option.some.inj h
  obtain ⟨m, rfl⟩ := Int.eq_ofNat_of_zero_le hn.1
  rfl

theorem ofInt_of_trySigned {bound : Nat} {n x : Int} (h : trySigned bound n = some x) :
    ofInt x = ofInt n := by
  unfold trySigned at h
  split_ifs at h
  rw [Option.some.inj h]

/-! ## Weekdays -/

theorem weekday_wdStr : ∀ w : Weekday, weekday (wdStr w) = some w := by
  intro w
  cases w <;> decide

theorem byteLen_wdStr : ∀ w : Weekday, byteLen (wdStr w) = 2 := by
  intro w
  cases w <;> decide

theorem wdStr_ne_nil (w : Weekday) : wdStr w ≠ [] := by
  intro h
  have hlen := byteLen_wdStr w
  rw [h] at hlen
  cases hlen

theorem solid_byDay (d : ByDay) : d.toText ≠ [] ∧ ∀ c ∈ d.toText, Solid c := by
  refine ⟨fun h => wdStr_ne_nil d.weekday (append_eq_nil_iff.mp h).2, fun c hc => ?_⟩
  rcases mem_append.mp hc with hc | hc
  · cases hn : d.nth with
    | none =>
      rw [hn] at hc
      exact absurd hc not_mem_nil
    | some n =>
      rw [hn] at hc
      exact solid_ofInt hc
  · exact solid_wdStr _ hc

theorem splitLastTwo_wdStr (num : Text) (w : Weekday) :
    splitLastTwo (num ++ wdStr w) = some (num, wdStr w) := by
  have hlen : byteLen (num ++ wdStr w) = byteLen num + 2 := by rw [byteLen_append, byteLen_wdStr]
  rw [splitLastTwo, hlen, if_neg (by omega), Nat.add_sub_cancel]
  exact cut_append num (wdStr w)

/-- The ordinal of an entry that is read is that of its type. -/
theorem parseByDay_range {t : Text} {d : ByDay} (h : parseByDay t = some d) :
    ∀ n, d.nth = some n → -((2 ^ 7 : Nat) : Int) ≤ n ∧ n < ((2 ^ 7 : Nat) : Int) := by
  intro n hn
  simp only [parseByDay, Option.bind_eq_bind, Option.bind_eq_some_iff] at h
  obtain ⟨⟨num, day⟩, -, w, -, h⟩ := h
  split_ifs at h
  · obtain rfl := Option.some.inj h
    cases hn
  · obtain ⟨nth, hnth, heq⟩ := Option.bind_eq_some_iff.mp h
    obtain rfl := Option.some.inj heq
    obtain rfl : nth = some n := hn
    obtain ⟨m, hm, heq⟩ := Option.map_eq_some_iff.mp hnth
    obtain rfl := Option.some.inj heq
    rcases parseSigned_range hm with hrange | rfl
    · exact hrange
    · exact ⟨by decide, by decide⟩

theorem parseByDay_toText {d : ByDay}
    (h : ∀ n, d.nth = some n → -((2 ^ 7 : Nat) : Int) ≤ n ∧ n < ((2 ^ 7 : Nat) : Int)) :
    parseByDay d.toText = some d := by
  obtain ⟨nth, w⟩ := d
  have htrim : trim (ByDay.toText ⟨nth, w⟩) = ByDay.toText ⟨nth, w⟩ := trim_solid (solid_byDay _).2
  rw [parseByDay, htrim, ByDay.toText, splitLastTwo_wdStr]
  simp only [Option.bind_eq_bind, Option.bind_some, weekday_wdStr]
  cases nth with
  | none => rfl
  | some n =>
    obtain ⟨hlo, hhi⟩ := h n rfl
    simp only [Option.map_some, Option.getD_some, if_neg (ofInt_ne_nil n),
      parseSigned_ofInt hlo hhi, Option.bind_some]

theorem checkedDay_back {t : Text} {d : ByDay} (h : checkedDay t = .ok d) :
    checkedDay d.toText = .ok d := by
  unfold checkedDay at h ⊢
  cases ht : parseByDay t with
  | none =>
    rw [ht] at h
    cases h
  | some d' =>
    have hrange := parseByDay_range ht
    rw [ht] at h
    obtain ⟨nth, w⟩ := d'
    cases nth with
    | none =>
      cases h
      rw [parseByDay_toText hrange]
    | some n =>
      dsimp only at h
      split_ifs at h with hn
      cases h
      rw [parseByDay_toText hrange]
      dsimp only
      rw [if_neg hn]

/-! ## The bound of a rule -/

/-- The texts of dates and times: what was read is read from the text that is written for it, a date
is written with digits and a sign, and of the two forms only that with a time has a `T`. -/
structure Chrono.Lawful {D T : Type} (c : Chrono D T) : Prop where
  date_back : ∀ {s d}, c.parseDate s = some d → c.parseDate (c.formatDate d) = some d
  dateTime_back : ∀ {s d t}, c.parseDateTime s = some (d, t) →
    c.parseDateTime (c.formatDate d ++ 'T' :: c.formatTime t) = some (d, t)
  date_T : ∀ {s d}, c.parseDate s = some d → 'T' ∉ s
  dateTime_T : ∀ {s d}, c.parseDateTime s = some d → 'T' ∈ s
  formatDate_chars : ∀ {d ch}, ch ∈ c.formatDate d → ch.isDigit = true ∨ ch = '+' ∨ ch = '-'
  formatTime_chars : ∀ {t ch}, ch ∈ c.formatTime t → ch.isDigit = true

section Until

variable {D T : Type} {c : Chrono D T}

/-- A bound that was read in a form. -/
def UntilRead (c : Chrono D T) (form : UntilForm) (u : D × T) : Prop :=
  match form with
  | .date => (∃ s, c.parseDate s = some u.1) ∧ u.2 = c.midnight
  | .floating => ∃ s, c.parseDateTime s = some u
  | .utc => ∃ s, c.parseDateTime s = some u

theorem untilRead_of_parse (hc : c.Lawful) {v : Text} {u : D × T}
    (h : parseIcsDatetime c v = some u) : UntilRead c (untilFormOf v) u := by
  have hT : 'T' ∈ trimEndMatches (· == 'Z') (trim v) ↔ 'T' ∈ trim v :=
    mem_trimEndMatches (by decide)
  unfold parseIcsDatetime at h
  dsimp only at h
  unfold untilFormOf
  dsimp only
  split at h
  · rename_i d hd
    cases h
    have hmem := hT.mp (hc.dateTime_T hd)
    rw [if_neg (not_not.mpr hmem)]
    split_ifs
    · exact ⟨_, hd⟩
    · exact ⟨_, hd⟩
  · obtain ⟨d, hd, rfl⟩ := Option.map_eq_some_iff.mp h
    have hmem : 'T' ∉ trim v := fun hmem => hc.date_T hd (hT.mpr hmem)
    rw [if_pos hmem]
    exact ⟨⟨_, hd⟩, rfl⟩

theorem solid_formatDate (hc : c.Lawful) {d : D} {ch : Char} (h : ch ∈ c.formatDate d) :
    Solid ch ∧ ch ≠ 'T' ∧ ch ≠ 'Z' := by
  rcases hc.formatDate_chars h with h | rfl | rfl
  · refine ⟨solid_digit h, ?_, ?_⟩
    · rintro rfl
      cases h
    · rintro rfl
      cases h
  · exact ⟨by decide, by decide, by decide⟩
  · exact ⟨by decide, by decide, by decide⟩

theorem solid_formatTime (hc : c.Lawful) {t : T} {ch : Char} (h : ch ∈ c.formatTime t) :
    Solid ch ∧ ch ≠ 'Z' := by
  have hdigit := hc.formatTime_chars h
  refine ⟨solid_digit hdigit, ?_⟩
  rintro rfl
  cases hdigit

theorem solid_untilValue (hc : c.Lawful) {form : UntilForm} {u : D × T} {ch : Char}
    (h : ch ∈ untilValue c form u) : Solid ch := by
  have hT : Solid 'T' := by decide
  have hZ : Solid 'Z' := by decide
  cases form with
  | date => exact (solid_formatDate hc h).1
  | floating =>
    rw [untilValue, mem_append, mem_cons] at h
    rcases h with h | rfl | h
    · exact (solid_formatDate hc h).1
    · exact hT
    · exact (solid_formatTime hc h).1
  | utc =>
    rw [untilValue, append_assoc, mem_append, cons_append, mem_cons, mem_append, mem_singleton] at h
    rcases h with h | rfl | h | rfl
    · exact (solid_formatDate hc h).1
    · exact hT
    · exact (solid_formatTime hc h).1
    · exact hZ

/-- Nothing is stripped from a text without the letter. -/
theorem trimZ_eq_self {s : Text} (h : ∀ ch ∈ s, ch ≠ 'Z') : trimEndMatches (· == 'Z') s = s := by
  refine trimEndMatches_eq_self fun ch hch => ?_
  exact beq_eq_false_iff_ne.mpr (h ch (mem_of_getLast? hch))

/-- **A bound is read back in its form.** -/
theorem parse_untilValue (hc : c.Lawful) {form : UntilForm} {u : D × T} (h : UntilRead c form u) :
    parseIcsDatetime c (untilValue c form u) = some u ∧
    untilFormOf (untilValue c form u) = form := by
  obtain ⟨d, t⟩ := u
  have htrim : trim (untilValue c form (d, t)) = untilValue c form (d, t) :=
    trim_solid fun ch hch => solid_untilValue hc hch
  have hplain : ∀ ch ∈ c.formatDate d ++ 'T' :: c.formatTime t, ch ≠ 'Z' := by
    intro ch hch
    rw [mem_append, mem_cons] at hch
    rcases hch with hch | rfl | hch
    · exact (solid_formatDate hc hch).2.2
    · decide
    · exact (solid_formatTime hc hch).2
  have hmemT : 'T' ∈ c.formatDate d ++ 'T' :: c.formatTime t := mem_append_right _ (.head _)
  unfold parseIcsDatetime untilFormOf
  rw [htrim]
  dsimp only
  cases form with
  | date =>
    obtain ⟨⟨s, hs⟩, hmid⟩ := h
    have hmid : t = c.midnight := hmid
    have hdate : c.parseDate (c.formatDate d) = some d := hc.date_back hs
    have hnoT : 'T' ∉ c.formatDate d := fun hmem => (solid_formatDate hc hmem).2.1 rfl
    have hnone : c.parseDateTime (c.formatDate d) = none := by
      cases hdt : c.parseDateTime (c.formatDate d) with
      | none => rfl
      | some x => exact absurd (hc.dateTime_T hdt) hnoT
    have hZ : trimEndMatches (· == 'Z') (c.formatDate d) = c.formatDate d :=
      trimZ_eq_self fun ch hch => (solid_formatDate hc hch).2.2
    refine ⟨?_, if_pos hnoT⟩
    simp only [untilValue, hZ, hnone, hdate, Option.map_some, hmid]
  | floating =>
    obtain ⟨s, hs⟩ := h
    have hlast : (c.formatDate d ++ 'T' :: c.formatTime t).getLast? ≠ some 'Z' :=
      fun hlast => hplain 'Z' (mem_of_getLast? hlast) rfl
    refine ⟨?_, (if_neg (not_not.mpr hmemT)).trans (if_neg hlast)⟩
    simp only [untilValue, trimZ_eq_self hplain, hc.dateTime_back hs]
  | utc =>
    obtain ⟨s, hs⟩ := h
    have hZ : trimEndMatches (· == 'Z') (c.formatDate d ++ 'T' :: c.formatTime t ++ ['Z']) =
        c.formatDate d ++ 'T' :: c.formatTime t := by
      rw [trimEndMatches_append _ (by simp), trimZ_eq_self hplain]
    have hmem : 'T' ∈ c.formatDate d ++ 'T' :: c.formatTime t ++ ['Z'] := mem_append_left _ hmemT
    have hlast : (c.formatDate d ++ 'T' :: c.formatTime t ++ ['Z']).getLast? = some 'Z' :=
      List.getLast?_concat
    refine ⟨?_, (if_neg (not_not.mpr hmem)).trans (if_pos hlast)⟩
    simp only [untilValue, hZ, hc.dateTime_back hs]

end Until

/-! ## What was read -/

section Readable

variable {D T : Type} {c : Chrono D T}

def readUnsigned (part : Text) (lo hi : Int) : Text → Except RecurError Nat :=
  checkedToken (tryUnsigned (2 ^ 32)) part lo hi false

def readSigned (bound : Nat) (part : Text) (hi : Int) : Text → Except RecurError Int :=
  checkedToken (trySigned bound) part 1 hi true

/-- **The text of each value of a rule is read as the value.** -/
structure RRule.Readable (c : Chrono D T) (r : RRule D T) : Prop where
  interval_pos : r.interval ≠ 0
  interval_lt : r.interval < 2 ^ 32
  count_lt : ∀ n, r.count = some n → n < 2 ^ 32
  until_ : ∀ u, r.until_ = some u → UntilRead c r.untilForm u
  untilForm : r.until_ = none → r.untilForm = .utc
  bySecond : Listed (readUnsigned "BYSECOND".toList 0 60) ofNat r.bySecond
  byMinute : Listed (readUnsigned "BYMINUTE".toList 0 59) ofNat r.byMinute
  byHour : Listed (readUnsigned "BYHOUR".toList 0 23) ofNat r.byHour
  byDay : Listed checkedDay ByDay.toText r.byDay
  byMonthDay : Listed (readSigned (2 ^ 7) "BYMONTHDAY".toList 31) ofInt r.byMonthDay
  byYearDay : Listed (readSigned (2 ^ 15) "BYYEARDAY".toList 366) ofInt r.byYearDay
  byWeekNo : Listed (readSigned (2 ^ 7) "BYWEEKNO".toList 53) ofInt r.byWeekNo
  byMonth : Listed (readUnsigned "BYMONTH".toList 1 12) ofNat r.byMonth
  bySetPos : Listed (readSigned (2 ^ 31) "BYSETPOS".toList 366) ofInt r.bySetPos

theorem readable_default : (RRule.default : RRule D T).Readable c where
  interval_pos := Nat.one_ne_zero
  interval_lt := by
    show 1 < 2 ^ 32
    decide
  count_lt := fun n h => by cases h
  until_ := fun u h => by cases h
  untilForm := fun _ => rfl
  bySecond := listed_nil
  byMinute := listed_nil
  byHour := listed_nil
  byDay := listed_nil
  byMonthDay := listed_nil
  byYearDay := listed_nil
  byWeekNo := listed_nil
  byMonth := listed_nil
  bySetPos := listed_nil

theorem orElse_eq_ok {α : Type} {o : Option α} {e : RecurError} {x : α} : orElse o e = .ok x ↔
    o = some x := by
  cases o <;> simp [orElse]

theorem bind_eq_ok {α β ε : Type} {x : Except ε α} {f : α → Except ε β} {b : β} :
    (x >>= f) = .ok b ↔ ∃ a, x = .ok a ∧ f a = .ok b := by
  cases x with
  | error e => exact ⟨fun h => (by cases h), fun ⟨_, h, _⟩ => (by cases h)⟩
  | ok a => exact ⟨fun h => ⟨a, rfl, h⟩, fun ⟨_, h, h'⟩ => by cases h; exact h'⟩

theorem listed_unsigned {part v : Text} {lo hi : Int} {xs : List Nat}
    (h : checkedList (tryUnsigned (2 ^ 32)) part v lo hi false = .ok xs) :
    Listed (readUnsigned part lo hi) ofNat xs :=
  listed_of_readList (checkedToken_back fun _ _ h => ofNat_of_tryUnsigned h) h

theorem listed_signed {bound : Nat} {part v : Text} {hi : Int} {xs : List Int}
    (h : checkedList (trySigned bound) part v 1 hi true = .ok xs) :
    Listed (readSigned bound part hi) ofInt xs :=
  listed_of_readList (checkedToken_back fun _ _ h => ofInt_of_trySigned h) h

/-- A part leaves a rule readable. -/
theorem readable_applyPart (hc : c.Lawful) {part : Part} {v : Text} {r r' : RRule D T}
    (hr : r.Readable c) (h : r.applyPart c part v = .ok r') : r'.Readable c := by
  cases part with
  | freq =>
    obtain ⟨x, -, heq⟩ := bind_eq_ok.mp h
    cases heq
    exact { hr with }
  | interval =>
    obtain ⟨x, hx, heq⟩ := bind_eq_ok.mp h
    split_ifs at heq with hzero
    cases heq
    exact { hr with interval_pos := hzero, interval_lt := parseUnsigned_lt (orElse_eq_ok.mp hx) }
  | count =>
    obtain ⟨x, hx, heq⟩ := bind_eq_ok.mp h
    cases heq
    have hlt := parseUnsigned_lt (orElse_eq_ok.mp hx)
    exact { hr with count_lt := fun n hn => by cases hn; exact hlt }
  | until_ =>
    obtain ⟨x, hx, heq⟩ := bind_eq_ok.mp h
    cases heq
    have hread := untilRead_of_parse hc (orElse_eq_ok.mp hx)
    exact { hr with
      until_ := fun u hu => by cases hu; exact hread
      untilForm := fun hu => by cases hu }
  | bySecond =>
    obtain ⟨x, hx, heq⟩ := bind_eq_ok.mp h
    cases heq
    exact { hr with bySecond := listed_unsigned hx }
  | byMinute =>
    obtain ⟨x, hx, heq⟩ := bind_eq_ok.mp h
    cases heq
    exact { hr with byMinute := listed_unsigned hx }
  | byHour =>
    obtain ⟨x, hx, heq⟩ := bind_eq_ok.mp h
    cases heq
    exact { hr with byHour := listed_unsigned hx }
  | byDay =>
    obtain ⟨x, hx, heq⟩ := bind_eq_ok.mp h
    cases heq
    exact { hr with byDay := listed_of_readList checkedDay_back hx }
  | byMonthDay =>
    obtain ⟨x, hx, heq⟩ := bind_eq_ok.mp h
    cases heq
    exact { hr with byMonthDay := listed_signed hx }
  | byYearDay =>
    obtain ⟨x, hx, heq⟩ := bind_eq_ok.mp h
    cases heq
    exact { hr with byYearDay := listed_signed hx }
  | byWeekNo =>
    obtain ⟨x, hx, heq⟩ := bind_eq_ok.mp h
    cases heq
    exact { hr with byWeekNo := listed_signed hx }
  | byMonth =>
    obtain ⟨x, hx, heq⟩ := bind_eq_ok.mp h
    cases heq
    exact { hr with byMonth := listed_unsigned hx }
  | bySetPos =>
    obtain ⟨x, hx, heq⟩ := bind_eq_ok.mp h
    cases heq
    exact { hr with bySetPos := listed_signed hx }
  | wkst =>
    obtain ⟨x, -, heq⟩ := bind_eq_ok.mp h
    cases heq
    exact { hr with }

/-- A rule that the parser accepts is readable, and has no count beside a bound. -/
theorem readable_of_parse (hc : c.Lawful) {input : Text} {r : RRule D T}
    (h : RRule.parse c input = .ok r) : r.Readable c ∧ ¬ (r.count.isSome ∧ r.until_.isSome) := by
  have hfold : ∀ (texts : List Text) {p p' : Parsing D T}, p.rule.Readable c →
    texts.foldlM (Parsing.next c) p = .ok p' → p'.rule.Readable c := by
    intro texts
    induction texts with
    | nil =>
      intro p p' hp h
      cases h
      exact hp
    | cons text texts ih =>
      intro p p' hp h
      rw [foldlM_cons] at h
      obtain ⟨q, hq, hrest⟩ := bind_eq_ok.mp h
      refine ih ?_ hrest
      unfold Parsing.next at hq
      split at hq
      · dsimp only at hq
        split_ifs at hq
        cases hq
        exact hp
      · split at hq
        · split_ifs at hq
          obtain ⟨rule, hrule, heq⟩ := bind_eq_ok.mp hq
          cases heq
          exact readable_applyPart hc hp hrule
        · cases hq
          exact hp
  unfold RRule.parse at h
  obtain ⟨p, hp, hend⟩ := bind_eq_ok.mp h
  split_ifs at hend with hfreq hboth
  cases hend
  exact ⟨hfold _ readable_default hp, hboth⟩

end Readable

/-! ## Reading what was written -/

section Written

variable {D T : Type} {c : Chrono D T}

theorem ofText_text : ∀ part : Part, Part.ofText part.text = some part := by
  intro part
  cases part <;> decide

theorem upper_text : ∀ part : Part, upper (trim part.text) = part.text := by
  intro part
  cases part <;> decide

/-- Neither white space nor the end of a part. -/
def Inline (ch : Char) : Prop := isWhitespace ch = false ∧ ch ≠ ';'

theorem Solid.inline {ch : Char} (h : Solid ch) : Inline ch := ⟨h.1, h.2.1⟩

/-- The letters of the names. -/
theorem text_letters : ∀ part : Part, (part.text.all fun ch => 65 ≤ ch.toNat && ch.toNat ≤ 90) =
    true := by
  intro part
  cases part <;> decide

theorem letter_of_mem_text {part : Part} {ch : Char} (h : ch ∈ part.text) :
    65 ≤ ch.toNat ∧ ch.toNat ≤ 90 := by
  have hletter := all_eq_true.mp (text_letters part) ch h
  rw [Bool.and_eq_true, decide_eq_true_eq, decide_eq_true_eq] at hletter
  exact hletter

theorem inline_letter {ch : Char} (h : 65 ≤ ch.toNat ∧ ch.toNat ≤ 90) : Inline ch := by
  refine ⟨?_, ?_⟩
  · simp only [isWhitespace, Bool.or_eq_false_iff, Bool.and_eq_false_iff, decide_eq_false_iff_not,
      beq_eq_false_iff_ne]
    omega
  · rintro rfl
    exact absurd h.1 (by decide)

/-- A written part is read as its value. -/
theorem next_partText {p : Parsing D T} {part : Part} {v : Text} {rule : RRule D T}
    (hseen : part ∉ p.seen) (hv : ∀ ch ∈ v, Inline ch) (h : p.rule.applyPart c part v = .ok rule) :
    p.next c (partText part v) = .ok ⟨rule, p.sawFreq || part == .freq, part :: p.seen⟩ := by
  have hsplit : splitOnceP (· == '=') (partText part v) = some (part.text, v) := by
    refine splitOnceP_append (fun ch hch => beq_eq_false_iff_ne.mpr ?_) (by decide)
    rintro rfl
    exact absurd (letter_of_mem_text hch).1 (by decide)
  have htrim : trim v = v := (trimmed_of_forall fun ch hch => (hv ch hch).1).trim_eq
  unfold Parsing.next
  rw [hsplit]
  simp only [upper_text, ofText_text, if_neg hseen, htrim, h]
  rfl

/-- Each part that is written is read as the step from one rule to the next; a part that is not
leaves the rule. -/
inductive Fills (c : Chrono D T) : RRule D T → List (Part × Option Text) → RRule D T → Prop
  | nil {s} : Fills c s [] s
  | cons {s m t part o ps} (hsome : ∀ v, o = some v →
      s.applyPart c part v = .ok m) (hnone : o = none → m = s)
      (rest : Fills c m ps t) : Fills c s ((part, o) :: ps) t

theorem Fills.foldlM {s t : RRule D T} {ps : List (Part × Option Text)} (h : Fills c s ps t) :
    ∀ {seen : List Part}, (ps.map Prod.fst).Nodup → (∀ p ∈ ps, p.1 ∉ seen) →
    (∀ p ∈ ps, ∀ v, p.2 = some v → ∀ ch ∈ v, Inline ch) →
      ∃ seen', (ps.filterMap fun p => p.2.map (partText p.1)).foldlM (Parsing.next c) ⟨s,
        true, seen⟩ = .ok ⟨t, true, seen'⟩ := by
  induction h with
  | nil => exact fun _ _ _ => ⟨_, rfl⟩
  | @cons s m t part o ps hsome hnone _ ih =>
    intro seen hnodup hseen hinline
    rw [map_cons, nodup_cons] at hnodup
    rw [forall_mem_cons] at hseen hinline
    cases o with
    | none =>
      obtain ⟨seen', hfold⟩ := ih hnodup.2 hseen.2 hinline.2
      rw [hnone rfl] at hfold
      exact ⟨seen', hfold⟩
    | some v =>
      have hseen' : ∀ p ∈ ps, p.1 ∉ part :: seen := by
        intro p hp hmem
        rcases mem_cons.mp hmem with heq | hmem
        · have hname : p.1 ∈ ps.map Prod.fst := mem_map_of_mem hp
          rw [heq] at hname
          exact hnodup.1 hname
        · exact hseen.2 p hp hmem
      obtain ⟨seen', hfold⟩ := ih hnodup.2 hseen' hinline.2
      have hnext := next_partText (p := ⟨s, true, seen⟩) hseen.1 (hinline.1 v rfl) (hsome v rfl)
      refine ⟨seen', ?_⟩
      have hcons : ((part, some v) :: ps).filterMap (fun p => p.2.map (partText p.1)) =
          partText part v :: ps.filterMap fun p => p.2.map (partText p.1) := rfl
      rw [hcons, foldlM_cons, hnext]
      exact hfold

theorem freq_parse_asStr : ∀ freq : Freq, Freq.parse freq.asStr = some freq := by
  intro freq
  cases freq <;> decide

theorem asStr_letters : ∀ freq : Freq, (freq.asStr.all fun ch => 65 ≤ ch.toNat && ch.toNat ≤ 90) =
    true := by
  intro freq
  cases freq <;> decide

theorem inline_asStr {freq : Freq} {ch : Char} (h : ch ∈ freq.asStr) : Inline ch := by
  have hletter := all_eq_true.mp (asStr_letters freq) ch h
  rw [Bool.and_eq_true, decide_eq_true_eq, decide_eq_true_eq] at hletter
  exact inline_letter hletter

theorem apply_unsigned {part : Text} {lo hi : Int} {xs : List Nat} {v : Text}
    (h : Listed (readUnsigned part lo hi) ofNat xs)
    (hv : listValue ofNat xs = some v) : checkedList (tryUnsigned (2 ^ 32)) part v lo hi false =
      .ok xs :=
  readList_listValue (fun n => ⟨ofNat_ne_nil n, fun _ hc => solid_ofNat hc⟩) h hv

theorem apply_signed {bound : Nat} {part : Text} {hi : Int} {xs : List Int} {v : Text}
    (h : Listed (readSigned bound part hi) ofInt xs) (hv : listValue ofInt xs = some v) :
    checkedList (trySigned bound) part v 1 hi true = .ok xs :=
  readList_listValue (fun n => ⟨ofInt_ne_nil n, fun _ hc => solid_ofInt hc⟩) h hv

theorem eq_nil_of_listValue {α : Type} {write : α → Text} {xs : List α}
    (h : listValue write xs = none) : xs = [] := by
  rw [listValue] at h
  split_ifs at h with hnil
  exact hnil

theorem inline_listValue {α : Type} {write : α → Text} {xs : List α}
    (hsolid : ∀ x, ∀ ch ∈ write x, Solid ch) {v : Text}
    (h : listValue write xs = some v) : ∀ ch ∈ v, Inline ch := by
  rw [listValue] at h
  split_ifs at h
  obtain rfl := Option.some.inj h
  intro ch hch
  rcases mem_join hch with hch | ⟨w, hw, hch⟩
  · rw [mem_singleton.mp hch]
    exact ⟨by decide, by decide⟩
  · obtain ⟨x, -, rfl⟩ := mem_map.mp hw
    exact (hsolid x ch hch).inline

/-- The values of a rule stay in their parts. -/
theorem inline_parts (hc : c.Lawful) (r : RRule D T) : ∀ p ∈ r.parts c, ∀ v, p.2 = some v →
    ∀ ch ∈ v, Inline ch := by
  have hunsigned : ∀ {xs : List Nat} {v : Text}, listValue ofNat xs = some v →
    ∀ ch ∈ v, Inline ch :=
    fun h => inline_listValue (fun _ _ hch => solid_ofNat hch) h
  have hsigned : ∀ {xs : List Int} {v : Text}, listValue ofInt xs = some v → ∀ ch ∈ v, Inline ch :=
    fun h => inline_listValue (fun _ _ hch => solid_ofInt hch) h
  intro p hp v hv ch hch
  simp only [RRule.parts, mem_cons, not_mem_nil, or_false] at hp
  rcases hp with rfl | rfl | rfl | rfl | rfl | rfl | rfl | rfl | rfl | rfl | rfl | rfl | rfl
  · dsimp only at hv
    split_ifs at hv
    obtain rfl := Option.some.inj hv
    exact (solid_ofNat hch).inline
  · obtain ⟨n, -, rfl⟩ := Option.map_eq_some_iff.mp hv
    exact (solid_ofNat hch).inline
  · obtain ⟨u, -, rfl⟩ := Option.map_eq_some_iff.mp hv
    exact (solid_untilValue hc hch).inline
  · exact hunsigned hv ch hch
  · exact hunsigned hv ch hch
  · exact hunsigned hv ch hch
  · exact inline_listValue (fun d ch hch => (solid_byDay d).2 ch hch) hv ch hch
  · exact hsigned hv ch hch
  · exact hsigned hv ch hch
  · exact hsigned hv ch hch
  · exact hunsigned hv ch hch
  · exact hsigned hv ch hch
  · dsimp only at hv
    split_ifs at hv
    obtain rfl := Option.some.inj hv
    exact (solid_wdStr _ hch).inline

/-- **Part by part, what is written leads from the default rule to the rule.** -/
theorem fills_parts (hc : c.Lawful) {r : RRule D T} (h : r.Readable c) :
    Fills c { (RRule.default : RRule D T) with freq := r.freq } (r.parts c) r := by
  refine .cons (m := { (RRule.default : RRule D T) with freq := r.freq, interval := r.interval })
    ?_ ?_ ?_
  · intro v hv
    split_ifs at hv with hone
    obtain rfl := Option.some.inj hv
    exact bind_eq_ok.mpr ⟨r.interval, orElse_eq_ok.mpr (parseUnsigned_ofNat h.interval_lt),
      if_neg h.interval_pos⟩
  · intro hnone
    split_ifs at hnone with hone
    have hinterval : r.interval = 1 := not_not.mp hone
    rw [hinterval]
    rfl
  refine .cons (m := { (RRule.default : RRule D T) with
    freq := r.freq, interval := r.interval, count := r.count }) ?_ ?_ ?_
  · intro v hv
    obtain ⟨n, hn, rfl⟩ := Option.map_eq_some_iff.mp hv
    rw [hn]
    exact bind_eq_ok.mpr ⟨n, orElse_eq_ok.mpr (parseUnsigned_ofNat (h.count_lt n hn)), rfl⟩
  · intro hnone
    rw [Option.map_eq_none_iff.mp hnone]
    rfl
  refine .cons (m := { (RRule.default : RRule D T) with
    freq := r.freq, interval := r.interval, count := r.count, until_ := r.until_,
    untilForm := r.untilForm }) ?_ ?_ ?_
  · intro v hv
    obtain ⟨u, hu, rfl⟩ := Option.map_eq_some_iff.mp hv
    obtain ⟨hread, hform⟩ := parse_untilValue hc (h.until_ u hu)
    refine bind_eq_ok.mpr ⟨u, orElse_eq_ok.mpr hread, ?_⟩
    rw [hform, hu]
  · intro hnone
    have hu := Option.map_eq_none_iff.mp hnone
    rw [h.untilForm hu, hu]
    rfl
  refine .cons (m := { r with
    byMinute := [], byHour := [], byDay := [], byMonthDay := [], byYearDay := [],
    byWeekNo := [], byMonth := [], bySetPos := [], wkst := .mon }) ?_ ?_ ?_
  · intro v hv
    exact bind_eq_ok.mpr ⟨_, apply_unsigned h.bySecond hv, rfl⟩
  · intro hnone
    rw [eq_nil_of_listValue hnone]
    rfl
  refine .cons (m := { r with
    byHour := [], byDay := [], byMonthDay := [], byYearDay := [], byWeekNo := [],
    byMonth := [], bySetPos := [], wkst := .mon }) ?_ ?_ ?_
  · intro v hv
    exact bind_eq_ok.mpr ⟨_, apply_unsigned h.byMinute hv, rfl⟩
  · intro hnone
    rw [eq_nil_of_listValue hnone]
  refine .cons (m := { r with
    byDay := [], byMonthDay := [], byYearDay := [], byWeekNo := [], byMonth := [],
    bySetPos := [], wkst := .mon }) ?_ ?_ ?_
  · intro v hv
    exact bind_eq_ok.mpr ⟨_, apply_unsigned h.byHour hv, rfl⟩
  · intro hnone
    rw [eq_nil_of_listValue hnone]
  refine .cons (m := { r with
    byMonthDay := [], byYearDay := [], byWeekNo := [], byMonth := [], bySetPos := [],
    wkst := .mon }) ?_ ?_ ?_
  · intro v hv
    exact bind_eq_ok.mpr ⟨_, readList_listValue solid_byDay h.byDay hv, rfl⟩
  · intro hnone
    rw [eq_nil_of_listValue hnone]
  refine .cons (m := { r with
    byYearDay := [], byWeekNo := [], byMonth := [], bySetPos := [], wkst := .mon }) ?_ ?_ ?_
  · intro v hv
    exact bind_eq_ok.mpr ⟨_, apply_signed h.byMonthDay hv, rfl⟩
  · intro hnone
    rw [eq_nil_of_listValue hnone]
  refine .cons (m := { r with
    byWeekNo := [], byMonth := [], bySetPos := [], wkst := .mon }) ?_ ?_ ?_
  · intro v hv
    exact bind_eq_ok.mpr ⟨_, apply_signed h.byYearDay hv, rfl⟩
  · intro hnone
    rw [eq_nil_of_listValue hnone]
  refine .cons (m := { r with byMonth := [], bySetPos := [], wkst := .mon }) ?_ ?_ ?_
  · intro v hv
    exact bind_eq_ok.mpr ⟨_, apply_signed h.byWeekNo hv, rfl⟩
  · intro hnone
    rw [eq_nil_of_listValue hnone]
  refine .cons (m := { r with bySetPos := [], wkst := .mon }) ?_ ?_ ?_
  · intro v hv
    exact bind_eq_ok.mpr ⟨_, apply_unsigned h.byMonth hv, rfl⟩
  · intro hnone
    rw [eq_nil_of_listValue hnone]
  refine .cons (m := { r with wkst := .mon }) ?_ ?_ ?_
  · intro v hv
    exact bind_eq_ok.mpr ⟨_, apply_signed h.bySetPos hv, rfl⟩
  · intro hnone
    rw [eq_nil_of_listValue hnone]
  refine .cons (m := r) ?_ ?_ .nil
  · intro v hv
    split_ifs at hv
    obtain rfl := Option.some.inj hv
    exact bind_eq_ok.mpr ⟨r.wkst, orElse_eq_ok.mpr (weekday_wdStr r.wkst), rfl⟩
  · intro hnone
    split_ifs at hnone with hmon
    rw [← not_not.mp hmon]

theorem nodup_parts (r : RRule D T) : ((r.parts c).map Prod.fst).Nodup := by
  simp only [RRule.parts, map_cons, map_nil]
  decide

theorem freq_not_mem_parts (r : RRule D T) : ∀ p ∈ r.parts c, p.1 ∉ [Part.freq] := by
  simp [RRule.parts]

theorem inline_partText {part : Part} {v : Text} (hv : ∀ ch ∈ v, Inline ch) :
    ∀ ch ∈ partText part v, Inline ch := by
  intro ch hch
  rw [partText, mem_append, mem_cons] at hch
  rcases hch with hch | rfl | hch
  · exact inline_letter (letter_of_mem_text hch)
  · exact ⟨by decide, by decide⟩
  · exact hv ch hch

/-- **Rules are read back.** -/
theorem parse_toRrule (hc : c.Lawful) {s : Text} {r : RRule D T} (h : RRule.parse c s = .ok r) :
    RRule.parse c (r.toRrule c) = .ok r := by
  obtain ⟨hread, hboth⟩ := readable_of_parse hc h
  have hparts : ∀ t ∈ partText .freq r.freq.asStr ::
    (r.parts c).filterMap (fun p => p.2.map (partText p.1)), ∀ ch ∈ t, Inline ch := by
    intro t ht
    rcases mem_cons.mp ht with rfl | ht
    · exact inline_partText fun ch hch => inline_asStr hch
    · obtain ⟨p, hp, heq⟩ := mem_filterMap.mp ht
      obtain ⟨v, hv, rfl⟩ := Option.map_eq_some_iff.mp heq
      exact inline_partText (inline_parts hc r p hp v hv)
  have hsplit : (r.toRrule c).splitOn ';' =
      partText .freq r.freq.asStr :: (r.parts c).filterMap fun p => p.2.map (partText p.1) :=
    splitOn_intercalate ';' (fun t ht hmem => (hparts t ht ';' hmem).2 rfl) (cons_ne_nil _ _)
  have htrim : trim (r.toRrule c) = r.toRrule c := by
    refine (trimmed_of_forall fun ch hch => ?_).trim_eq
    rcases mem_join hch with hch | ⟨t, ht, hch⟩
    · rw [mem_singleton.mp hch]
      decide
    · exact (hparts t ht ch hch).1
  have hprefix : stripPrefix "RRULE:".toList (r.toRrule c) = none := by
    rw [stripPrefix_eq_none, RRule.toRrule, join]
    cases (r.parts c).filterMap fun p => p.2.map (partText p.1) with
    | nil => rfl
    | cons t ts => rfl
  obtain ⟨seen, hfold⟩ :=
    (fills_parts hc hread).foldlM (nodup_parts r) (freq_not_mem_parts r) (inline_parts hc r)
  have hfreq : Parsing.next c ⟨.default, false, []⟩ (partText .freq r.freq.asStr) =
      .ok ⟨{ (RRule.default : RRule D T) with freq := r.freq }, true, [.freq]⟩ :=
    next_partText (p := ⟨.default, false, []⟩) not_mem_nil (fun ch hch => inline_asStr hch)
      (bind_eq_ok.mpr ⟨r.freq, orElse_eq_ok.mpr (freq_parse_asStr r.freq), rfl⟩)
  unfold RRule.parse
  rw [htrim, hprefix, Option.getD_none]
  dsimp only
  rw [hsplit, foldlM_cons, hfreq]
  refine bind_eq_ok.mpr ⟨⟨r, true, seen⟩, hfold, ?_⟩
  exact (if_neg fun hfalse => Bool.noConfusion hfalse).trans (if_neg hboth)

end Written

/-! ## Dates and times of a fixed width -/

/-- The digits of a date or a time. -/
def Digits (n : Nat) : Type := { t : Text // t.length = n ∧ t.all Char.isDigit = true }

instance (n : Nat) : DecidableEq (Digits n) :=
  inferInstanceAs (DecidableEq { t : Text // t.length = n ∧ t.all Char.isDigit = true })

def readDigits (n : Nat) (s : Text) : Option (Digits n) :=
  if h : s.length = n ∧ s.all Char.isDigit = true then some ⟨s, h⟩ else none

theorem readDigits_val {n : Nat} (d : Digits n) : readDigits n d.val = some d := dif_pos d.property

theorem readDigits_eq_some {n : Nat} {s : Text} {d : Digits n} (h : readDigits n s = some d) :
    s = d.val := by
  unfold readDigits at h
  split_ifs at h
  exact congrArg Subtype.val (Option.some.inj h)

theorem Digits.no_T {n : Nat} (d : Digits n) : ∀ ch ∈ d.val, (ch == 'T') = false := by
  intro ch hch
  rw [beq_eq_false_iff_ne]
  rintro rfl
  exact absurd (all_eq_true.mp d.property.2 _ hch) (by decide)

/-- Years of four digits, without a look at the calendar. -/
def plainChrono : Chrono (Digits 8) (Digits 6) where
  parseDate := readDigits 8
  parseDateTime s := do
    let (d, t) ← splitOnceP (· == 'T') s
    let d ← readDigits 8 d
    let t ← readDigits 6 t
    some (d, t)
  formatDate d := d.val
  formatTime t := t.val
  midnight := ⟨"000000".toList, by decide⟩

theorem lawful_plainChrono : plainChrono.Lawful where
  date_back := fun {_ d} _ => readDigits_val d
  dateTime_back := by
    intro s d t _
    have hsplit : splitOnceP (· == 'T') (d.val ++ 'T' :: t.val) = some (d.val, t.val) :=
      splitOnceP_append d.no_T rfl
    simp only [plainChrono, hsplit, Option.bind_eq_bind, Option.bind_some, readDigits_val]
  date_T := by
    intro s d h hmem
    rw [readDigits_eq_some h] at hmem
    exact absurd (d.no_T _ hmem) (by decide)
  dateTime_T := by
    intro s x h
    simp only [plainChrono, Option.bind_eq_bind, Option.bind_eq_some_iff] at h
    obtain ⟨⟨d, t⟩, hsplit, -⟩ := h
    obtain ⟨ch, hs, hch, -⟩ := splitOnceP_eq_some hsplit
    rw [hs, ← eq_of_beq hch]
    exact mem_append_right _ (.head _)
  formatDate_chars := fun {d _} h => .inl (all_eq_true.mp d.property.2 _ h)
  formatTime_chars := fun {t _} h => all_eq_true.mp t.property.2 _ h

/-- The last Friday of some months, up to an instant. -/
def lastFridays : RRule (Digits 8) (Digits 6) :=
  { (RRule.default : RRule (Digits 8) (Digits 6)) with
    freq := .monthly
    until_ := some (⟨"20260821".toList, by decide⟩, ⟨"093000".toList, by decide⟩)
    byDay := [⟨some (-1), .fri⟩]
    byMonth := [3, 6]
    wkst := .sun }

theorem parse_toRrule_lastFridays :
    RRule.parse plainChrono (lastFridays.toRrule plainChrono) = .ok lastFridays :=
  parse_toRrule lawful_plainChrono
    (s := "RRULE:freq=monthly;BYDAY=-1FR;BYMONTH=3,+6;UNTIL=20260821T093000Z;X-A=1;WKST=SU".toList)
      (by rfl)

end Thegn.Recur
