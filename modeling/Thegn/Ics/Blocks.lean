import Thegn.Ics.Document

set_option autoImplicit false

/-! # One block at a time

What the loop does with the lines of an event. They only change what is collected of it, whether
they are read, malformed, oversized or nested (`does_body`), and its end keeps one event, buries a
series or does neither, whatever the name of the calendar is (`settles`).
-/

namespace Thegn.Ics

open Thegn.Text Instant List
open Thegn.Calendar (AdmissionLimit entryOverhead)

/-! ## Effects -/

/-- No effect records a failure. -/
def Calm (es : List Effect) : Prop := ∀ e ∈ es, e.isFailure = false

/-- Nor is anything kept. -/
def Quiet (es : List Effect) : Prop :=
  ∀ e ∈ es, e.isFailure = false ∧ e.asKept = none ∧ e.asBuried = none

/-- No effect refuses. -/
def Allowed (es : List Effect) : Prop := ∀ limit, Effect.refuse limit ∉ es

theorem Quiet.calm {es : List Effect} (h : Quiet es) : Calm es := fun e he => (h e he).1

theorem Quiet.asKept {es : List Effect} (h : Quiet es) : es.filterMap Effect.asKept = [] :=
  filterMap_eq_nil_iff.mpr fun e he => (h e he).2.1

theorem Quiet.asBuried {es : List Effect} (h : Quiet es) : es.filterMap Effect.asBuried = [] :=
  filterMap_eq_nil_iff.mpr fun e he => (h e he).2.2

@[simp] theorem quiet_nil : Quiet [] := fun _ he => absurd he not_mem_nil

@[simp] theorem quiet_cons {e : Effect} {es : List Effect} :
    Quiet (e :: es) ↔ (e.isFailure = false ∧ e.asKept = none ∧ e.asBuried = none) ∧ Quiet es :=
  forall_mem_cons

@[simp] theorem quiet_append {es fs : List Effect} : Quiet (es ++ fs) ↔ Quiet es ∧ Quiet fs :=
  forall_mem_append

@[simp] theorem calm_append {es fs : List Effect} : Calm (es ++ fs) ↔ Calm es ∧ Calm fs :=
  forall_mem_append

theorem Allowed.left {es fs : List Effect} (h : Allowed (es ++ fs)) : Allowed es :=
  fun limit hl => h limit (mem_append_left _ hl)

theorem Allowed.right {es fs : List Effect} (h : Allowed (es ++ fs)) : Allowed fs :=
  fun limit hl => h limit (mem_append_right _ hl)

/-! ## Properties -/

namespace Builder

variable {env : Env}

/-- What a property does that is not a UID. -/
structure Reads (b : Builder) (r : Builder × List Effect) : Prop where
  quiet : Quiet r.2
  uid : r.1.uid = b.uid

theorem Reads.ite {b : Builder} {c : Prop} [Decidable c] {r r' : Builder × List Effect}
    (h : Reads b r) (h' : Reads b r') : Reads b (if c then r else r') := by
  split
  · exact h
  · exact h'

/-- A charge is quiet, and so is a diagnostic that is no failure. -/
theorem quiet_charge (n m : Nat) : Quiet [.chargeEvent n m] := by
  simp [Effect.isFailure, Effect.asKept, Effect.asBuried]

theorem quiet_record {d : IcsDiagnostic} (h : d.isFailure = false) : Quiet [.record d] := by
  simp [Effect.isFailure, Effect.asKept, Effect.asBuried, h]

theorem reads_status (b : Builder) (value : Text) : Reads b (b.readStatus value) := by
  unfold readStatus
  refine .ite ⟨quiet_nil, rfl⟩ (.ite ⟨quiet_nil, rfl⟩ (.ite ⟨quiet_nil, rfl⟩ ⟨?_, rfl⟩))
  exact quiet_record rfl

theorem reads_transp (b : Builder) (value : Text) : Reads b (b.readTransp value) := by
  unfold readTransp
  refine .ite ⟨quiet_nil, rfl⟩ (.ite ⟨quiet_nil, rfl⟩ ⟨?_, rfl⟩)
  exact quiet_record rfl

theorem reads_sequence (b : Builder) (value : Text) : Reads b (b.readSequence value) := by
  unfold readSequence
  split
  · exact ⟨quiet_nil, rfl⟩
  · exact ⟨quiet_record rfl, rfl⟩

theorem uid_readTimes (dates : Dates) (b : Builder) (line : ContentLine) :
    (b.readTimes dates line).uid = b.uid := by
  unfold readTimes
  split
  · split
    · rfl
    · rfl
  · rfl

theorem uid_readRule (dates : Dates) (b : Builder) (value : Text) :
    (b.readRule dates value).uid = b.uid := by
  unfold readRule
  split
  · rfl
  · rfl

theorem reads_seeSingleton (b : Builder) (name : Text) : Reads b (b.seeSingleton name) := by
  unfold seeSingleton
  refine .ite (.ite ⟨quiet_record rfl, ?_⟩ ⟨quiet_nil, rfl⟩) ⟨quiet_nil, rfl⟩
  dsimp only
  split
  · rfl
  · rfl

theorem reads_dtstart (b : Builder) (line : ContentLine) (start : Option EventTime) :
    Reads b ({ b with start }, chargeTime line ++ if start.isNone then [.record .invalidEvent]
      else []) := by
  refine ⟨?_, rfl⟩
  rw [quiet_append]
  refine ⟨quiet_charge _ _, ?_⟩
  split
  · exact quiet_record rfl
  · exact quiet_nil

theorem reads_stamp (b : Builder) (d : Option NaiveDateTime) :
    Reads b (match d with
      | some d =>
        (if b.lastModified = 0 then { b with lastModified := env.timestampMillis d } else b, [])
      | none => (b, [])) := by
  cases d with
  | none => exact ⟨quiet_nil, rfl⟩
  | some d =>
    refine ⟨quiet_nil, ?_⟩
    dsimp only
    split
    · rfl
    · rfl

/-- **A property that is no UID** does not change the UID. -/
theorem reads_property (b : Builder) {line : ContentLine} (h : line.name ≠ "UID".toList) :
    Reads b (b.readProperty env line) := by
  have hcharged : ∀ {b' : Builder} {n m : Nat}, b'.uid = b.uid → Reads b (b', [.chargeEvent n m]) :=
    fun huid => ⟨quiet_charge _ _, huid⟩
  rw [readProperty, if_neg h]
  -- the texts, then what is told apart by its value, then the times
  refine .ite (hcharged rfl)
    (.ite (hcharged rfl) (.ite (hcharged rfl) (.ite (hcharged rfl) (.ite (hcharged rfl)
    (.ite (hcharged rfl) ?_)))))
  refine .ite (reads_status b _) (.ite (reads_sequence b _) (.ite (reads_transp b _) ?_))
  refine .ite (reads_dtstart b line _)
    (.ite (hcharged rfl) (.ite (hcharged rfl) (.ite ⟨quiet_nil, rfl⟩ ?_)))
  refine .ite (hcharged (uid_readRule _ b _)) (.ite (hcharged (uid_readTimes _ b _)) ?_)
  exact .ite (reads_stamp b _) (.ite (hcharged rfl) ⟨quiet_nil, rfl⟩)

/-- A zone changes nothing but a parameter, and where no zones are bound, none is looked up. -/
theorem normalizeZone_nil (found : Matches env) (defaultZone : Text) (line : ContentLine) :
    (normalizeZone env [] found defaultZone line).2 = found ∧
      ∀ l ∈ (normalizeZone env [] found defaultZone line).1, l.name = line.name := by
  have hself : ∀ l ∈ some line, l.name = line.name := by
    rintro l ⟨⟩
    rfl
  unfold normalizeZone
  split
  · exact ⟨rfl, hself⟩
  · exact ⟨rfl, hself⟩
  · refine ⟨rfl, fun l hl => ?_⟩
    -- the line that is found is the old one with a parameter set
    obtain ⟨z, -, hz⟩ := Option.bind_eq_some_iff.mp hl
    cases hz
    rfl

/-- **What a property does**: it is quiet, looks up no zone where none is bound, and sets the UID if
it is one. -/
theorem property_spec (found : Matches env) (defaultZone : Text) (b : Builder)
    (line : ContentLine) :
    Quiet (b.property env [] found defaultZone line).2.2 ∧
    (b.property env [] found defaultZone line).2.1 = found ∧
      (b.property env [] found defaultZone line).1.uid = if line.name = "UID".toList then line.value
        else b.uid := by
  -- the line that is read has the name of the one that is written
  have hzone : (if takesZone line.name then normalizeZone env [] found defaultZone line
    else (some line, found)).2 = found ∧
      ∀ l ∈ (if takesZone line.name then normalizeZone env [] found defaultZone line
        else (some line, found)).1, l.name = line.name := by
    split
    · exact normalizeZone_nil found defaultZone line
    · refine ⟨rfl, ?_⟩
      rintro l ⟨⟩
      rfl
  have hunknown : ∀ z : Option ContentLine,
    Quiet (if z.isNone then [.record .unknownTimeZone] else []) := by
    intro z
    split
    · exact quiet_record rfl
    · exact quiet_nil
  have hquarantine : ∀ z : Option ContentLine, (if z.isNone then b.quarantine else b).uid =
    b.uid := by
    intro z
    split
    · rfl
    · rfl
  by_cases huid : line.name = "UID".toList
  · rw [if_pos huid]
    have hplain : takesZone line.name = false := by
      rw [huid]
      decide
    unfold property
    rw [hplain]
    obtain ⟨hquiet, -⟩ := reads_seeSingleton b line.name
    refine ⟨?_, rfl, ?_⟩
    · show Quiet ([] ++ (b.seeSingleton line.name).2 ++
        (readProperty env (b.seeSingleton line.name).1 line).2)
      rw [readProperty, if_pos huid]
      exact quiet_append.mpr ⟨hquiet, quiet_charge _ _⟩
    · show (readProperty env (b.seeSingleton line.name).1 line).1.uid = line.value
      rw [readProperty, if_pos huid]
  · rw [if_neg huid]
    generalize hz : (if takesZone line.name then normalizeZone env [] found defaultZone line
      else (some line, found)) = z at hzone
    unfold property
    rw [hz]
    have hname : (z.1.getD line).name = line.name := by
      cases hz : z.1 with
      | none => rfl
      | some l => exact hzone.2 l hz
    obtain ⟨honce, hsame⟩ :=
      reads_seeSingleton (if z.1.isNone then b.quarantine else b) (z.1.getD line).name
    have hother : (z.1.getD line).name ≠ "UID".toList := by
      rw [hname]
      exact huid
    obtain ⟨hread, huid'⟩ : Reads _ (readProperty env _ (z.1.getD line)) :=
      reads_property (seeSingleton (if z.1.isNone then b.quarantine else b) (z.1.getD line).name).1
        hother
    refine ⟨quiet_append.mpr ⟨quiet_append.mpr ⟨hunknown z.1, honce⟩, hread⟩, hzone.1, ?_⟩
    exact huid'.trans (hsame.trans (hquarantine z.1))

end Builder

/-! ## Lines of an event -/

namespace Parser

variable {env : Env} (req : Request env)

/-- Between the events of a calendar. -/
def between (name : Text) : Parser env :=
  { components := [.calendar], calName := name, sawCalendar := true }

/-- In an event, with the components that are open in it. -/
def inside (name : Text) (b : Builder) (cs : List ComponentName) : Parser env where
  cur := some b
  components := .calendar :: .event :: cs
  eventDepth := some 2
  calName := name
  sawCalendar := true

@[simp] theorem inside_cur (name : Text) (b : Builder) (cs : List ComponentName) :
    (inside name b cs : Parser env).cur = some b := rfl

/-- Behind the calendar. -/
def behind (name : Text) : Parser env :=
  { calName := name, sawCalendar := true, closedCalendar := true }

theorem run_append (p : Parser env) (xs ys : List RawLine) :
    p.run req (xs ++ ys) =
      (((p.run req xs).1.run req ys).1, (p.run req xs).2 ++ ((p.run req xs).1.run req ys).2) := by
  induction xs generalizing p with
  | nil => rfl
  | cons raw xs ih => rw [cons_append, run, ih, run, append_assoc]

theorem run_singleton (p : Parser env) (raw : RawLine) : p.run req [raw] = p.step req raw := by
  rw [run, run, append_nil]

theorem step_of_text {raw : RawLine} {text : Text} (hfits : raw.len ≤ maxLineBytes)
    (htext : raw.text = some text)
    (p : Parser env) : p.step req raw = ((p.readText req raw text).1,
      .check :: (p.readText req raw text).2) := by
  unfold step
  rw [if_neg (Nat.not_lt.mpr hfits), htext]

theorem step_of_fits {l : Line} (hfits : l.Fits) {c : ContentLine} (hc : c ∈ l.parsed)
    (p : Parser env) :
    p.step req l.raw = ((p.dispatch req c).1, .check :: (p.dispatch req c).2) := by
  obtain ⟨text, htext, hline⟩ := Option.bind_eq_some_iff.mp hc
  rw [step_of_text req hfits htext, readText, if_neg (trim_ne_nil_of_parseLine hline), hline]

theorem step_of_not_fits {l : Line} (hfits : ¬ l.Fits) (p : Parser env) :
    p.step req l.raw = (p, .check :: p.oversized l.raw) := by
  unfold step
  rw [if_pos (Nat.lt_of_not_le hfits)]

/-- **What the loop does with a line** does not depend on where it stands. -/
theorem step_cases (l : Line) :
    (∀ p : Parser env, p.step req l.raw = (p, .check :: p.oversized l.raw)) ∨
      (∀ p : Parser env, p.step req l.raw = (p, [.check])) ∨
      (∀ p : Parser env, p.step req l.raw = ((p.malformed l.raw).1,
        .check :: (p.malformed l.raw).2)) ∨
      ∃ c ∈ l.parsed, ∀ p : Parser env, p.step req l.raw =
        ((p.dispatch req c).1, .check :: (p.dispatch req c).2) := by
  by_cases hfits : l.Fits
  · right
    cases hparsed : l.parsed with
    | some c => exact .inr (.inr ⟨c, rfl, step_of_fits req hfits hparsed⟩)
    | none =>
      obtain ⟨text, htext⟩ := Option.isSome_iff_exists.mp l.text_isSome
      have hline : parseLine text = none := by
        rw [Line.parsed, htext] at hparsed
        exact hparsed
      -- a blank line is passed over before it is read
      by_cases hblank : trim text = []
      · refine .inl fun p => ?_
        rw [step_of_text req hfits htext, readText, if_pos hblank]
      · refine .inr (.inl fun p => ?_)
        rw [step_of_text req hfits htext, readText, if_neg hblank, hline]
  · exact .inl (step_of_not_fits req hfits)

theorem quiet_oversized (p : Parser env) (raw : RawLine) : Quiet (p.oversized raw) := by
  unfold oversized
  split
  · simp [Effect.isFailure, Effect.asKept, Effect.asBuried]
  · exact quiet_nil

theorem quiet_check {es : List Effect} (h : Quiet es) : Quiet (.check :: es) :=
  quiet_cons.mpr ⟨⟨rfl, rfl, rfl⟩, h⟩

theorem quiet_malformed (p : Parser env) (raw : RawLine) : Quiet (p.malformed raw).2 := by
  unfold malformed
  split
  · exact quiet_nil
  · exact Builder.quiet_record rfl

theorem reads_triggers (b : Builder) (line : ContentLine) : b.Reads (triggers env b line) := by
  unfold triggers
  dsimp only
  refine .ite ?_ ⟨quiet_nil, rfl⟩
  split
  · exact ⟨quiet_nil, rfl⟩
  · refine ⟨quiet_append.mpr ⟨?_, Builder.quiet_charge _ _⟩, ?_⟩
    · split
      · simp [Effect.isFailure, Effect.asKept, Effect.asBuried]
      · exact quiet_nil
    · dsimp only
      split
      · rfl
      · rfl

/-- What lines do in an event, by whatever name the calendar goes. -/
def Does (b : Builder) (cs : List ComponentName) (lines : List RawLine) (b' : Builder)
    (cs' : List ComponentName) (es : List Effect) : Prop :=
  ∀ name, (inside name b cs : Parser env).run req lines = (inside name b' cs', es)

variable {req}

theorem Does.nil (b : Builder) (cs : List ComponentName) : Does req b cs [] b cs [] := fun _ => rfl

theorem Does.append {b b' b'' : Builder} {cs cs' cs'' : List ComponentName} {xs ys : List RawLine}
    {es fs : List Effect}
    (h : Does req b cs xs b' cs' es) (h' : Does req b' cs' ys b'' cs'' fs) :
    Does req b cs (xs ++ ys) b'' cs'' (es ++ fs) := by
  intro name
  rw [run_append, h name, h' name]

theorem Does.one {b b' : Builder} {cs cs' : List ComponentName} {raw : RawLine} {es : List Effect}
    (h : ∀ name, (inside name b cs : Parser env).step req raw = (inside name b' cs', es)) :
    Does req b cs [raw] b' cs' es := by
  intro name
  rw [run_singleton, h name]

/-- A malformed line may quarantine the event. -/
theorem malformed_inside (b : Builder) (cs : List ComponentName) (raw : RawLine) :
    ∃ b' : Builder, b'.uid = b.uid ∧
      ∀ name, (inside name b cs : Parser env).malformed raw =
        (inside name b' cs, [.record .malformedLine]) := by
  have hopen : ∀ name, (inside name b cs : Parser env).components ≠ [] :=
    fun name => cons_ne_nil _ _
  by_cases hdoubt : (decide ((some 2 : Option Nat) = some (cs.length + 2)) &&
    raw.nameHint.any isShapeProperty) = true
  · refine ⟨b.quarantine, rfl, fun name => ?_⟩
    rw [malformed, if_neg (hopen name)]
    exact Prod.ext (if_pos hdoubt) rfl
  · refine ⟨b, rfl, fun name => ?_⟩
    rw [malformed, if_neg (hopen name)]
    exact Prod.ext (if_neg hdoubt) rfl

/-- A line that is read in an event. -/
theorem reads_inside (hreq : req.bindings = []) (b : Builder) (cs : List ComponentName)
    (line : ContentLine) :
    ∃ b' es, (∀ name, (inside name b cs).reads req line = (inside name b' cs, es)) ∧ Quiet es ∧
      (b'.uid = b.uid ∨ cs = [] ∧ line.name = "UID".toList ∧ b'.uid = line.value) := by
  cases cs with
  | nil =>
    obtain ⟨hquiet, hfound, huid⟩ := Builder.property_spec ([] : Matches env) req.defaultZone b line
    refine ⟨(b.property env [] [] req.defaultZone line).1, _, fun name => ?_, hquiet, ?_⟩
    · have hread : (inside name b [] : Parser env).reads req line =
          ({ (inside name (b.property env [] [] req.defaultZone line).1 [] : Parser env) with
              found := (b.property env [] [] req.defaultZone line).2.1 },
                (b.property env [] [] req.defaultZone line).2.2) := by
        rw [← hreq]
        rfl
      rw [hread, hfound]
      rfl
    · by_cases hname : line.name = "UID".toList
      · rw [if_pos hname] at huid
        exact .inr ⟨rfl, hname, huid⟩
      · rw [if_neg hname] at huid
        exact .inl huid
  | cons c cs =>
    have hchild : ∀ name, (inside name b (c :: cs) : Parser env).inChild = true := by
      intro name
      simp [inChild, inside]
    have halarm : ∀ name, (inside name b (c :: cs) : Parser env).inAlarm =
      (inside [] b (c :: cs) : Parser env).inAlarm :=
      fun _ => rfl
    by_cases htrigger : ((inside [] b (c :: cs) : Parser env).inAlarm &&
      decide (line.name = "TRIGGER".toList)) = true
    · obtain ⟨hquiet, huid⟩ : b.Reads (triggers env b line) := reads_triggers b line
      refine ⟨(triggers env b line).1, (triggers env b line).2, fun name => ?_, hquiet, .inl huid⟩
      simp only [reads, inside_cur, hchild name, halarm name, htrigger, if_true]
      rfl
    · refine ⟨b, [], fun name => ?_, quiet_nil, .inl rfl⟩
      simp only [reads, inside_cur, hchild name, halarm name, htrigger, if_true]
      rfl

/-- **A line of an event is quiet**, and sets the UID only if it is a UID and no component is
open. -/
theorem does_plain (hreq : req.bindings = []) {l : Line} (h : l.Plain) (b : Builder)
    (cs : List ComponentName) :
    ∃ b' es, Does req b cs [l.raw] b' cs es ∧ Quiet es ∧
    (b'.uid = b.uid ∨ cs = [] ∧ (Item.line l).writes = some b'.uid) := by
  rcases step_cases req l with hstep | hstep | hstep | ⟨c, hc, hstep⟩
  · exact ⟨b, _, .one fun name => hstep _,
      quiet_check (quiet_oversized (inside [] b cs : Parser env) l.raw), .inl rfl⟩
  · exact ⟨b, _, .one fun name => hstep _, quiet_check quiet_nil, .inl rfl⟩
  · obtain ⟨b', huid, hmalformed⟩ := malformed_inside b cs l.raw
    refine ⟨b', [.check, .record .malformedLine], .one fun name => (hstep _).trans ?_,
      quiet_check (Builder.quiet_record rfl), .inl huid⟩
    rw [hmalformed name]
  · obtain ⟨b', es, hreads, hquiet, huid⟩ := reads_inside hreq b cs c
    obtain ⟨hbegin, hend⟩ := h c hc
    refine ⟨b', _, .one fun name => (hstep _).trans ?_, quiet_check hquiet, huid.imp_right ?_⟩
    · rw [dispatch, if_neg hbegin, if_neg hend, hreads name]
    · rintro ⟨hcs, hname, hvalue⟩
      refine ⟨hcs, ?_⟩
      rw [Item.writes, Option.mem_def.mp hc, Option.filter_some,
        if_pos (by simpa using hname), hvalue]
      rfl

/-! ## Components of an event -/

/-- A line that begins or ends a component is not skipped in an event for its size. -/
theorem refuses_oversized {l : Line} {c : ContentLine} (hc : c ∈ l.parsed)
    (hname : c.name = "BEGIN".toList ∨ c.name = "END".toList)
    (name : Text) (b : Builder) (cs : List ComponentName) :
    Effect.refuse .eventBytes ∈ (inside name b cs : Parser env).oversized l.raw := by
  have hquote : '"' ∉ c.name := by
    rcases hname with h | h
    · rw [h]
      decide
    · rw [h]
      decide
  have hretains : (inside name b cs : Parser env).retainsOversized l.raw.nameHint = true := by
    rcases Line.nameHint_raw hc hquote with h | h
    · rw [h]
      rfl
    · rw [h]
      show (if c.name = "BEGIN".toList ∨ c.name = "END".toList then true else _) = true
      rw [if_pos hname]
  rw [oversized, if_pos hretains]
  exact mem_singleton_self _

/-- So it is read, or the parse is refused. -/
theorem step_said {l : Line} {said : Text} {component : ComponentName}
    (hword : l.Says said component)
    (hsaid : said = "BEGIN".toList ∨ said = "END".toList) {name : Text} {b : Builder}
    {cs : List ComponentName}
    (hallowed : Allowed ((inside name b cs : Parser env).step req l.raw).2) :
    ∃ c ∈ l.parsed, (c.name = said ∧ ComponentName.parse c.value = component) ∧
      ∀ p : Parser env, p.step req l.raw = ((p.dispatch req c).1,
        .check :: (p.dispatch req c).2) := by
  obtain ⟨c, hc, hname, hvalue⟩ := hword
  by_cases hfits : l.Fits
  · exact ⟨c, hc, ⟨hname, hvalue⟩, step_of_fits req hfits hc⟩
  · exfalso
    rw [step_of_not_fits req hfits] at hallowed
    exact hallowed _ (.tail _ (refuses_oversized hc (hname ▸ hsaid) name b cs))

/-- **A component that begins in an event is open in it.** -/
theorem does_begins {l : Line} {component : ComponentName} (ho : Ordinary component)
    (hbegins : l.Begins component) {name : Text} {b : Builder} {cs : List ComponentName}
    (hallowed : Allowed ((inside name b cs : Parser env).step req l.raw).2) :
    Does req b cs [l.raw] b (cs ++ [component]) [.check] := by
  obtain ⟨c, -, ⟨hname, hvalue⟩, hstep⟩ := step_said hbegins (.inl rfl) hallowed
  have hdispatch : ∀ name, (inside name b cs : Parser env).dispatch req c =
    (inside name b cs : Parser env).begins c.value := by
    intro name
    rw [dispatch, if_pos hname]
  -- a component that is nested too deeply is refused
  have hshallow : (inside [] b cs : Parser env).tooDeep component = false := by
    by_contra hdeep
    rw [hstep, hdispatch, begins, hvalue] at hallowed
    have hdeep' : (inside name b cs : Parser env).tooDeep component = true := by
      rw [Bool.not_eq_false] at hdeep
      exact hdeep
    dsimp only at hallowed
    rw [if_pos hdeep'] at hallowed
    exact hallowed .nesting (by simp)
  refine .one fun name => ?_
  have hshallow' : (inside name b cs : Parser env).tooDeep component = false := hshallow
  rw [hstep, hdispatch, begins, hvalue]
  simp only [hshallow', ho.2.1, if_false, Bool.false_eq_true]
  rfl

theorem lastMatch_append (cs : List ComponentName) {component : ComponentName} {value : Text}
    (hvalue : ComponentName.parse value = component) :
    lastMatch (cs ++ [component]) value = some cs.length := by
  have hmatches : component.matches value = true := by
    rw [ComponentName.matches, hvalue]
    exact decide_eq_true rfl
  rw [lastMatch, reverse_append, reverse_singleton, singleton_append, List.findIdx?_cons,
    if_pos hmatches]
  simp

theorem parse_eq_event {value : Text} : ComponentName.parse value = .event ↔
    Recur.upper value = "VEVENT".toList := by
  constructor
  · intro h
    unfold ComponentName.parse at h
    dsimp only at h
    split at h
    · cases h
    · split at h
      · assumption
      · split at h
        · cases h
        · split at h
          · cases h
          · cases h
  · intro h
    rw [ComponentName.parse, h, if_neg (by decide), if_pos rfl]

theorem parse_eq_calendar {value : Text} : ComponentName.parse value = .calendar ↔
    Recur.upper value = "VCALENDAR".toList := by
  constructor
  · intro h
    unfold ComponentName.parse at h
    dsimp only at h
    split at h
    · assumption
    · split at h
      · cases h
      · split at h
        · cases h
        · split at h
          · cases h
          · cases h
  · intro h
    rw [ComponentName.parse, h, if_pos rfl]

/-- The two comparisons of names agree. -/
theorem eqIgnoreAsciiCase_iff {value name : Text} : eqIgnoreAsciiCase value name = true ↔
    Recur.upper value = Recur.upper name := by
  have hupper : ∀ s : Text, Recur.upper (s.map Char.toLower) = Recur.upper s := by
    intro s
    rw [Recur.upper, map_map]
    exact map_congr_left fun c _ => Char.toUpper_toLower_eq_toUpper c
  have hlower : ∀ s : Text, (Recur.upper s).map Char.toLower = s.map Char.toLower := by
    intro s
    rw [Recur.upper, map_map]
    exact map_congr_left fun c _ => Char.toLower_toUpper_eq_toLower c
  rw [eqIgnoreAsciiCase, beq_iff_eq]
  constructor
  · intro h
    rw [← hupper value, h, hupper]
  · intro h
    rw [← hlower value, h, hlower]

theorem eqIgnoreAsciiCase_event {value : Text} :
    eqIgnoreAsciiCase value "VEVENT".toList = true ↔ ComponentName.parse value = .event := by
  have hname : Recur.upper "VEVENT".toList = "VEVENT".toList := by decide
  rw [eqIgnoreAsciiCase_iff, parse_eq_event, hname]

theorem eqIgnoreAsciiCase_calendar {value : Text} :
    eqIgnoreAsciiCase value "VCALENDAR".toList = true ↔ ComponentName.parse value = .calendar := by
  have hname : Recur.upper "VCALENDAR".toList = "VCALENDAR".toList := by decide
  rw [eqIgnoreAsciiCase_iff, parse_eq_calendar, hname]

/-- **The component that was opened last is closed.** -/
theorem does_ends {l : Line} {component : ComponentName} (ho : Ordinary component)
    (hends : l.Ends component) {name : Text} {b : Builder} {cs : List ComponentName}
    (hallowed : Allowed ((inside name b (cs ++ [component]) : Parser env).step req l.raw).2) :
    Does req b (cs ++ [component]) [l.raw] b cs [.check] := by
  obtain ⟨c, -, ⟨hname, hvalue⟩, hstep⟩ := step_said hends (.inr rfl) hallowed
  have hother : eqIgnoreAsciiCase c.value "VEVENT".toList = false := by
    rw [← Bool.not_eq_true, eqIgnoreAsciiCase_event, hvalue]
    exact ho.2.1
  have hmatch : lastMatch (.calendar :: .event :: (cs ++ [component])) c.value =
    some (cs.length + 2) := lastMatch_append (.calendar :: .event :: cs) hvalue
  have hlast : (.calendar :: .event :: (cs ++ [component]))[cs.length + 2]? = some component := by
    simp
  have htake : (.calendar :: .event :: (cs ++ [component])).take (cs.length + 2) =
    .calendar :: .event :: cs := by simp
  have hcalendar : decide (some component = some .calendar) = false := by simp [ho.1]
  refine .one fun name => ?_
  have hcomponents : (inside name b (cs ++ [component]) : Parser env).components =
    .calendar :: .event :: (cs ++ [component]) := rfl
  rw [hstep, dispatch, if_neg (by rw [hname]; decide), if_pos hname, ends]
  simp only [hother, hcomponents, hmatch, hlast, htake, hcalendar, Option.isNone_some,
    Bool.false_eq_true, if_false, Bool.false_and, Bool.or_false]
  rfl

/-- Lines that are quiet in an event, and set no UID. -/
def Idles (req : Request env) (name : Text) (b : Builder) (cs : List ComponentName)
    (lines : List RawLine) : Prop :=
  Allowed ((inside name b cs : Parser env).run req lines).2 →
    ∃ b' es, Does req b cs lines b' cs es ∧ Quiet es ∧ b'.uid = b.uid

/-- A component is opened, gone through and closed. -/
theorem idles_child {component : ComponentName} {o c : Line} {inner : List RawLine}
    (ordinary : Ordinary component)
    (begins : o.Begins component) (ends : c.Ends component) {name : Text} {b : Builder}
    {cs : List ComponentName}
    (hinner : Idles req name b (cs ++ [component]) inner) :
    Idles req name b cs ([o.raw] ++ (inner ++ [c.raw])) := by
  intro hallowed
  rw [run_append, run_singleton] at hallowed
  have hopen : Does req b cs [o.raw] b (cs ++ [component]) [.check] :=
    does_begins ordinary begins hallowed.left
  rw [← run_singleton, hopen name] at hallowed
  have hrest := hallowed.right
  rw [run_append] at hrest
  obtain ⟨b', es, hdoes, hquiet, huid⟩ := hinner hrest.left
  rw [hdoes name] at hrest
  have hlast := hrest.right
  rw [run_singleton] at hlast
  have hclose : Does req b' (cs ++ [component]) [c.raw] b' cs [.check] :=
    does_ends ordinary ends hlast
  refine ⟨b', [Effect.check] ++ (es ++ [Effect.check]),
    hopen.append (hdoes.append hclose), ?_, huid⟩
  have hcheck : Quiet [.check] := quiet_check quiet_nil
  exact quiet_append.mpr ⟨hcheck, quiet_append.mpr ⟨hquiet, hcheck⟩⟩

theorem Idles.append {name : Text} {b : Builder} {cs : List ComponentName} {xs ys : List RawLine}
    (h : Idles req name b cs xs) (h' : ∀ b, Idles req name b cs ys) :
    Idles req name b cs (xs ++ ys) := by
  intro hallowed
  rw [run_append] at hallowed
  obtain ⟨b1, es, hdoes, hquiet, huid⟩ := h hallowed.left
  rw [hdoes name] at hallowed
  obtain ⟨b2, fs, hdoes', hquiet', huid'⟩ := h' b1 hallowed.right
  exact ⟨b2, es ++ fs, hdoes.append hdoes', quiet_append.mpr ⟨hquiet, hquiet'⟩, huid'.trans huid⟩

/-- **The lines of a component are quiet, and set no UID.** -/
theorem idles_nested (hreq : req.bindings = []) {ls : List Line} (hls : Nested ls) (name : Text)
    (b : Builder)
    {cs : List ComponentName} (hcs : cs ≠ []) : Idles req name b cs (ls.map Line.raw) := by
  induction hls generalizing b cs with
  | nil => exact fun _ => ⟨b, [], .nil b cs, quiet_nil, rfl⟩
  | @line l ls plain _ ih =>
    have hline : Idles req name b cs [l.raw] := by
      intro _
      obtain ⟨b', es, hdoes, hquiet, huid⟩ := does_plain hreq plain b cs
      exact ⟨b', es, hdoes, hquiet, huid.resolve_right fun h => hcs h.1⟩
    exact hline.append fun b => ih b hcs
  | @child component o c inner ls ordinary begins _ ends _ ihinner ihrest =>
    have hopen : cs ++ [component] ≠ [] :=
      append_ne_nil_of_right_ne_nil cs (cons_ne_nil component [])
    have hchild := idles_child ordinary begins ends (ihinner b hopen)
    have hlines : (o :: (inner ++ c :: ls)).map Line.raw =
      ([o.raw] ++ (inner.map Line.raw ++ [c.raw])) ++ ls.map Line.raw := by
      simp
    rw [hlines]
    exact hchild.append fun b => ihrest b hcs

/-! ## Events -/

/-- **What an event is made of is quiet**, and its UID is one that it writes. -/
theorem does_body (hreq : req.bindings = []) {body : List Item}
    (hbody : ∀ item ∈ body, item.WellFormed) {name : Text}
    {b : Builder} (hallowed : Allowed ((inside name b [] : Parser env).run req
      ((body.flatMap Item.lines).map Line.raw)).2) :
    ∃ b' es, Does req b [] ((body.flatMap Item.lines).map Line.raw) b' [] es ∧ Quiet es ∧
      (b'.uid = b.uid ∨ b'.uid ∈ body.filterMap Item.writes) := by
  induction body generalizing b with
  | nil => exact ⟨b, [], .nil b [], quiet_nil, .inl rfl⟩
  | cons item body ih =>
    rw [List.flatMap_cons, map_append] at hallowed ⊢
    rw [run_append] at hallowed
    have hitem : ∃ b1 es, Does req b [] (item.lines.map Line.raw) b1 [] es ∧ Quiet es ∧
        (b1.uid = b.uid ∨ item.writes = some b1.uid) := by
      have hwell := hbody item (.head _)
      cases item with
      | line l =>
        obtain ⟨b1, es, hdoes, hquiet, huid⟩ := does_plain hreq hwell b []
        exact ⟨b1, es, hdoes, hquiet, huid.imp_right And.right⟩
      | child opening inner closing =>
        obtain ⟨component, ordinary, begins, nested, ends⟩ := hwell
        have hlines : (Item.child opening inner closing).lines.map Line.raw =
            [opening.raw] ++ (inner.map Line.raw ++ [closing.raw]) := by
          simp [Item.lines]
        have hinner := idles_nested hreq nested name b (cons_ne_nil component [])
        rw [hlines] at hallowed ⊢
        obtain ⟨b1, es, hdoes, hquiet, huid⟩ : ∃ b' es, Does req b [] _ b' [] es ∧ Quiet es ∧
          b'.uid = b.uid := idles_child ordinary begins ends hinner hallowed.left
        exact ⟨b1, es, hdoes, hquiet, .inl huid⟩
    obtain ⟨b1, es, hdoes, hquiet, huid⟩ := hitem
    rw [hdoes name] at hallowed
    obtain ⟨b2, fs, hrest, hquiet2, huid2⟩ :=
      ih (fun i hi => hbody i (mem_cons_of_mem item hi)) hallowed.right
    refine ⟨b2, es ++ fs, hdoes.append hrest, quiet_append.mpr ⟨hquiet, hquiet2⟩, ?_⟩
    rcases huid2 with huid2 | huid2
    · rcases huid with huid | huid
      · exact .inl (huid2.trans huid)
      · exact .inr (mem_filterMap.mpr ⟨item, .head _, huid.trans (congrArg some huid2.symm)⟩)
    · right
      obtain ⟨i, hi, hwrites⟩ := mem_filterMap.mp huid2
      exact mem_filterMap.mpr ⟨i, mem_cons_of_mem item hi, hwrites⟩

theorem quiet_endOf (b : Builder) (start : EventTime) : Quiet (b.endOf env start).2 := by
  unfold Builder.endOf
  cases b.finish with
  | some finish => exact quiet_nil
  | none =>
    cases start with
    | zoned wall zone => exact quiet_nil
    | instant when_ => exact quiet_nil
    | date d =>
      dsimp only
      split
      · exact quiet_nil
      · split
        · exact quiet_nil
        · split
          · exact quiet_nil
          · exact Builder.quiet_record rfl

theorem quiet_admitted (e : CalEvent) : Quiet (Builder.admitted env e).2 := by
  unfold Builder.admitted
  split
  · exact Builder.quiet_record rfl
  · split
    · exact Builder.quiet_record rfl
    · exact quiet_nil

/-- What is said of an event when it is finished is about that event only. -/
theorem quiet_finished (b : Builder) (zone : Text) : Quiet (b.finished env zone).2 := by
  unfold Builder.finished
  split
  · exact quiet_nil
  · split
    · exact quiet_nil
    · split
      · exact quiet_nil
      · dsimp only
        split
        · exact quiet_endOf b _
        · exact quiet_append.mpr ⟨quiet_endOf b _, quiet_admitted _⟩

/-- **The end of an event** keeps one event, buries a series or does neither; the event's UID has
nothing to do with the name of the calendar. -/
inductive Settles (req : Request env) (b : Builder) : Prop
  | nothing (quiet : ∀ name, Quiet (endsEvent req name b))
  | event (e : CalEvent) (sequence : Nat) (es : List Effect) (quiet : Quiet es)
      (eq : ∀ name, ∃ n, endsEvent req name b = .chargeEvent n 0 :: es ++
        [Effect.keep { e with calendar := name } sequence])
  | tombstone (sequence : Nat) (es : List Effect) (quiet : Quiet es) (uid : b.uid ≠ [])
      (eq : ∀ name, endsEvent req name b = es ++ [Effect.bury b.uid sequence])

theorem settles (b : Builder) : Settles req b := by
  have hadopted : b.adoptCancelledOverride.uid = b.uid := by
    unfold Builder.adoptCancelledOverride
    split
    · rfl
    · rfl
  have hmeter : ∀ n, Quiet [.chargeEvent n 0, .admitEvent] := by
    intro n
    simp [Effect.isFailure, Effect.asKept, Effect.asBuried]
  have habandon : Quiet [.abandonEvent] := by
    simp [Effect.isFailure, Effect.asKept, Effect.asBuried]
  have hrecord : ∀ {d : IcsDiagnostic}, d.isFailure = false → Quiet [.record d, .abandonEvent] :=
    fun hd =>
    quiet_append.mpr ⟨Builder.quiet_record hd, habandon⟩
  by_cases hquarantined : b.adoptCancelledOverride.quarantined = true
  · exact .nothing fun name => by
      rw [endsEvent, if_pos hquarantined]
      exact hrecord rfl
  · by_cases htombstone : b.adoptCancelledOverride.isSeriesTombstone = true
    · refine .tombstone (b.adoptCancelledOverride.sequence.getD 0) _ (hmeter (byteLen b.uid)) ?_
        fun name => ?_
      · -- a series without a UID cannot be cancelled
        simp only [Builder.isSeriesTombstone, Bool.and_eq_true, decide_eq_true_eq] at htombstone
        rw [← hadopted]
        exact htombstone.1.2
      · rw [endsEvent, if_neg hquarantined, if_pos htombstone, hadopted]
        rfl
    · by_cases hstart : b.adoptCancelledOverride.start.isNone = true
      · exact .nothing fun name => by
          rw [endsEvent, if_neg hquarantined, if_neg htombstone, if_pos hstart]
          exact hrecord rfl
      · by_cases hwindow : (req.window.any fun window =>
          !b.adoptCancelledOverride.mayOccurIn env window req.defaultZone) = true
        · exact .nothing fun name => by
            rw [endsEvent, if_neg hquarantined, if_neg htombstone, if_neg hstart, if_pos hwindow]
            exact habandon
        · have hfinished : Quiet (b.adoptCancelledOverride.finished env req.defaultZone).2 :=
            quiet_finished _ _
          cases hevent : (b.adoptCancelledOverride.finished env req.defaultZone).1 with
          | none =>
            refine .nothing fun name => ?_
            rw [endsEvent, if_neg hquarantined, if_neg htombstone, if_neg hstart, if_neg hwindow]
            dsimp only
            rw [hevent]
            exact quiet_append.mpr ⟨quiet_append.mpr ⟨hmeter _, hfinished⟩,
              Builder.quiet_record rfl⟩
          | some e =>
            refine .event e (b.adoptCancelledOverride.sequence.getD 0)
              (.admitEvent :: (b.adoptCancelledOverride.finished env req.defaultZone).2) ?_
                fun name => ?_
            · exact quiet_cons.mpr ⟨⟨rfl, rfl, rfl⟩, hfinished⟩
            · rw [endsEvent, if_neg hquarantined, if_neg htombstone, if_neg hstart, if_neg hwindow]
              dsimp only
              rw [hevent]
              exact ⟨_, rfl⟩

end Parser

end Thegn.Ics
