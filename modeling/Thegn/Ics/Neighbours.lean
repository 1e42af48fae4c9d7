import Thegn.Ics.Blocks

set_option autoImplicit false

/-! # One bad event does not disturb its neighbours

What a calendar keeps is what its events keep, one after the other (`tidy_parts`), so that replacing
one event leaves the others as they were (`neighbours_undisturbed`), as long as no event introduces
the UID of another. An event introduces the UIDs that it writes and, without one, the UID that is
made up for it.
-/

namespace Thegn.Ics

open Thegn.Text Instant Recur.Gregorian List
open Thegn.Calendar (AdmissionLimit)

/-! ## What is kept -/

/-- The events that are kept. -/
def keptOf (es : List Effect) : List (CalEvent × Nat) := es.filterMap Effect.asKept

/-- The series that are buried. -/
def buriedOf (es : List Effect) : List (Text × Nat) := es.filterMap Effect.asBuried

def keptUids (es : List Effect) : List Text := (keptOf es).map fun entry => entry.1.uid

def buriedUids (es : List Effect) : List Text := (buriedOf es).map Prod.fst

@[simp] theorem keptOf_append (es fs : List Effect) : keptOf (es ++ fs) = keptOf es ++ keptOf fs :=
  filterMap_append

@[simp] theorem keptUids_append (es fs : List Effect) :
    keptUids (es ++ fs) = keptUids es ++ keptUids fs := by
  simp [keptUids]

@[simp] theorem buriedOf_append (es fs : List Effect) :
    buriedOf (es ++ fs) = buriedOf es ++ buriedOf fs :=
  filterMap_append

@[simp] theorem buriedUids_append (es fs : List Effect) :
    buriedUids (es ++ fs) = buriedUids es ++ buriedUids fs := by
  simp [buriedUids]

theorem Quiet.keptOf_eq {es : List Effect} (h : Quiet es) : keptOf es = [] := h.asKept

theorem Quiet.buriedOf_eq {es : List Effect} (h : Quiet es) : buriedOf es = [] := h.asBuried

theorem Quiet.keptUids_eq {es : List Effect} (h : Quiet es) : keptUids es = [] := by
  rw [keptUids, h.keptOf_eq]
  rfl

theorem Quiet.buriedUids_eq {es : List Effect} (h : Quiet es) : buriedUids es = [] := by
  rw [buriedUids, h.buriedOf_eq]
  rfl

/-! ## Versions and cancellations -/

/-- The largest of equal numbers. -/
theorem newest_of_unique {α κ : Type} [DecidableEq κ] {key : α → κ} {number : α → Nat}
    {entries : List α} {a : α}
    (ha : a ∈ entries) (hunique : ∀ b ∈ entries, key b = key a → b = a) :
    newest key number entries (key a) = some (number a) := by
  have hmem : number a ∈ (entries.filter fun b => key b = key a).map number :=
    mem_map_of_mem (mem_filter.mpr ⟨ha, by simp⟩)
  rw [newest, List.max?_eq_some_iff]
  refine ⟨hmem, fun n hn => ?_⟩
  obtain ⟨b, hb, rfl⟩ := mem_map.mp hn
  obtain ⟨hb, hkey⟩ := mem_filter.mp hb
  rw [hunique b hb (by simpa using hkey)]

/-- **Where every event has a UID of its own and no cancelled series has one of them, all events are
left.** -/
theorem sortOut_eq (env : Env) {events : List (CalEvent × Nat)} {tombstones : List (Text × Nat)}
    (hnodup : (events.map fun entry => entry.1.uid).Nodup)
    (hdisjoint : ∀ u ∈ events.map fun entry => entry.1.uid, u ∉ tombstones.map Prod.fst) :
    (sortOut env events tombstones).1 = events.map Prod.fst := by
  have hunique : ∀ a ∈ events, ∀ b ∈ events, b.1.uid = a.1.uid → b = a := fun a ha b hb h =>
    inj_on_of_nodup_map hnodup hb ha h
  have hlatest : latestVersions env events = events := by
    refine filter_eq_self.mpr fun a ha => ?_
    rw [newest_of_unique ha fun b hb hkey => hunique a ha b hb (congrArg Prod.fst hkey)]
    simp
  have hcancelled : ∀ a ∈ events, a.1.uid ∉ cancelledUids events tombstones := by
    intro a ha hmem
    have htombstone : a.1.uid ∈ tombstones.map Prod.fst := mem_dedup.mp (mem_filter.mp hmem).1
    exact hdisjoint a.1.uid (mem_map_of_mem ha) htombstone
  show ((latestVersions env events).filter fun entry =>
    decide (entry.1.uid ∉ cancelledUids _ tombstones)).map Prod.fst = _
  rw [hlatest, filter_eq_self.mpr fun a ha => by simpa using hcancelled a ha]

/-! ## Lines of a calendar -/

namespace Parser

variable {env : Env} (req : Request env)

/-- A line outside of events changes nothing but the name of the calendar. -/
theorem step_outside {l : Line} (h : l.Plain) {p : Parser env} (hcur : p.cur = none)
    (hdepth : p.eventDepth = none) :
    ∃ name es, p.step req l.raw = ({ p with calName := name }, es) ∧ Quiet es := by
  have hself : ∀ es, Quiet es → p.step req l.raw = (p, es) →
      ∃ name es, p.step req l.raw = ({ p with calName := name }, es) ∧ Quiet es :=
    fun es hes hp => ⟨p.calName, es, hp, hes⟩
  rcases step_cases req l with hstep | hstep | hstep | ⟨c, hc, hstep⟩
  · exact hself _ (quiet_check (quiet_oversized p l.raw)) (hstep p)
  · exact hself _ (quiet_check quiet_nil) (hstep p)
  · refine hself _ (quiet_check (quiet_malformed p l.raw)) ((hstep p).trans ?_)
    -- no event is there to be quarantined
    have hmalformed : (p.malformed l.raw).1 = p := by
      unfold malformed
      rw [hdepth]
      split
      · rfl
      · rfl
    rw [hmalformed]
  · obtain ⟨hbegin, hend⟩ := h c hc
    have hdispatch : p.dispatch req c = (if c.name = "X-WR-CALNAME".toList
      then { p with calName := c.value } else p, []) := by
      rw [dispatch, if_neg hbegin, if_neg hend, reads, hcur]
    have hstep' := hstep p
    rw [hdispatch] at hstep'
    by_cases hname : c.name = "X-WR-CALNAME".toList
    · rw [if_pos hname] at hstep'
      exact ⟨c.value, _, hstep', quiet_check quiet_nil⟩
    · rw [if_neg hname] at hstep'
      exact hself _ (quiet_check quiet_nil) hstep'

theorem step_opening {l : Line} (h : l.Begins .calendar) (hfits : l.Fits) :
    ({} : Parser env).step req l.raw = (between [], [.check]) := by
  obtain ⟨c, hc, hname, hvalue⟩ := h
  rw [step_of_fits req hfits hc, dispatch, if_pos hname, begins, hvalue]
  rfl

theorem step_closing {l : Line} (h : l.Ends .calendar) (hfits : l.Fits) (name : Text) :
    (between name : Parser env).step req l.raw = (behind name, [.check]) := by
  obtain ⟨c, hc, hname, hvalue⟩ := h
  have hother : eqIgnoreAsciiCase c.value "VEVENT".toList = false := by
    rw [← Bool.not_eq_true, eqIgnoreAsciiCase_event, hvalue]
    decide
  have hcalendar : eqIgnoreAsciiCase c.value "VCALENDAR".toList = true :=
    eqIgnoreAsciiCase_calendar.mpr hvalue
  have hmatch : lastMatch [.calendar] c.value = some 0 := lastMatch_append [] hvalue
  have hcomponents : (between name : Parser env).components = [.calendar] := rfl
  rw [step_of_fits req hfits hc, dispatch, if_neg (by rw [hname]; decide), if_pos hname, ends]
  simp only [hother, hcalendar, hcomponents, hmatch, Option.isNone_some, Bool.false_eq_true,
    if_false, Bool.and_true]
  rfl

theorem step_beginsEvent {l : Line} (h : l.Begins .event) (hfits : l.Fits) (name : Text) :
    (between name : Parser env).step req l.raw =
      (inside name {} [], [.check, .beginEvent, .chargeEvent (2 * env.eventSize) 0]) := by
  obtain ⟨c, hc, hname, hvalue⟩ := h
  rw [step_of_fits req hfits hc, dispatch, if_pos hname, begins, hvalue]
  rfl

theorem step_endsEvent {l : Line} (h : l.Ends .event) {name : Text} {b : Builder}
    (hallowed : Allowed ((inside name b [] : Parser env).step req l.raw).2) (name' : Text) :
    (inside name' b [] : Parser env).step req l.raw =
      (between name', .check :: endsEvent req name' b) := by
  obtain ⟨c, -, ⟨hname, hvalue⟩, hstep⟩ := step_said h (.inr rfl) hallowed
  have hevent : eqIgnoreAsciiCase c.value "VEVENT".toList = true :=
    eqIgnoreAsciiCase_event.mpr hvalue
  have hmatch : lastMatch [.calendar, .event] c.value = some 1 :=
    lastMatch_append [.calendar] hvalue
  have hcomponents : (inside name' b [] : Parser env).components = [.calendar, .event] := rfl
  have hchild : (inside name' b [] : Parser env).inChild = false := rfl
  rw [hstep, dispatch, if_neg (by rw [hname]; decide), if_pos hname, ends]
  simp only [hevent, hcomponents, hmatch, hchild, Option.isNone_some, Bool.false_eq_true, if_true,
    if_false]
  rfl

end Parser

/-! ## Parts of a calendar -/

section

variable {env : Env} (req : Request env)

/-- A request for a document that defines no zones. -/
abbrev Request.zoneless (env : Env) (zone : Text) (window : Option (Day × Day)) : Request env :=
  ⟨[], zone, window⟩

/-- What the loop does with parts of a calendar. -/
def runParts (name : Text) (parts : List Part) : Parser env × List Effect :=
  (Parser.between name).run req ((parts.flatMap Part.lines).map Line.raw)

/-- The name of the calendar after them. -/
def nameAfter (name : Text) (parts : List Part) : Text := (runParts req name parts).1.calName

/-- The events that parts of a calendar make, whatever else is in the document. -/
def eventsOf (name : Text) (parts : List Part) : List CalEvent :=
  (keptOf (runParts req name parts).2).map Prod.fst

/-- The UIDs that a part writes. -/
def Part.written : Part → List Text
  | .line _ => []
  | .event _ body _ => body.filterMap Item.writes

/-- A UID that a part brings into the document: one that it writes, or that of the event that it
makes. -/
def Part.Introduces (part : Part) (uid : Text) : Prop :=
  uid ∈ part.written ∨ ∃ e ∈ eventsOf req [] [part], e.uid = uid

/-- Two parts have no UID in common. -/
def Apart (p q : Part) : Prop := ∀ uid, p.Introduces req uid → ¬ q.Introduces req uid

theorem introduces_iff {part : Part} {uid : Text} :
    part.Introduces req uid ↔ uid ∈ part.written ++ (eventsOf req [] [part]).map CalEvent.uid := by
  rw [Part.Introduces, mem_append, mem_map]

instance (p q : Part) : Decidable (Apart req p q) :=
  decidable_of_iff (∀ uid ∈ p.written ++ (eventsOf req [] [p]).map CalEvent.uid,
    uid ∉ q.written ++ (eventsOf req [] [q]).map CalEvent.uid)
      (by simp only [Apart, introduces_iff])

theorem Apart.symm {p q : Part} (h : Apart req p q) : Apart req q p := fun uid hq hp => h uid hp hq

/-- What is known of what parts do. -/
structure Tidy (parts : List Part) (es : List Effect) : Prop where
  calm : Calm es
  kept : ∀ u ∈ keptUids es, ∃ part ∈ parts, part.Introduces req u
  buried : ∀ u ∈ buriedUids es, ∃ part ∈ parts, part.Introduces req u
  nodup : (keptUids es).Nodup
  disjoint : ∀ u ∈ keptUids es, u ∉ buriedUids es

variable {req}

theorem Quiet.tidy {es : List Effect} (h : Quiet es) (parts : List Part) : Tidy req parts es where
  calm := h.calm
  kept := by simp [h.keptUids_eq]
  buried := by simp [h.buriedUids_eq]
  nodup := by simp [h.keptUids_eq]
  disjoint := by simp [h.keptUids_eq]

theorem tidy_of_kept {part : Part} {es : List Effect} {uid : Text} (hcalm : Calm es)
    (hkept : keptUids es = [uid])
    (hburied : buriedUids es = []) (hintroduces : part.Introduces req uid) :
    Tidy req [part] es where
  calm := hcalm
  kept := by
    intro u hu
    rw [hkept, mem_singleton] at hu
    exact ⟨part, mem_singleton_self part, hu ▸ hintroduces⟩
  buried := by simp [hburied]
  nodup := by simp [hkept]
  disjoint := by simp [hburied]

theorem tidy_of_buried {part : Part} {es : List Effect} {uid : Text} (hcalm : Calm es)
    (hkept : keptUids es = [])
    (hburied : buriedUids es = [uid]) (hintroduces : part.Introduces req uid) :
    Tidy req [part] es where
  calm := hcalm
  kept := by simp [hkept]
  buried := by
    intro u hu
    rw [hburied, mem_singleton] at hu
    exact ⟨part, mem_singleton_self part, hu ▸ hintroduces⟩
  nodup := by simp [hkept]
  disjoint := by simp [hkept]

theorem Tidy.append {xs ys : List Part} {es fs : List Effect} (h : Tidy req xs es)
    (h' : Tidy req ys fs)
    (hapart : ∀ p ∈ xs, ∀ q ∈ ys, Apart req p q) : Tidy req (xs ++ ys) (es ++ fs) := by
  -- a UID of the one list of parts is none of the other
  have hcross : ∀ u, (∃ p ∈ xs, p.Introduces req u) → ¬ ∃ q ∈ ys, q.Introduces req u := by
    rintro u ⟨p, hp, hup⟩ ⟨q, hq, huq⟩
    exact hapart p hp q hq u hup huq
  have hwiden : ∀ u, (∃ p ∈ xs, p.Introduces req u) ∨ (∃ q ∈ ys, q.Introduces req u) →
    ∃ p ∈ xs ++ ys, p.Introduces req u := by
    rintro u (⟨p, hp, hup⟩ | ⟨q, hq, huq⟩)
    · exact ⟨p, mem_append_left ys hp, hup⟩
    · exact ⟨q, mem_append_right xs hq, huq⟩
  constructor
  · exact calm_append.mpr ⟨h.calm, h'.calm⟩
  · intro u hu
    rw [keptUids_append, mem_append] at hu
    exact hwiden u (hu.imp (h.kept u) (h'.kept u))
  · intro u hu
    rw [buriedUids_append, mem_append] at hu
    exact hwiden u (hu.imp (h.buried u) (h'.buried u))
  · rw [keptUids_append, nodup_append]
    refine ⟨h.nodup, h'.nodup, ?_⟩
    rintro u hu _ hv rfl
    exact hcross u (h.kept u hu) (h'.kept u hv)
  · intro u hu
    rw [keptUids_append, mem_append] at hu
    rw [buriedUids_append, mem_append, not_or]
    rcases hu with hu | hu
    · exact ⟨h.disjoint u hu, fun hb => hcross u (h.kept u hu) (h'.buried u hb)⟩
    · exact ⟨fun hb => hcross u (h.buried u hb) (h'.kept u hu), h'.disjoint u hu⟩

/-- An event is begun, read and ended. -/
theorem run_event (hreq : req.bindings = []) {o c : Line} {body : List Item}
    (hwell : (Part.event o body c).WellFormed)
    {name : Text} (hallowed : Allowed (runParts req name [.event o body c]).2) :
    ∃ b es, Quiet es ∧ (b.uid = [] ∨ b.uid ∈ body.filterMap Item.writes) ∧
      ∀ name', runParts req name' [.event o body c] =
        (Parser.between name', es ++ Parser.endsEvent req name' b) := by
  obtain ⟨⟨hbegins, hfits⟩, hbody, hends⟩ := hwell
  have hlines : ([Part.event o body c].flatMap Part.lines).map Line.raw =
      [o.raw] ++ ((body.flatMap Item.lines).map Line.raw ++ [c.raw]) := by
    simp [Part.lines]
  have hopen : ∀ name', (Parser.between name').run req [o.raw] =
      (Parser.inside name' {} [], [.check, .beginEvent, .chargeEvent (2 * env.eventSize) 0]) := by
    intro name'
    rw [Parser.run_singleton, Parser.step_beginsEvent req hbegins hfits]
  unfold runParts at hallowed ⊢
  rw [hlines] at hallowed ⊢
  rw [Parser.run_append, hopen name] at hallowed
  have hrest := hallowed.right
  rw [Parser.run_append] at hrest
  obtain ⟨b, es, hdoes, hquiet, huid⟩ := Parser.does_body hreq hbody hrest.left
  rw [hdoes name, Parser.run_singleton] at hrest
  refine ⟨b, [Effect.check, .beginEvent, .chargeEvent (2 * env.eventSize) 0] ++
    (es ++ [Effect.check]), ?_, huid, fun name' => ?_⟩
  · have hbegin : Quiet [.check, .beginEvent, .chargeEvent (2 * env.eventSize) 0] := by
      simp [Effect.isFailure, Effect.asKept, Effect.asBuried]
    exact quiet_append.mpr ⟨hbegin, quiet_append.mpr ⟨hquiet, Parser.quiet_check quiet_nil⟩⟩
  · rw [Parser.run_append, hopen name', Parser.run_append, hdoes name', Parser.run_singleton,
      Parser.step_endsEvent req hends hrest.right name']
    simp

/-- **A part is tidy**, and the loop is between two events after it. -/
theorem tidy_part (hreq : req.bindings = []) {part : Part} (hwell : part.WellFormed) {name : Text}
    (hallowed : Allowed (runParts req name [part]).2) :
    (runParts req name [part]).1 = Parser.between (nameAfter req name [part]) ∧
    Tidy req [part] (runParts req name [part]).2 := by
  cases part with
  | line l =>
    have hrun : runParts req name [.line l] = (Parser.between name).step req l.raw :=
      Parser.run_singleton req _ l.raw
    obtain ⟨name', es, hstep, hquiet⟩ :=
      Parser.step_outside req hwell (p := Parser.between name) rfl rfl
    rw [nameAfter, hrun, hstep]
    exact ⟨rfl, hquiet.tidy _⟩
  | event o body c =>
    obtain ⟨b, es, hquiet, huid, hrun⟩ := run_event hreq hwell hallowed
    rw [nameAfter, hrun name]
    refine ⟨rfl, ?_⟩
    cases (Parser.settles b : Parser.Settles req b) with
    | nothing hnothing => exact (quiet_append.mpr ⟨hquiet, hnothing name⟩).tidy _
    | tombstone sequence fs hfs hne heq =>
      rw [heq name, ← append_assoc]
      have hrest : Quiet (es ++ fs) := quiet_append.mpr ⟨hquiet, hfs⟩
      refine tidy_of_buried ?_ ?_ ?_ (.inl (huid.resolve_left hne))
      · exact calm_append.mpr ⟨hrest.calm, by simp [Calm, Effect.isFailure]⟩
      · rw [keptUids_append, hrest.keptUids_eq]
        rfl
      · rw [buriedUids_append, hrest.buriedUids_eq]
        rfl
    | event e sequence fs hfs heq =>
      -- the event is the same for every name of the calendar, but for that name
      have hevents : ∀ name', ∃ gs, Quiet gs ∧ es ++ Parser.endsEvent req name' b = gs ++
            [Effect.keep { e with calendar := name' } sequence] := by
        intro name'
        obtain ⟨n, hn⟩ := heq name'
        refine ⟨es ++ .chargeEvent n 0 :: fs, ?_, by rw [hn]; simp⟩
        exact quiet_append.mpr ⟨hquiet, quiet_append.mpr ⟨Builder.quiet_charge n 0, hfs⟩⟩
      have hintroduces : (Part.event o body c).Introduces req e.uid := by
        obtain ⟨gs, hgs, hends⟩ := hevents []
        refine .inr ⟨{ e with calendar := [] }, ?_, rfl⟩
        rw [eventsOf, hrun [], hends, keptOf_append, hgs.keptOf_eq]
        exact mem_singleton_self _
      obtain ⟨gs, hgs, hends⟩ := hevents name
      rw [hends]
      refine tidy_of_kept ?_ ?_ ?_ hintroduces
      · exact calm_append.mpr ⟨hgs.calm, by simp [Calm, Effect.isFailure]⟩
      · rw [keptUids_append, hgs.keptUids_eq]
        rfl
      · rw [buriedUids_append, hgs.buriedUids_eq]
        rfl

theorem runParts_append {xs : List Part} {name : Text}
    (hxs : (runParts req name xs).1 = Parser.between (nameAfter req name xs)) (ys : List Part) :
    runParts req name (xs ++ ys) =
      ((runParts req (nameAfter req name xs) ys).1,
        (runParts req name xs).2 ++ (runParts req (nameAfter req name xs) ys).2) := by
  have hlines : ((xs ++ ys).flatMap Part.lines).map Line.raw =
      (xs.flatMap Part.lines).map Line.raw ++ (ys.flatMap Part.lines).map Line.raw := by
    rw [flatMap_append, map_append]
  rw [runParts, hlines, Parser.run_append]
  unfold runParts at hxs ⊢
  rw [hxs]

theorem runParts_allowed {xs ys : List Part} {name : Text}
    (h : Allowed (runParts req name (xs ++ ys)).2) : Allowed (runParts req name xs).2 := by
  rw [runParts, flatMap_append, map_append, Parser.run_append] at h
  exact h.left

/-- **Parts without a UID in common are tidy together.** -/
theorem tidy_parts (hreq : req.bindings = []) {parts : List Part}
    (hwell : ∀ part ∈ parts, part.WellFormed)
    (hapart : parts.Pairwise (Apart req)) {name : Text}
    (hallowed : Allowed (runParts req name parts).2) :
    (runParts req name parts).1 = Parser.between (nameAfter req name parts) ∧
    Tidy req parts (runParts req name parts).2 := by
  induction parts generalizing name with
  | nil => exact ⟨rfl, quiet_nil.tidy []⟩
  | cons part parts ih =>
    obtain ⟨hfirst, hrest⟩ := pairwise_cons.mp hapart
    have hlines : runParts req name (part :: parts) = runParts req name ([part] ++ parts) := rfl
    have hone : Allowed (runParts req name [part]).2 := runParts_allowed (hlines ▸ hallowed)
    obtain ⟨hbetween, htidy⟩ := tidy_part hreq (hwell part (.head _)) hone
    have hrun := runParts_append hbetween parts
    rw [hlines, hrun] at hallowed
    obtain ⟨hbetween', htidy'⟩ :=
      ih (fun p hp => hwell p (mem_cons_of_mem part hp)) hrest hallowed.right
    constructor
    · rw [nameAfter, hlines, hrun]
      exact hbetween'
    · rw [hlines, hrun]
      refine htidy.append htidy' fun p hp q hq => ?_
      rw [mem_singleton.mp hp]
      exact hfirst q hq

/-- The events of some parts are those of the first ones, and of the others under the name that
these leave. -/
theorem eventsOf_append (hreq : req.bindings = []) {xs ys : List Part}
    (hwell : ∀ part ∈ xs, part.WellFormed)
    (hapart : xs.Pairwise (Apart req)) {name : Text}
    (hallowed : Allowed (runParts req name (xs ++ ys)).2) :
    eventsOf req name (xs ++ ys) = eventsOf req name xs ++ eventsOf req (nameAfter req name xs) ys ∧
      Allowed (runParts req (nameAfter req name xs) ys).2 := by
  obtain ⟨hbetween, -⟩ := tidy_parts hreq hwell hapart (runParts_allowed hallowed)
  have hrun := runParts_append hbetween ys
  rw [hrun] at hallowed
  refine ⟨?_, hallowed.right⟩
  rw [eventsOf, hrun, keptOf_append, map_append]
  rfl

/-- An event leaves the name of the calendar as it is. -/
theorem nameAfter_event (hreq : req.bindings = []) {o c : Line} {body : List Item}
    (hwell : (Part.event o body c).WellFormed)
    {name : Text} (hallowed : Allowed (runParts req name [.event o body c]).2) :
    nameAfter req name [.event o body c] = name := by
  obtain ⟨b, es, -, -, hrun⟩ := run_event hreq hwell hallowed
  rw [nameAfter, hrun name]
  rfl

/-- So the events around an event are the same whatever it is. -/
theorem eventsOf_around (hreq : req.bindings = []) {before behind : List Part} {o c : Line}
    {body : List Item} (hwell : ∀ part ∈ before ++ .event o body c :: behind, part.WellFormed)
    (hapart : (before ++ .event o body c :: behind).Pairwise (Apart req)) {name : Text}
    (hallowed : Allowed (runParts req name (before ++ .event o body c :: behind)).2) :
    eventsOf req name (before ++ .event o body c :: behind) = eventsOf req name before ++
      (eventsOf req (nameAfter req name before) [Part.event o body c] ++
        eventsOf req (nameAfter req name before) behind) := by
  obtain ⟨hbefore, -, -⟩ := pairwise_append.mp hapart
  obtain ⟨hfirst, hrest⟩ :=
    eventsOf_append hreq (fun p hp => hwell p (mem_append_left _ hp)) hbefore hallowed
  have hevent : (Part.event o body c).WellFormed := hwell _ (mem_append_right _ (.head _))
  have hlines : Part.event o body c :: behind = [Part.event o body c] ++ behind := rfl
  rw [hlines] at hrest
  obtain ⟨hsecond, -⟩ :=
    eventsOf_append hreq (fun p hp => mem_singleton.mp hp ▸ hevent) (pairwise_singleton _ _) hrest
  rw [nameAfter_event hreq hevent (runParts_allowed hrest)] at hsecond
  rw [hfirst, hlines, hsecond]

/-! ## Documents -/

theorem run_rest {ls : List Line} (hls : ∀ l ∈ ls, l.Plain) (name : Text) :
    ∃ name' es, (Parser.behind name).run req (ls.map Line.raw) = (Parser.behind name', es) ∧
    Quiet es := by
  induction ls generalizing name with
  | nil => exact ⟨name, [], rfl, quiet_nil⟩
  | cons l ls ih =>
    obtain ⟨name1, es, hstep, hquiet⟩ :=
      Parser.step_outside req (hls l (.head _)) (p := Parser.behind name) rfl rfl
    obtain ⟨name2, fs, hrun, hquiet'⟩ := ih (fun m hm => hls m (mem_cons_of_mem l hm)) name1
    refine ⟨name2, es ++ fs, ?_, quiet_append.mpr ⟨hquiet, hquiet'⟩⟩
    have hnext : (Parser.behind name).step req l.raw = (Parser.behind name1, es) := hstep
    rw [map_cons, Parser.run, hnext, hrun]

/-- **A document is its parts**, and nothing that fails around them. -/
theorem run_document (hreq : req.bindings = []) {d : Document} (hd : d.WellFormed)
    (hapart : d.parts.Pairwise (Apart req))
    (hallowed : Allowed (({} : Parser env).run req (d.lines.map Line.raw)).2) :
    ∃ name es, ({} : Parser env).run req (d.lines.map Line.raw) =
        (Parser.behind name, .check :: (runParts req [] d.parts).2 ++ es) ∧ Quiet es ∧
      Tidy req d.parts (runParts req [] d.parts).2 := by
  have hlines : d.lines.map Line.raw =
      [d.opening.raw] ++ ((d.parts.flatMap Part.lines).map Line.raw ++
        ([d.closing.raw] ++ d.rest.map Line.raw)) := by
    simp [Document.lines]
  have hopen : ({} : Parser env).run req [d.opening.raw] = (Parser.between [], [.check]) := by
    rw [Parser.run_singleton, Parser.step_opening req hd.begins hd.begins_fits]
  rw [hlines, Parser.run_append, hopen] at hallowed ⊢
  have hparts := hallowed.right
  rw [Parser.run_append] at hparts
  obtain ⟨hbetween, htidy⟩ := tidy_parts hreq hd.parts hapart hparts.left
  obtain ⟨name, es, hrest, hquiet⟩ : ∃ name es,
      (Parser.behind (nameAfter req [] d.parts)).run req (d.rest.map Line.raw) =
        (Parser.behind name, es) ∧ Quiet es :=
    run_rest hd.rest _
  have hclose : (Parser.between (nameAfter req [] d.parts)).run req
    ([d.closing.raw] ++ d.rest.map Line.raw) = (Parser.behind name, [Effect.check] ++ es) := by
    rw [Parser.run_append, Parser.run_singleton,
      Parser.step_closing req hd.ends hd.ends_fits, hrest]
  refine ⟨name, [Effect.check] ++ es, ?_,
    quiet_append.mpr ⟨Parser.quiet_check quiet_nil, hquiet⟩, htidy⟩
  unfold runParts at hbetween ⊢
  rw [Parser.run_append, hbetween, hclose]
  simp

/-- What a parse that is not refused has done. -/
theorem of_parse {input zone : Text} {window : Option (Day × Day)} {out : List CalEvent}
    {check : Nat → Option AdmissionLimit} {w : World} {r : Parsed}
    (h : parseIcsWindowReported env input zone window out check w = some (.ok r)) :
    ∃ lines w', logicalLines input = some lines ∧
      performAll check { w with report := .cleared, events := [], tombstones := [] }
        ((prescanTimezones env lines).2 ++
          (Parser.run ⟨(prescanTimezones env lines).1, zone, window⟩ {} lines).2 ++
          (Parser.run ⟨(prescanTimezones env lines).1, zone, window⟩ {} lines).1.closing) =
            some (.ok w') ∧
      r.out = out ++ (sortOut env w'.events w'.tombstones).1 ∧
      r.world.report.documentFailure = w'.report.documentFailure := by
  unfold parseIcsWindowReported at h
  split at h
  · cases h
  · rename_i lines hlines
    dsimp only at h
    split at h
    · cases h
    · cases h
    · rename_i w' hw'
      split at h
      · cases h
      · cases h
      · rename_i w'' hw''
        cases h
        obtain ⟨hreport, -, -⟩ := metered_eq hw''
        refine ⟨lines, w', hlines, hw', rfl, ?_⟩
        show w''.report.documentFailure = w'.report.documentFailure
        rw [hreport]

/-- **A parse that is not refused** keeps the events of the parts of the document, and finds no
failure in it. -/
theorem parse_document {d : Document} (hd : d.WellFormed) {zone : Text}
    {window : Option (Day × Day)}
    (hapart : d.parts.Pairwise (Apart (.zoneless env zone window))) {out : List CalEvent}
    {check : Nat → Option AdmissionLimit} {w : World} {r : Parsed}
    (h : parseIcsWindowReported env d.text zone window out check w = some (.ok r)) :
    r.out = out ++ eventsOf (.zoneless env zone window) [] d.parts ∧
    r.world.report.documentFailure = false ∧
      Allowed (runParts (.zoneless env zone window) [] d.parts).2 := by
  obtain ⟨lines, w', hlines, hperform, hout, hfailure⟩ := of_parse h
  have hne : d.lines ≠ [] := cons_ne_nil _ _
  rw [Document.text, logicalLines_documentText hne] at hlines
  cases hlines
  -- the document binds no zones
  have hplain : ∀ raw ∈ d.lines.map Line.raw, ¬ beginsTimezone raw := by
    simpa using not_beginsTimezone hd
  have htexts : ∀ raw ∈ d.lines.map Line.raw, raw.text.isSome = true := by simp [Line.text_isSome]
  obtain ⟨hbindings, hchecks⟩ := prescan_idle env hplain htexts
  have hzones : Quiet (prescanTimezones env (d.lines.map Line.raw)).2 := by
    intro e he
    rw [hchecks e he]
    exact ⟨rfl, rfl, rfl⟩
  rw [hbindings] at hperform
  have hallowed : Allowed _ := (performAll_mem hperform).1
  obtain ⟨name, es, hrun, hquiet, htidy⟩ := run_document rfl hd hapart hallowed.left.right
  have hdocument := hallowed.left.right
  rw [hrun] at hperform hdocument
  -- all that is kept and buried is so by the parts
  generalize hparts : (runParts (.zoneless env zone window) [] d.parts).2 = fs
    at hperform htidy hdocument ⊢
  generalize (prescanTimezones env (d.lines.map Line.raw)).2 = zs at hperform hzones
  have hafter : After (zs ++ (.check :: fs ++ es) ++ []) _ w' := after_performAll hperform
  have hevents : w'.events = keptOf fs := by
    have hkept : keptOf (zs ++ (.check :: fs ++ es) ++ []) =
      keptOf zs ++ (keptOf fs ++ keptOf es) ++ [] := by
      rw [keptOf_append, keptOf_append, cons_append, ← singleton_append, keptOf_append,
        keptOf_append]
      rfl
    rw [hafter.events]
    show [] ++ keptOf (zs ++ (.check :: fs ++ es) ++ []) = keptOf fs
    rw [hkept, hzones.keptOf_eq, hquiet.keptOf_eq]
    simp
  have htombstones : w'.tombstones = buriedOf fs := by
    have hburied : buriedOf (zs ++ (.check :: fs ++ es) ++ []) =
      buriedOf zs ++ (buriedOf fs ++ buriedOf es) ++ [] := by
      rw [buriedOf_append, buriedOf_append, cons_append, ← singleton_append, buriedOf_append,
        buriedOf_append]
      rfl
    rw [hafter.tombstones]
    show [] ++ buriedOf (zs ++ (.check :: fs ++ es) ++ []) = buriedOf fs
    rw [hburied, hzones.buriedOf_eq, hquiet.buriedOf_eq]
    simp
  refine ⟨?_, ?_, fun limit hmem => hdocument limit (mem_append_left _ (.tail _ hmem))⟩
  · rw [hout, hevents, htombstones, sortOut_eq env htidy.nodup htidy.disjoint, eventsOf, hparts]
  · have hcalm : Calm (zs ++ (.check :: fs ++ es) ++ []) := by
      have hcheck : Calm [.check] := (Parser.quiet_check quiet_nil).calm
      exact calm_append.mpr ⟨calm_append.mpr ⟨hzones.calm,
        calm_append.mpr ⟨calm_append.mpr ⟨hcheck, htidy.calm⟩, hquiet.calm⟩⟩, quiet_nil.calm⟩
    rw [hfailure, hafter.documentFailure]
    show (false || (zs ++ (Effect.check :: fs ++ es) ++ []).any Effect.isFailure) = false
    rw [Bool.false_or, any_eq_false]
    exact fun e he => Bool.not_eq_true _ ▸ hcalm e he

/-- **Replacing an event does not disturb the others.** Where the events of a document have no UID
in common, and the new event has none of another event's, both parses that are not refused keep the
same events of the parts before and behind it, and neither finds a failure in its document. -/
theorem neighbours_undisturbed (env : Env) {zone : Text} {window : Option (Day × Day)}
    {opening closing : Line}
    {before behind : List Part} {o c o' c' : Line} {body body' : List Item} {rest : List Line}
    (hd : (Document.mk opening (before ++ .event o body c :: behind) closing rest).WellFormed)
    (hd' : (Document.mk opening (before ++ .event o' body' c' :: behind) closing rest).WellFormed)
    (hapart : (before ++ .event o body c :: behind).Pairwise (Apart (.zoneless env zone window)))
    (hnew : ∀ part ∈ before ++ behind, Apart (.zoneless env zone window) part (.event o' body' c'))
    {out out' : List CalEvent} {check check' : Nat → Option AdmissionLimit} {w w' : World}
    {r r' : Parsed}
    (h : parseIcsWindowReported env (Document.mk opening (before ++ .event o body c :: behind)
      closing rest).text zone window
      out check w = some (.ok r))
    (h' : parseIcsWindowReported env (Document.mk opening (before ++ .event o' body' c' :: behind)
      closing rest).text zone window
      out' check' w' = some (.ok r')) :
    ∃ name, r.out = out ++ (eventsOf (.zoneless env zone window) [] before ++
          (eventsOf (.zoneless env zone window) name [Part.event o body c] ++
            eventsOf (.zoneless env zone window) name behind)) ∧
      r'.out = out' ++ (eventsOf (.zoneless env zone window) [] before ++
          (eventsOf (.zoneless env zone window) name [Part.event o' body' c'] ++
            eventsOf (.zoneless env zone window) name behind)) ∧
      r.world.report.documentFailure = false ∧ r'.world.report.documentFailure = false := by
  -- the new event is apart from the others, so that these documents are of one kind
  have hapart' : (before ++ .event o' body' c' :: behind).Pairwise
    (Apart (.zoneless env zone window)) := by
    obtain ⟨hbefore, hbehind, hcross⟩ := pairwise_append.mp hapart
    obtain ⟨-, hbehind⟩ := pairwise_cons.mp hbehind
    refine pairwise_append.mpr ⟨hbefore, pairwise_cons.mpr ⟨fun q hq => ?_, hbehind⟩,
      fun p hp q hq => ?_⟩
    · exact (hnew q (mem_append_right _ hq)).symm
    · rcases mem_cons.mp hq with rfl | hq
      · exact hnew p (mem_append_left _ hp)
      · exact hcross p hp q (.tail _ hq)
  obtain ⟨hout, hfailure, hallowed⟩ := parse_document hd hapart h
  obtain ⟨hout', hfailure', hallowed'⟩ := parse_document hd' hapart' h'
  refine ⟨nameAfter (.zoneless env zone window) [] before, ?_, ?_, hfailure, hfailure'⟩
  · rw [hout, eventsOf_around rfl hd.parts hapart hallowed]
  · rw [hout', eventsOf_around rfl hd'.parts hapart' hallowed']

end

/-! ## An event that gets the UID of another -/

/-- What documents with dates alone need of zones and dates. -/
def datesOnly : Env where
  toZones := utcOnly
  name _ := "UTC".toList
  naiveLocal _ t := t
  dates :=
    { parseDate := fun s =>
        if s.length = 8 ∧ s.all Char.isDigit then
          fromYmd (Nat.ofDigitChars 10 (s.take 4) 0) (Nat.ofDigitChars 10 ((s.drop 4).take 2) 0)
            (Nat.ofDigitChars 10 (s.drop 6) 0)
        else none
      parseDateTime := fun _ => none
      formatDate := formatDate
      formatTime := formatTime
      midnight := midnight }
  dateText d := formatYear (yearOf d.val) ++ '-' ::
    (padded 2 (monthOf d.val) ++ '-' :: padded 2 (Recur.Gregorian.dayOf d.val))
  dateTimeText := formatDateTime
  rfc3339 := formatDateTime
  eventSize := 600
  ruleSize := 300
  timeSize := 40
  overflowChecks := true
  Observance := Unit
  Rules := Unit
  observance _ _ _ _ _ := none
  rules _ := none
  matchZone _ _ _ := none

/-- A line that is not folded. -/
def lineOf (s : Text) (hline : '\n' ∉ s) (hstart : isFold s = false) : Line where
  first := s
  conts := []
  first_line := hline
  conts_line := by simp
  first_start := hstart
  conts_fold := by simp

def beginsCalendar : Line := lineOf "BEGIN:VCALENDAR".toList (by decide) rfl
def endsCalendar : Line := lineOf "END:VCALENDAR".toList (by decide) rfl
def beginsEvent : Line := lineOf "BEGIN:VEVENT".toList (by decide) rfl
def endsEventLine : Line := lineOf "END:VEVENT".toList (by decide) rfl

def eventPart (body : List Line) : Part := .event beginsEvent (body.map .line) endsEventLine

def feed (parts : List Part) : Document := ⟨beginsCalendar, parts, endsCalendar, []⟩

/-- An event with the UID that is made up for an event on that day that has no summary. -/
def lunch : Part := eventPart
  [lineOf "UID:14695981039346656037@2026-01-01".toList (by decide) rfl,
    lineOf "DTSTART:20260101".toList (by decide) rfl, lineOf "SUMMARY:Lunch".toList (by decide) rfl]

def dinner : Part := eventPart
  [lineOf "UID:dinner".toList (by decide) rfl, lineOf "DTSTART:20260101".toList (by decide) rfl]

def supper : Part := eventPart
  [lineOf "UID:supper".toList (by decide) rfl, lineOf "DTSTART:20260102".toList (by decide) rfl]

/-- The lines of another event, in which there is no UID. -/
def intruder : Part := eventPart
  [lineOf "DTSTART:20260101".toList (by decide) rfl, lineOf "SEQUENCE:1".toList (by decide) rfl]

/-- The lines of another event, of which nothing makes sense. -/
def garbled : Part := eventPart
  [lineOf "DTSTART".toList (by decide) rfl, lineOf "STATUS:CANCELLED".toList (by decide) rfl,
    lineOf "UID;=:14695981039346656037@2026-01-01".toList (by decide) rfl]

/-- The events of a parse that is not refused. -/
def outOf : Option (Except AdmissionLimit Parsed) → Option (List CalEvent)
  | some (.ok r) => some r.out
  | _ => none

def idleWorld : World where
  pool := .new 100 1000000
  meter := .new ⟨10, by decide⟩
  checks := 0
  report := .cleared
  events := []
  tombstones := []

def parseFeed (parts : List Part) : Option (Except AdmissionLimit Parsed) :=
  parseIcsWindowReported datesOnly (feed parts).text "UTC".toList none [] (fun _ => none) idleWorld

theorem exists_of_outOf {result : Option (Except AdmissionLimit Parsed)} {p : List CalEvent → Bool}
    (h : (outOf result).any p = true) : ∃ r, result = some (.ok r) ∧ p r.out = true := by
  unfold outOf at h
  split at h
  · exact ⟨_, rfl, h⟩
  · cases h

instance (l : Line) : Decidable l.Plain := inferInstanceAs (Decidable (∀ c ∈ l.parsed, _))

instance (l : Line) : Decidable l.Fits := inferInstanceAs (Decidable (_ ≤ _))

theorem wellFormed_eventPart {body : List Line} (h : ∀ l ∈ body, l.Plain) :
    (eventPart body).WellFormed := by
  have hbegins : beginsEvent.Begins .event :=
    ⟨⟨"BEGIN".toList, [], "VEVENT".toList⟩, by decide, rfl, by decide⟩
  have hends : endsEventLine.Ends .event :=
    ⟨⟨"END".toList, [], "VEVENT".toList⟩, by decide, rfl, by decide⟩
  refine ⟨⟨hbegins, by decide⟩, fun item hitem => ?_, hends⟩
  obtain ⟨l, hl, rfl⟩ := mem_map.mp hitem
  exact h l hl

theorem wellFormed_feed {parts : List Part} (h : ∀ part ∈ parts, part.WellFormed) :
    (feed parts).WellFormed := by
  have hbegins : beginsCalendar.Begins .calendar :=
    ⟨⟨"BEGIN".toList, [], "VCALENDAR".toList⟩, by decide, rfl, by decide⟩
  have hends : endsCalendar.Ends .calendar :=
    ⟨⟨"END".toList, [], "VCALENDAR".toList⟩, by decide, rfl, by decide⟩
  have hfits : beginsCalendar.Fits ∧ endsCalendar.Fits := by decide
  exact ⟨hbegins, hfits.1, h, hends, hfits.2, fun l hl => absurd hl not_mem_nil⟩

theorem logicalLines_feed (parts : List Part) :
    logicalLines (feed parts).text = some ((feed parts).lines.map Line.raw) :=
  logicalLines_documentText (cons_ne_nil _ _)

theorem wellFormed_meals : ∀ part ∈ [lunch, dinner, supper, intruder, garbled],
    part.WellFormed := by
  simp only [forall_mem_cons]
  exact ⟨wellFormed_eventPart (by decide), wellFormed_eventPart (by decide +kernel),
    wellFormed_eventPart (by decide), wellFormed_eventPart (by decide +kernel),
    wellFormed_eventPart (by decide), by simp⟩

/-- Lunch and supper stay where they are, whatever becomes of dinner. -/
theorem garbled_undisturbed :
    ∃ r r', parseFeed [lunch, dinner, supper] = some (.ok r) ∧
    parseFeed [lunch, garbled, supper] = some (.ok r') ∧
      ∃ name, r.out = [] ++ (eventsOf (.zoneless datesOnly "UTC".toList none) [] [lunch] ++
            (eventsOf (.zoneless datesOnly "UTC".toList none) name [dinner] ++
              eventsOf (.zoneless datesOnly "UTC".toList none) name [supper])) ∧
        r'.out = [] ++ (eventsOf (.zoneless datesOnly "UTC".toList none) [] [lunch] ++
            (eventsOf (.zoneless datesOnly "UTC".toList none) name [garbled] ++
              eventsOf (.zoneless datesOnly "UTC".toList none) name [supper])) ∧
        r.world.report.documentFailure = false ∧ r'.world.report.documentFailure = false := by
  have hwell : ∀ part ∈ [lunch, dinner, supper], part.WellFormed :=
    fun part hpart => wellFormed_meals part (by grind)
  have hwell' : ∀ part ∈ [lunch, garbled, supper], part.WellFormed :=
    fun part hpart => wellFormed_meals part (by grind)
  have hapart : [lunch, dinner, supper].Pairwise
    (Apart (.zoneless datesOnly "UTC".toList none)) := by decide
  have hnew : ∀ part ∈ [lunch] ++ [supper],
    Apart (.zoneless datesOnly "UTC".toList none) part garbled := by decide
  have hparsed : (outOf (parseFeed [lunch, dinner, supper])).any (fun _ => true) = true := by
    rw [parseFeed, parseIcsWindowReported, logicalLines_feed]
    decide
  have hparsed' : (outOf (parseFeed [lunch, garbled, supper])).any (fun _ => true) = true := by
    rw [parseFeed, parseIcsWindowReported, logicalLines_feed]
    decide
  obtain ⟨r, hr, -⟩ := exists_of_outOf hparsed
  obtain ⟨r', hr', -⟩ := exists_of_outOf hparsed'
  exact ⟨r, r', hr, hr', neighbours_undisturbed datesOnly (wellFormed_feed hwell)
    (wellFormed_feed hwell') hapart hnew hr hr'⟩

/-- Lunch, as it is read. -/
theorem secondDay_range : minDay ≤ 739618 ∧ 739618 ≤ maxDay := by decide

def lunchEvent : CalEvent :=
  .new "14695981039346656037@2026-01-01".toList "Lunch".toList (.date ⟨739617, by decide⟩)
    (.date ⟨739618, secondDay_range⟩)

/-- **An event without a UID can take another event's**: the UID that is made up for it is that of
lunch, which is lost. -/
theorem intruder_disturbs :
    (feed [lunch, dinner]).WellFormed ∧ (feed [lunch, intruder]).WellFormed ∧
      (∀ uid ∈ lunch.written, uid ∉ dinner.written ∧ uid ∉ intruder.written) ∧
      eventsOf (.zoneless datesOnly "UTC".toList none) [] [lunch] = [lunchEvent] ∧
      (∃ r, parseFeed [lunch, dinner] = some (.ok r) ∧ lunchEvent ∈ r.out) ∧
      ∃ r, parseFeed [lunch, intruder] = some (.ok r) ∧ lunchEvent ∉ r.out := by
  have hparsed : (outOf (parseFeed [lunch, dinner])).any (fun out => decide (lunchEvent ∈ out)) =
    true := by
    rw [parseFeed, parseIcsWindowReported, logicalLines_feed]
    decide
  have hparsed' : (outOf (parseFeed [lunch, intruder])).any (fun out => decide (lunchEvent ∉ out)) =
    true := by
    rw [parseFeed, parseIcsWindowReported, logicalLines_feed]
    decide
  obtain ⟨r, hr, hkept⟩ := exists_of_outOf hparsed
  obtain ⟨r', hr', hlost⟩ := exists_of_outOf hparsed'
  refine ⟨wellFormed_feed ?_, wellFormed_feed ?_, by decide, by decide +kernel,
    ⟨r, hr, of_decide_eq_true hkept⟩, r', hr', of_decide_eq_true hlost⟩
  · exact fun part hpart => wellFormed_meals part (by grind)
  · exact fun part hpart => wellFormed_meals part (by grind)

end Thegn.Ics
