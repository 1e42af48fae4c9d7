import Thegn.Monitor.Read
import Thegn.Monitor.Slots

set_option autoImplicit false

/-! # The history of the system monitor

`Trace` follows a run of the store with the accepted pushes of each slot since its series was
interned, and whether it has stayed in class A or B. In every run the caps hold, an id is only ever
good for the key it was handed out for, and the series of a slot that has stayed tracks its pushes,
so a read of it is the naive one exactly within the ring (`store_history`).
-/

namespace Thegn.Monitor

open List

/-! ## Runs -/

theorem capped_new : Wf SeriesStore.new ∧ Capped SeriesStore.new := ⟨rfl, fun _ => Nat.zero_le _⟩

section Step

variable {st : SeriesStore}

/-- The slot that an operation puts a new series into. -/
def SeriesStore.fresh (st : SeriesStore) (i : Nat) : Op → Bool
  | .intern key cls =>
    (st.find key).isNone && decide ((st.intern key cls).1.map SeriesId.slot = some i)
  | _ => false

/-- The slot whose series takes a push. -/
def SeriesStore.pushed (st : SeriesStore) (i : Nat) : Op → Option (Nat × Option ℚ)
  | .push id atMs value =>
    if id.slot = i ∧ (st.push id atMs value).1 = true then some (atMs, value) else none
  | _ => none

theorem step_capped (hwf : Wf st) (hcap : Capped st) (op : Op) :
    Wf (st.step op) ∧ Capped (st.step op) := by
  cases op with
  | intern key cls =>
    show Wf (st.intern key cls).2 ∧ Capped (st.intern key cls).2
    rcases intern_spec hwf hcap key cls with h | ⟨slot, -, h⟩ | ⟨-, hwf', hcap', -⟩
    · rw [h]
      exact ⟨hwf, hcap⟩
    · rw [h]
      exact ⟨hwf, hcap⟩
    · exact ⟨hwf', hcap'⟩
  | push id atMs value =>
    exact ⟨(push_spec hwf hcap id atMs value).1, (push_spec hwf hcap id atMs value).2.1⟩
  | select key selected =>
    exact ⟨(select_spec hwf hcap key selected).1, (select_spec hwf hcap key selected).2.1⟩
  | evictStale nowMs =>
    exact ⟨(evictStale_spec hwf hcap nowMs).1, (evictStale_spec hwf hcap nowMs).2.1⟩
  | idOf key => exact ⟨hwf, hcap⟩
  | read id tier fromMs toMs => exact ⟨hwf, hcap⟩

theorem run_capped (hwf : Wf st) (hcap : Capped st) (ops : List Op) :
    Wf (st.run ops) ∧ Capped (st.run ops) := by
  induction ops generalizing st with
  | nil => exact ⟨hwf, hcap⟩
  | cons op ops ih =>
    obtain ⟨hwf', hcap'⟩ := step_capped hwf hcap op
    exact ih hwf' hcap'

/-- **What a step does to a slot**: a new series, a push into its series, or its fate. -/
inductive Turn (st : SeriesStore) (op : Op) (i : Nat) : Prop
  | fresh (key : SeriesKey) (cls : Class) (hop : op = .intern key cls)
      (hfresh : st.fresh i op = true)
      (hnew : Fresh st (st.step op) i key cls)
  | push (x : Series) (atMs : Nat) (value : Option ℚ) (hfresh : st.fresh i op = false)
      (hx : st.series i = some x) (hx' : (st.step op).series i = some (x.push atMs value).2)
      (hg : (st.step op).generation i = st.generation i)
      (hpushed : st.pushed i op = if (x.push atMs value).1 then some (atMs, value) else none)
  | fate (hfresh : st.fresh i op = false) (hpushed : st.pushed i op = none)
      (h : FateOf st (st.step op) i)

theorem step_turn (hwf : Wf st) (hcap : Capped st) (op : Op) (i : Nat) : Turn st op i := by
  cases op with
  | intern key cls =>
    have hkept : st.fresh i (.intern key cls) = false →
      st.intern key cls = ((st.intern key cls).1, st) →
        Turn st (.intern key cls) i := fun hfresh h => by
      refine .fate hfresh rfl ?_
      show FateOf st (st.intern key cls).2 i
      rw [h]
      exact .refl st i
    rcases intern_spec hwf hcap key cls with h | ⟨slot, hfind, h⟩ | ⟨hfind, -, -, slot, hid, hnew⟩
    · refine hkept ?_ (by rw [h])
      rw [SeriesStore.fresh, h]
      exact Bool.and_false _
    · refine hkept ?_ (by rw [h])
      rw [SeriesStore.fresh, hfind]
      rfl
    · have hfresh : st.fresh i (.intern key cls) = decide (slot = i) := by
        rw [SeriesStore.fresh, hfind, hid]
        simp only [Option.isNone_none, Bool.true_and, Option.map_some, SeriesStore.id,
          Option.some.injEq]
      by_cases hi : slot = i
      · subst hi
        exact .fresh key cls rfl (hfresh.trans (decide_eq_true rfl)) hnew
      · exact .fate (hfresh.trans (decide_eq_false hi)) rfl (hnew.others i (Ne.symm hi))
  | push id atMs value =>
    obtain ⟨-, -, hgen, h⟩ := push_spec hwf hcap id atMs value
    rcases h with ⟨h, -⟩ | ⟨x, hget, hres, hseries⟩
    · refine .fate rfl ?_ ?_
      · rw [SeriesStore.pushed, h]
        exact if_neg fun hc => Bool.false_ne_true hc.2
      · show FateOf st (st.push id atMs value).2 i
        rw [h]
        exact .refl st i
    · by_cases hi : id.slot = i
      · subst hi
        refine .push x atMs value rfl (get_spec hget).1 ((hseries id.slot).trans (if_pos rfl))
          (hgen _) ?_
        rw [SeriesStore.pushed, hres]
        simp only [true_and]
      · refine .fate rfl (if_neg fun hc => hi hc.1) ?_
        exact .kept ((hseries i).trans (if_neg (Ne.symm hi))) (hgen i)
  | select key selected => exact .fate rfl rfl ((select_spec hwf hcap key selected).2.2.1 i)
  | evictStale nowMs => exact .fate rfl rfl ((evictStale_spec hwf hcap nowMs).2.2 i)
  | idOf key => exact .fate rfl rfl (.refl st i)
  | read id tier fromMs toMs => exact .fate rfl rfl (.refl st i)

/-! ## Ids -/

/-- The id that an operation returns for a key. -/
def SeriesStore.handsOut (st : SeriesStore) (key : SeriesKey) : Op → Option SeriesId
  | .intern key' cls => if key' = key then (st.intern key cls).1 else none
  | .select key' selected => if key' = key then (st.select key selected).1 else none
  | .idOf key' => if key' = key then st.idOf key else none
  | _ => none

/-- No generation wraps in the operations. -/
def Unwrapped (st : SeriesStore) : List Op → Prop
  | [] => True
  | op :: ops => (∀ i, st.generation i ≤ (st.step op).generation i) ∧ Unwrapped (st.step op) ops

/-- **An id is only good for a key**: what it names has the key, and a push with it changes no
other. -/
structure Exclusive (st : SeriesStore) (id : SeriesId) (key : SeriesKey) : Prop where
  reads : ∀ x, st.get id = some x → x.key = key
  writes : ∀ atMs value i, (st.push id atMs value).2.series i ≠ st.series i →
    ∃ x, st.series i = some x ∧ x.key = key

/-- An id is that of a series with the key, or stale. -/
def IdOk (id : SeriesId) (key : SeriesKey) (st : SeriesStore) : Prop :=
  (st.generation id.slot = id.generation ∧ ∃ x, st.series id.slot = some x ∧ x.key = key) ∨
    id.generation < st.generation id.slot

theorem idOk_id {slot : Nat} {x : Series} {key : SeriesKey} (hx : st.series slot = some x)
    (hkey : x.key = key) :
    IdOk (st.id slot) key st := .inl ⟨rfl, x, hx, hkey⟩

theorem handsOut_idOk (hwf : Wf st) (hcap : Capped st) {op : Op} {key : SeriesKey} {id : SeriesId}
    (h : st.handsOut key op = some id) : IdOk id key (st.step op) := by
  cases op with
  | intern key' cls =>
    rw [SeriesStore.handsOut] at h
    split_ifs at h with heq
    subst heq
    show IdOk id key' (st.intern key' cls).2
    rcases intern_spec hwf hcap key' cls with hres | ⟨slot, hfind, hres⟩
      | ⟨-, -, -, slot, hid, hnew⟩
    · rw [hres] at h
      cases h
    · rw [hres] at h ⊢
      obtain ⟨x, hx, hkey⟩ := find_spec hfind
      exact Option.some.inj h ▸ idOk_id hx hkey
    · rw [hid] at h
      exact Option.some.inj h ▸ idOk_id hnew.series rfl
  | select key' selected =>
    rw [SeriesStore.handsOut] at h
    split_ifs at h with heq
    subst heq
    obtain ⟨slot, x, rfl, hx, hkey⟩ := (select_spec hwf hcap key' selected).2.2.2 id h
    exact idOk_id hx hkey
  | idOf key' =>
    rw [SeriesStore.handsOut] at h
    split_ifs at h with heq
    subst heq
    obtain ⟨slot, hfind, rfl⟩ := Option.map_eq_some_iff.mp h
    obtain ⟨x, hx, hkey⟩ := find_spec hfind
    exact idOk_id hx hkey
  | push id' atMs value => cases h
  | evictStale nowMs => cases h
  | read id' tier fromMs toMs => cases h

theorem lt_bump {g : UInt32} (h : g ≤ g + 1) : g < g + 1 := by
  refine UInt32.lt_of_le_of_ne h fun heq => ?_
  have hone : (1 : UInt32) = 0 := by
    have hcancel : g + 0 = g + 1 := by rwa [UInt32.add_zero]
    exact (UInt32.add_right_inj g).mp hcancel.symm
  exact absurd hone (by decide)

/-- A step without a wrap keeps an id good for its key, or stale. -/
theorem IdOk.step (hwf : Wf st) (hcap : Capped st) {op : Op} {key : SeriesKey} {id : SeriesId}
    (h : IdOk id key st) (hmono : ∀ i, st.generation i ≤ (st.step op).generation i) :
    IdOk id key (st.step op) := by
  rcases h with ⟨hgen, x, hx, hkey⟩ | hstale
  · have hbump : (st.step op).generation id.slot = st.generation id.slot + 1 →
      IdOk id key (st.step op) := by
      intro hg
      have hle := hmono id.slot
      refine .inr ?_
      rw [hg, hgen] at *
      exact lt_bump hle
    rcases step_turn hwf hcap op id.slot with ⟨key', cls, -, -, hnew⟩
      | ⟨y, atMs, value, -, hy, hy', hg, -⟩ | ⟨-, -, hfate⟩
    · rcases hnew.before with ⟨hnone, -⟩ | ⟨a, -, -, hg⟩
      · rw [hx] at hnone
        cases hnone
      · exact hbump hg
    · obtain rfl : x = y := Option.some.inj (hx.symm.trans hy)
      exact .inl ⟨hg.trans hgen, _, hy', (push_same x atMs value).1.trans hkey⟩
    · rcases hfate with ⟨hs, hg⟩ | ⟨a, b, hs, hs', hkey', -, hg⟩ | ⟨a, -, -, -, hg⟩
      · exact .inl ⟨hg.trans hgen, x, hs.trans hx, hkey⟩
      · obtain rfl : x = a := Option.some.inj (hx.symm.trans hs)
        exact .inl ⟨hg.trans hgen, b, hs', hkey'.trans hkey⟩
      · exact hbump hg
  · exact .inr (UInt32.lt_of_lt_of_le hstale (hmono id.slot))

theorem IdOk.run (hwf : Wf st) (hcap : Capped st) {ops : List Op} {key : SeriesKey} {id : SeriesId}
    (h : IdOk id key st) (hun : Unwrapped st ops) : IdOk id key (st.run ops) := by
  induction ops generalizing st with
  | nil => exact h
  | cons op ops ih =>
    obtain ⟨hwf', hcap'⟩ := step_capped hwf hcap op
    exact ih hwf' hcap' (h.step hwf hcap hun.1) hun.2

theorem IdOk.exclusive (hwf : Wf st) (hcap : Capped st) {key : SeriesKey} {id : SeriesId}
    (h : IdOk id key st) : Exclusive st id key := by
  have hreads : ∀ x, st.get id = some x → x.key = key := by
    intro x hget
    obtain ⟨hx, hg⟩ := get_spec hget
    rcases h with ⟨-, y, hy, hkey⟩ | hstale
    · rw [hx] at hy
      exact Option.some.inj hy ▸ hkey
    · rw [hg] at hstale
      exact absurd hstale (UInt32.lt_irrefl _)
  refine ⟨hreads, fun atMs value i hne => ?_⟩
  obtain ⟨-, -, -, hpush⟩ := push_spec hwf hcap id atMs value
  rcases hpush with ⟨hres, -⟩ | ⟨x, hget, -, hseries⟩
  · rw [hres] at hne
    exact absurd rfl hne
  · rw [hseries] at hne
    split_ifs at hne with hi
    · exact ⟨x, hi ▸ (get_spec hget).1, hreads x hget⟩
    · exact absurd rfl hne

end Step

/-! ## Traces -/

structure Trace where
  store : SeriesStore
  /-- the accepted pushes of the series in a slot, since it was interned -/
  pushes : Nat → Pushes
  /-- whether the series in a slot has stayed in class A or B since it was interned -/
  stayed : Nat → Bool

def Trace.start : Trace := ⟨.new, fun _ => [], fun _ => false⟩

def Trace.step (t : Trace) (op : Op) : Trace where
  store := t.store.step op
  pushes i := if t.store.fresh i op then [] else t.pushes i ++ (t.store.pushed i op).toList
  stayed i :=
    if t.store.fresh i op then decide (((t.store.step op).series i).map Series.cls ≠ some .C)
    else t.stayed i && decide (((t.store.step op).series i).map Series.cls =
      (t.store.series i).map Series.cls)

def Trace.run (t : Trace) (ops : List Op) : Trace := ops.foldl Trace.step t

/-- The invariant of a trace. -/
structure Faithful (t : Trace) : Prop where
  wf : Wf t.store
  capped : Capped t.store
  tracks : ∀ i, t.stayed i = true → ∃ x, t.store.series i = some x ∧ x.cls ≠ .C ∧
    Tracks (t.pushes i) x

theorem Faithful.step {t : Trace} (h : Faithful t) (op : Op) : Faithful (t.step op) := by
  obtain ⟨hwf, hcap⟩ := step_capped h.wf h.capped op
  refine ⟨hwf, hcap, fun i hstayed => ?_⟩
  rw [Trace.step] at hstayed ⊢
  dsimp only at hstayed ⊢
  rcases step_turn h.wf h.capped op i with
    ⟨key, cls, -, hfresh, hnew⟩ | ⟨x, atMs, value, hfresh, hx, hx', -, hpushed⟩ | ⟨hfresh,
      hpushed, hfate⟩
  · rw [hfresh, if_pos rfl, hnew.series, decide_eq_true_eq] at hstayed
    rw [hfresh, if_pos rfl]
    exact ⟨_, hnew.series, fun hc => hstayed (congrArg some hc), .new key cls⟩
  · rw [hfresh, if_neg Bool.false_ne_true, Bool.and_eq_true] at hstayed
    rw [hfresh, if_neg Bool.false_ne_true, hpushed]
    obtain ⟨y, hy, hc, htracks⟩ := h.tracks i hstayed.1
    obtain rfl : x = y := Option.some.inj (hx.symm.trans hy)
    refine ⟨_, hx', by rw [(push_same x atMs value).2]; exact hc, ?_⟩
    rcases push_tracks htracks atMs value with ⟨hrejected, hsame⟩ | ⟨haccepted, htracks'⟩
    · rw [hrejected, hsame, if_neg Bool.false_ne_true]
      exact (append_nil _).symm ▸ htracks
    · rw [haccepted, if_pos rfl]
      exact htracks'
  · rw [hfresh, if_neg Bool.false_ne_true, Bool.and_eq_true, decide_eq_true_eq] at hstayed
    rw [hfresh, if_neg Bool.false_ne_true, hpushed, Option.toList_none, append_nil]
    obtain ⟨x, hx, hc, htracks⟩ := h.tracks i hstayed.1
    rcases hfate with ⟨hs, -⟩ | ⟨a, b, hs, hs', -, hcls, -⟩ | ⟨a, hs, hac, -, -⟩
    · exact ⟨x, hs.trans hx, hc, htracks⟩
    · -- the class has changed
      rw [hs, hs'] at hstayed
      exact absurd (Option.some.inj hstayed.2) hcls
    · rw [hx] at hs
      exact absurd (Option.some.inj hs ▸ hac) hc

theorem Faithful.run {t : Trace} (h : Faithful t) (ops : List Op) : Faithful (t.run ops) := by
  induction ops generalizing t with
  | nil => exact h
  | cons op ops ih => exact ih (h.step op)

theorem faithful_start : Faithful .start :=
  ⟨capped_new.1, capped_new.2, fun _ hi => absurd hi Bool.false_ne_true⟩

theorem trace_store (t : Trace) (ops : List Op) : (t.run ops).store = t.store.run ops := by
  induction ops generalizing t with
  | nil => rfl
  | cons op ops ih => exact ih (t.step op)

/-- **The store in every run**: the caps hold, an id stays with its key while no generation wraps,
and a read of a series that has stayed in class A or B is the naive one exactly within the ring. -/
theorem store_history (ops : List Op) :
    (∀ cls, (SeriesStore.new.run ops).count cls ≤ cap cls) ∧
      (∀ before op after key id, ops = before ++ op :: after →
        (SeriesStore.new.run before).handsOut key op = some id →
        Unwrapped ((SeriesStore.new.run before).step op) after →
        Exclusive (SeriesStore.new.run ops) id key) ∧
      ∀ id x, (SeriesStore.new.run ops).get id = some x →
      (Trace.start.run ops).stayed id.slot = true →
        ∀ tier len fromMs toMs out, ringLen x.cls tier = some len →
          ((SeriesStore.new.run ops).read id tier fromMs toMs out =
              (true, naiveRead ((Trace.start.run ops).pushes id.slot) len tier fromMs toMs) ↔
            WithinRing ((Trace.start.run ops).pushes id.slot) len tier fromMs toMs) := by
  refine ⟨(run_capped capped_new.1 capped_new.2 ops).2, ?_, ?_⟩
  · intro before op after key id hops hid hun
    obtain ⟨hwf, hcap⟩ := run_capped capped_new.1 capped_new.2 before
    obtain ⟨hwf1, hcap1⟩ := step_capped hwf hcap op
    obtain ⟨hwf2, hcap2⟩ := run_capped hwf1 hcap1 after
    have hrun : SeriesStore.new.run ops = ((SeriesStore.new.run before).step op).run after := by
      rw [hops, SeriesStore.run, foldl_append, foldl_cons]
      rfl
    rw [hrun]
    exact ((handsOut_idOk hwf hcap hid).run hwf1 hcap1 hun).exclusive hwf2 hcap2
  · intro id x hget hstayed tier len fromMs toMs out hlen
    have hfaithful := faithful_start.run ops
    obtain ⟨y, hy, -, htracks⟩ := hfaithful.tracks id.slot hstayed
    rw [trace_store] at hy
    obtain rfl : x = y := Option.some.inj ((get_spec hget).1.symm.trans hy)
    exact htracks.read_iff hget hlen out

/-! ### A range before the ring -/

def sampleKey : SeriesKey := ⟨1, 7, 0⟩

/-- Two pushes, ten minutes apart. -/
def samples : List Op :=
  [.intern sampleKey .A, .push ⟨0, 0⟩ 0 (some 1), .push ⟨0, 0⟩ 600000 (some 2)]

/-- The series after the first push, and after both. -/
def sampleOne : Series := ((Series.new sampleKey .A).push 0 (some 1)).2
def sampleTwo : Series := (sampleOne.push 600000 (some 2)).2

theorem samples_store : SeriesStore.new.run samples = ⟨[some sampleTwo], [0]⟩ := rfl

theorem samples_pushes : (Trace.start.run samples).pushes 0 = [(0, some 1), (600000, some 2)] := rfl

theorem setOpen_t0 (s : Series) (atMs : Nat) (value : Option ℚ) :
    (s.setOpen atMs value).t0 = s.t0.put (atMs / t0Ms) value := rfl

/-- The cell of the second 0 is that of the second 600. -/
theorem sampleTwo_alias : sampleTwo.t0.size = t0Len ∧ sampleTwo.t0.at 0 = some 2 := by
  have hone : Tracks [(0, some 1)] sampleOne := (Tracks.new sampleKey .A).push_first (0, some 1)
  have hsize : ((sampleOne.closeSecond 0 (some 1)).fillSkipped 0 600).t0.size = t0Len :=
    ((hone.shape.closeSecond 0 (some 1)).fillSkipped 0 600).t0.trans (if_neg Class.noConfusion)
  have htwo : sampleTwo = ((sampleOne.closeSecond 0 (some 1)).fillSkipped 0 600).setOpen 600000
    (some 2) := rfl
  rw [htwo, setOpen_t0, Circular.at_put, Circular.size_put, hsize]
  exact ⟨rfl, if_pos (by decide)⟩

/-- **A range before the ring** is read from the cells of later seconds. -/
theorem samples_read : ((SeriesStore.new.run samples).get ⟨0, 0⟩ = some sampleTwo ∧
    (Trace.start.run samples).stayed 0 = true ∧ ringLen sampleTwo.cls .T0 = some t0Len) ∧
    (SeriesStore.new.run samples).read ⟨0, 0⟩ .T0 0 0 [] = (true, [⟨0, some 2, some 2⟩]) ∧
    naiveRead ((Trace.start.run samples).pushes 0) t0Len .T0 0 0 = [] ∧
    ¬ WithinRing ((Trace.start.run samples).pushes 0) t0Len .T0 0 0 := by
  have hget : (SeriesStore.new.run samples).get ⟨0, 0⟩ = some sampleTwo := by
    rw [samples_store]
    rfl
  rw [samples_pushes]
  refine ⟨⟨hget, rfl, rfl⟩, ?_, ?_, ?_⟩
  · obtain ⟨hsize, halias⟩ := sampleTwo_alias
    have htier : sampleTwo.tier .T0 =
        some (t0Ms, t0Len, fun bucket => ⟨sampleTwo.t0.at bucket, sampleTwo.t0.at bucket⟩,
          some 600) := by
      rw [← hsize]
      rfl
    have hopen : sampleTwo.openSecond = some 600 := rfl
    have hfirst : sampleTwo.firstPushMs = 0 := rfl
    rw [SeriesStore.read, hget]
    dsimp only
    rw [htier, hopen, hfirst]
    simp only [t0Ms, t0Len, Nat.zero_div, Nat.zero_min, Nat.zero_sub, Nat.sub_zero, Nat.zero_add,
      max_self, Nat.lt_irrefl, reduceCtorEq, or_self, if_false, List.range'_one, map_cons, map_nil,
      Nat.zero_mul, halias]
  · rfl
  · unfold WithinRing
    decide

end Thegn.Monitor
