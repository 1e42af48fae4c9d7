import Thegn.Monitor.Store

set_option autoImplicit false

/-! # The slots of the store

What each operation does to the slots: a slot is kept, its series changes class under its key, its
class C series is evicted and the generation of the slot raised, or a new series is put into it
(`Fate`, `intern_fate`). The caps of the classes follow by counting (`step_count`).
-/

namespace Thegn.Monitor

open Thegn.Circular List Option

inductive Op
  | intern (key : SeriesKey) (cls : Class)
  | push (id : SeriesId) (atMs : Nat) (value : Option ℚ)
  | select (key : SeriesKey) (selected : Bool)
  | evictStale (nowMs : Nat)
  | idOf (key : SeriesKey)
  | read (id : SeriesId) (tier : Tier) (fromMs toMs : Nat)

def SeriesStore.step (st : SeriesStore) : Op → SeriesStore
  | .intern key cls => (st.intern key cls).2
  | .push id atMs value => (st.push id atMs value).2
  | .select key selected => (st.select key selected).2
  | .evictStale nowMs => st.evictStale nowMs
  | .idOf _ => st
  | .read _ _ _ _ => st

def SeriesStore.run (st : SeriesStore) (ops : List Op) : SeriesStore :=
  ops.foldl SeriesStore.step st

/-- There is a generation for each slot. -/
def Wf (st : SeriesStore) : Prop := st.slots.length = st.generations.length

section Slots

variable {st : SeriesStore} {slot i : Nat} {x : Series}

theorem lt_of_series (h : st.series slot = some x) : slot < st.slots.length := by
  by_contra hge
  rw [SeriesStore.series, List.getElem?_eq_none (Nat.le_of_not_lt hge)] at h
  cases h

theorem series_replace (hlt : slot < st.slots.length) :
    (st.replace slot x).series i = if i = slot then some x else st.series i := by
  rw [SeriesStore.series, SeriesStore.replace, List.getElem?_set]
  by_cases h : slot = i
  · rw [if_pos h, if_pos (h ▸ hlt), if_pos h.symm]
    rfl
  · rw [if_neg h, if_neg (Ne.symm h)]
    rfl

theorem series_evict : (st.evict slot).series i = if i = slot then none else st.series i := by
  rw [SeriesStore.series, SeriesStore.evict, List.getElem?_set]
  by_cases h : slot = i
  · rw [if_pos h, if_pos h.symm]
    split_ifs <;> rfl
  · rw [if_neg h, if_neg (Ne.symm h)]
    rfl

theorem generation_evict (hlt : slot < st.generations.length) :
    (st.evict slot).generation i = if i = slot then st.generation slot + 1
      else st.generation i := by
  rw [SeriesStore.generation, SeriesStore.evict, getD_eq_getElem?_getD, List.getElem?_set]
  by_cases h : slot = i
  · rw [if_pos h, if_pos (h ▸ hlt), if_pos h.symm]
    rfl
  · rw [if_neg h, if_neg (Ne.symm h), SeriesStore.generation, getD_eq_getElem?_getD]

theorem Wf.replace (h : Wf st) : Wf (st.replace slot x) := (length_set).trans h

theorem Wf.evict (h : Wf st) : Wf (st.evict slot) := by
  rw [Wf, SeriesStore.evict, length_set, length_set]
  exact h

/-- `insert` puts a new series into a free slot. -/
theorem insert_spec (hwf : Wf st) (key : SeriesKey) (cls : Class) :
    ∃ slot, (st.insert key cls).1 = (st.insert key cls).2.id slot ∧ st.series slot = none ∧
      (∀ i, (st.insert key cls).2.series i = if i = slot then some (.new key cls)
        else st.series i) ∧
      (∀ i, (st.insert key cls).2.generation i = st.generation i) ∧ Wf (st.insert key cls).2 ∧
      st.slots.length ≤ (st.insert key cls).2.slots.length := by
  unfold SeriesStore.insert
  cases hfree : st.slots.findIdx? Option.isNone with
  | some slot =>
    obtain ⟨hlt, hnone, -⟩ := List.findIdx?_eq_some_iff_getElem.mp hfree
    refine ⟨slot, rfl, ?_, fun i => series_replace hlt, fun _ => rfl, hwf.replace, ?_⟩
    · rw [SeriesStore.series, List.getElem?_eq_getElem hlt, isNone_iff_eq_none.mp hnone]
      rfl
    · exact (length_set).ge
  | none =>
    have hlt : st.slots.length < (st.slots ++ [none]).length := by
      rw [length_append, length_singleton]
      exact Nat.lt_succ_self _
    refine ⟨st.slots.length, rfl, ?_, fun i => ?_, fun i => ?_, ?_, ?_⟩
    · rw [SeriesStore.series, List.getElem?_eq_none le_rfl]
      rfl
    · refine (series_replace hlt).trans ?_
      split_ifs with h
      · rfl
      · -- the slot that was added is empty
        rw [SeriesStore.series, SeriesStore.series, List.getElem?_append]
        split_ifs with hi
        · rfl
        · rw [List.getElem?_eq_none (l := [none]) (by rw [length_singleton]; omega),
            List.getElem?_eq_none (l := st.slots) (by omega)]
    · show (st.generations ++ [0]).getD i 0 = st.generations.getD i 0
      rw [getD_eq_getElem?_getD, getD_eq_getElem?_getD, List.getElem?_append]
      split_ifs with hi
      · rfl
      · rw [List.getElem?_eq_none (l := st.generations) (by omega)]
        cases i - st.generations.length <;> rfl
    · refine Wf.replace ?_
      rw [Wf, length_append, length_append, hwf]
      rfl
    · exact ((length_set).trans (by rw [length_append])).ge.trans' (Nat.le_add_right _ _)

theorem minByKey_mem {l : List (Nat × Nat)} {best : Nat × Nat} (h : minByKey l = some best) :
    best ∈ l := by
  have hfold : ∀ (xs : List (Nat × Nat)) (x : Nat × Nat),
      xs.foldl (fun best y => if y.2 < best.2 then y else best) x ∈ x :: xs := by
    intro xs
    induction xs with
    | nil => exact fun x => mem_singleton_self x
    | cons y ys ih =>
      intro x
      rw [foldl_cons]
      split_ifs
      · exact .tail _ (ih y)
      · rcases mem_cons.mp (ih x) with h | h
        · rw [h]
          exact .head _
        · exact .tail _ (.tail _ h)
  cases l with
  | nil => cases h
  | cons x xs => exact Option.some.inj h ▸ hfold xs x

/-- The slots that `oldest_c` chooses from. -/
theorem oldestC_entry {wanted : Nat → Bool} {i t : Nat} :
    ((if wanted i then
        match st.series i with
        | some x => if x.cls = .C then some (i, x.lastPushMs) else none
        | none => none
      else none : Option (Nat × Nat)) = some (slot, t)) ↔
      i = slot ∧ wanted slot = true ∧ ∃ x, st.series slot = some x ∧ x.cls = .C ∧
      x.lastPushMs = t := by
  constructor
  · intro h
    split_ifs at h with hwanted
    split at h
    · rename_i x hx
      split_ifs at h with hc
      obtain ⟨rfl, rfl⟩ := Prod.mk.injEq .. ▸ Option.some.inj h
      exact ⟨rfl, hwanted, x, hx, hc, rfl⟩
    · cases h
  · rintro ⟨rfl, hwanted, x, hx, hc, rfl⟩
    rw [if_pos hwanted, hx]
    exact if_pos hc

theorem oldestC_spec {wanted : Nat → Bool} (h : st.oldestC wanted = some slot) :
    wanted slot = true ∧ ∃ x, st.series slot = some x ∧ x.cls = .C := by
  obtain ⟨⟨best, t⟩, hbest, rfl⟩ := map_eq_some_iff.mp h
  obtain ⟨i, -, hi⟩ := mem_filterMap.mp (minByKey_mem hbest)
  obtain ⟨rfl, hwanted, x, hx, hc, -⟩ := oldestC_entry.mp hi
  exact ⟨hwanted, x, hx, hc⟩

theorem oldestC_isSome {wanted : Nat → Bool} (hx : st.series i = some x) (hc : x.cls = .C)
    (hwanted : wanted i = true) : ∃ slot, st.oldestC wanted = some slot := by
  have hmem : (i, x.lastPushMs) ∈ (List.range st.slots.length).filterMap fun i =>
      (if wanted i then
        match st.series i with
        | some x => if x.cls = .C then some (i, x.lastPushMs) else none
        | none => none
      else none : Option (Nat × Nat)) :=
    mem_filterMap.mpr ⟨i, mem_range.mpr (lt_of_series hx),
      oldestC_entry.mpr ⟨rfl, hwanted, x, hx, hc, rfl⟩⟩
  unfold SeriesStore.oldestC
  generalize (List.range st.slots.length).filterMap _ = l at hmem ⊢
  cases l with
  | nil => exact absurd hmem not_mem_nil
  | cons y ys => exact ⟨_, rfl⟩

/-! ## Counting -/

/-- Whether the slot has a series of the class. -/
def hasClass (s : Option Series) (cls : Class) : Bool := s.any fun x => decide (x.cls = cls)

theorem count_set (new : Option Series) (cls : Class) (hlt : slot < st.slots.length) :
    (st.slots.set slot new).countP (fun s => hasClass s cls) +
      (if hasClass (st.series slot) cls then 1 else 0) =
      st.count cls + (if hasClass new cls then 1 else 0) := by
  have hget : st.series slot = st.slots[slot] := by
    rw [SeriesStore.series, List.getElem?_eq_getElem hlt]
    rfl
  have hcount : st.count cls = st.slots.countP fun s => hasClass s cls := rfl
  rw [hcount, countP_set hlt, hget]
  split_ifs with hold hnew
  · have hpos : 0 < st.slots.countP fun s => hasClass s cls :=
      countP_pos_iff.mpr ⟨_, getElem_mem hlt, hold⟩
    omega
  · have hpos : 0 < st.slots.countP fun s => hasClass s cls :=
      countP_pos_iff.mpr ⟨_, getElem_mem hlt, hold⟩
    omega
  · omega
  · omega

theorem count_replace (x : Series) (cls : Class) (hlt : slot < st.slots.length) :
    (st.replace slot x).count cls + (if hasClass (st.series slot) cls then 1 else 0) =
      st.count cls + (if x.cls = cls then 1 else 0) := by
  refine (count_set (some x) cls hlt).trans ?_
  simp only [hasClass, any_some, decide_eq_true_eq]

theorem count_evict (cls : Class) (hlt : slot < st.slots.length) :
    (st.evict slot).count cls + (if hasClass (st.series slot) cls then 1 else 0) = st.count cls :=
  count_set none cls hlt

theorem count_insert (key : SeriesKey) (cls cls' : Class) :
    (st.insert key cls).2.count cls' = st.count cls' + if cls = cls' then 1 else 0 := by
  unfold SeriesStore.insert
  cases hfree : st.slots.findIdx? Option.isNone with
  | some slot =>
    obtain ⟨hlt, hnone, -⟩ := List.findIdx?_eq_some_iff_getElem.mp hfree
    have hseries : st.series slot = none := by
      rw [SeriesStore.series, List.getElem?_eq_getElem hlt, isNone_iff_eq_none.mp hnone]
      rfl
    have hcount := count_replace (.new key cls) cls' hlt
    rw [hseries] at hcount
    exact hcount
  | none =>
    have hlt : st.slots.length < (st.slots ++ [none]).length := by
      rw [length_append, length_singleton]
      exact Nat.lt_succ_self _
    have hcount :=
      @count_replace ⟨st.slots ++ [none], st.generations ++ [0]⟩ _ (.new key cls) cls' hlt
    have hseries : SeriesStore.series ⟨st.slots ++ [none], st.generations ++ [0]⟩ st.slots.length =
      none := by
      rw [SeriesStore.series, List.getElem?_append_right le_rfl, Nat.sub_self]
      rfl
    have hold : SeriesStore.count ⟨st.slots ++ [none], st.generations ++ [0]⟩ cls' =
      st.count cls' := by
      rw [SeriesStore.count, countP_append]
      rfl
    rw [hseries, hold] at hcount
    exact hcount

/-- The caps of the classes. -/
def Capped (st : SeriesStore) : Prop := ∀ cls, st.count cls ≤ cap cls

/-! ## What an operation does to a slot -/

/-- What happens to a slot that is not given a new series: it is kept, its series changes class, or
its class C series is evicted. -/
inductive Fate (s s' : Option Series) (g g' : UInt32) : Prop
  | kept (hs : s' = s) (hg : g' = g)
  | changed (a b : Series) (hs : s = some a) (hs' : s' = some b) (hkey : b.key = a.key)
      (hcls : b.cls ≠ a.cls)
      (hg : g' = g)
  | evicted (a : Series) (hs : s = some a) (hc : a.cls = .C) (hs' : s' = none) (hg : g' = g + 1)

/-- `Fate` for a slot of the store. -/
abbrev FateOf (st st' : SeriesStore) (i : Nat) : Prop :=
  Fate (st.series i) (st'.series i) (st.generation i) (st'.generation i)

theorem FateOf.refl (st : SeriesStore) (i : Nat) : FateOf st st i := .kept rfl rfl

theorem evict_fate (hwf : Wf st) (hx : st.series slot = some x) (hc : x.cls = .C) (i : Nat) :
    FateOf st (st.evict slot) i := by
  unfold FateOf
  rw [series_evict, generation_evict (hwf ▸ lt_of_series hx)]
  split_ifs with h
  · subst h
    exact .evicted x hx hc rfl rfl
  · exact .kept rfl rfl

/-- A new series is put into a slot: a free one, or one whose class C series is evicted. -/
structure Fresh (st st' : SeriesStore) (slot : Nat) (key : SeriesKey) (cls : Class) : Prop where
  series : st'.series slot = some (.new key cls)
  before : (st.series slot = none ∧ st'.generation slot = st.generation slot) ∨
    ∃ a, st.series slot = some a ∧ a.cls = .C ∧ st'.generation slot = st.generation slot + 1
  others : ∀ i, i ≠ slot → FateOf st st' i

/-- **`intern`**: the slot of a series that exists, a new series, or none. -/
theorem intern_spec (hwf : Wf st) (hcap : Capped st) (key : SeriesKey) (cls : Class) :
    (st.intern key cls = (none, st)) ∨
      (∃ slot, st.find key = some slot ∧ st.intern key cls = (some (st.id slot), st)) ∨
      (st.find key = none ∧ Wf (st.intern key cls).2 ∧ Capped (st.intern key cls).2 ∧
        ∃ slot, (st.intern key cls).1 = some ((st.intern key cls).2.id slot) ∧
          Fresh st (st.intern key cls).2 slot key cls) := by
  unfold SeriesStore.intern
  cases hfind : st.find key with
  | some slot => exact .inr (.inl ⟨slot, rfl, rfl⟩)
  | none =>
    dsimp only
    split_ifs with hfull hc
    · cases hold : st.oldestC fun _ => true with
      | none => exact .inl rfl
      | some e =>
        -- the oldest class C series makes room
        obtain ⟨-, x, hx, hxc⟩ := oldestC_spec hold
        have hwf' : Wf (st.evict e) := hwf.evict
        obtain ⟨slot, hid, hfree, hseries, hgen, hwf'', -⟩ := insert_spec hwf' key cls
        refine .inr (.inr ⟨rfl, hwf'', ?_, slot, congrArg some hid, ?_, ?_, ?_⟩)
        · intro cls'
          have hcount := @count_insert (st.evict e) key cls cls'
          have hevict := count_evict cls' (lt_of_series hx)
          have hle := hcap cls'
          rw [hx, hasClass, any_some, hxc] at hevict
          rw [hc] at hcount
          show ((st.evict e).insert key cls).2.count cls' ≤ _
          rw [hc]
          by_cases h : Class.C = cls'
          · rw [decide_eq_true h, if_pos rfl] at hevict
            rw [if_pos h] at hcount
            omega
          · rw [decide_eq_false h, if_neg Bool.false_ne_true] at hevict
            rw [if_neg h] at hcount
            omega
        · exact (hseries slot).trans (if_pos rfl)
        · show (_ ∧ ((st.evict e).insert key cls).2.generation slot = _) ∨ ∃ a, _ ∧ _ ∧
            ((st.evict e).insert key cls).2.generation slot = _
          rw [hgen, generation_evict (hwf ▸ lt_of_series hx)]
          rw [series_evict] at hfree
          split_ifs at hfree ⊢ with h
          · exact .inr ⟨x, h ▸ hx, hxc, h ▸ rfl⟩
          · exact .inl ⟨hfree, rfl⟩
        · intro i hi
          show Fate _ (((st.evict e).insert key cls).2.series i) _
            (((st.evict e).insert key cls).2.generation i)
          rw [hseries, hgen, if_neg hi]
          exact evict_fate hwf hx hxc i
    · exact .inl rfl
    · obtain ⟨slot, hid, hfree, hseries, hgen, hwf', -⟩ := insert_spec hwf key cls
      refine .inr (.inr ⟨rfl, hwf', ?_, slot, congrArg some hid, ?_, ?_, ?_⟩)
      · intro cls'
        have hle := hcap cls'
        show (st.insert key cls).2.count cls' ≤ _
        rw [count_insert]
        split_ifs with h
        · rw [← h]
          omega
        · exact hle
      · exact (hseries slot).trans (if_pos rfl)
      · exact .inl ⟨hfree, hgen slot⟩
      · intro i hi
        show Fate _ ((st.insert key cls).2.series i) _ ((st.insert key cls).2.generation i)
        rw [hseries, hgen, if_neg hi]
        exact .kept rfl rfl

/-! ### Pushes -/

theorem get_spec {id : SeriesId} (h : st.get id = some x) :
    st.series id.slot = some x ∧ st.generation id.slot = id.generation := by
  unfold SeriesStore.get at h
  split_ifs at h with hgen
  exact ⟨h, by rw [SeriesStore.generation, getD_eq_getElem?_getD, hgen]; rfl⟩

theorem closeSecond_same (s : Series) (second : Nat) (value : Option ℚ) :
    (s.closeSecond second value).key = s.key ∧ (s.closeSecond second value).cls = s.cls := by
  unfold Series.closeSecond
  split
  · exact ⟨rfl, rfl⟩
  · dsimp only
    split <;> exact ⟨rfl, rfl⟩

theorem push_same (s : Series) (atMs : Nat) (value : Option ℚ) :
    (s.push atMs value).2.key = s.key ∧ (s.push atMs value).2.cls = s.cls := by
  unfold Series.push
  dsimp only
  split
  · exact ⟨rfl, rfl⟩
  · split_ifs
    · exact ⟨rfl, rfl⟩
    · exact closeSecond_same s _ _
    · exact ⟨rfl, rfl⟩

theorem replace_count_same {y : Series} (hx : st.series slot = some x) (hcls : y.cls = x.cls)
    (cls : Class) : (st.replace slot y).count cls = st.count cls := by
  have hcount := count_replace y cls (lt_of_series hx)
  rw [hx, hasClass, any_some, hcls] at hcount
  by_cases h : x.cls = cls
  · rw [decide_eq_true h, if_pos rfl, if_pos h] at hcount
    omega
  · rw [decide_eq_false h, if_neg Bool.false_ne_true, if_neg h] at hcount
    omega

/-- **`push`** changes nothing, or the one series that the id names. -/
theorem push_spec (hwf : Wf st) (hcap : Capped st) (id : SeriesId) (atMs : Nat) (value : Option ℚ) :
    Wf (st.push id atMs value).2 ∧ Capped (st.push id atMs value).2 ∧
      (∀ i, (st.push id atMs value).2.generation i = st.generation i) ∧
      ((st.push id atMs value = (false, st) ∧ st.get id = none) ∨
        ∃ x, st.get id = some x ∧ (st.push id atMs value).1 = (x.push atMs value).1 ∧
          ∀ i, (st.push id atMs value).2.series i =
            if i = id.slot then some (x.push atMs value).2 else st.series i) := by
  unfold SeriesStore.push
  cases hget : st.get id with
  | none => exact ⟨hwf, hcap, fun _ => rfl, .inl ⟨rfl, rfl⟩⟩
  | some x =>
    have hx := (get_spec hget).1
    refine ⟨hwf.replace, fun cls => ?_, fun _ => rfl,
      .inr ⟨x, rfl, rfl, fun i => series_replace (lt_of_series hx)⟩⟩
    exact (replace_count_same hx (push_same x atMs value).2 cls).trans_le (hcap cls)

/-! ### Evictions -/

/-- The first `n` steps of the loop of `evict_stale`. -/
def staleLoop (st : SeriesStore) (nowMs n : Nat) : SeriesStore :=
  (List.range n).foldl (fun st slot =>
    match st.series slot with
    | some s => if s.cls = .C ∧ 120000 < nowMs - s.lastPushMs then st.evict slot else st
    | none => st) st

theorem staleLoop_spec (hwf : Wf st) (nowMs n : Nat) :
    Wf (staleLoop st nowMs n) ∧ (∀ cls, (staleLoop st nowMs n).count cls ≤ st.count cls) ∧
      (∀ i < n, FateOf st (staleLoop st nowMs n) i) ∧
      ∀ i, n ≤ i → (staleLoop st nowMs n).series i = st.series i ∧
        (staleLoop st nowMs n).generation i = st.generation i := by
  induction n with
  | zero => exact ⟨hwf, fun _ => le_rfl, fun i hi => absurd hi (Nat.not_lt_zero i),
    fun _ _ => ⟨rfl, rfl⟩⟩
  | succ n ih =>
    obtain ⟨hwf', hcount, hfates, hrest⟩ := ih
    obtain ⟨hsame, hgen⟩ := hrest n (Nat.le_refl n)
    have hkeep : Wf (staleLoop st nowMs n) ∧
      (∀ cls, (staleLoop st nowMs n).count cls ≤ st.count cls) ∧
        (∀ i < n + 1, FateOf st (staleLoop st nowMs n) i) ∧
        ∀ i, n + 1 ≤ i → (staleLoop st nowMs n).series i = st.series i ∧
          (staleLoop st nowMs n).generation i = st.generation i := by
      refine ⟨hwf', hcount, fun i hi => ?_, fun i hi => hrest i (by omega)⟩
      rcases Nat.lt_succ_iff_lt_or_eq.mp hi with h | rfl
      · exact hfates i h
      · exact .kept hsame hgen
    rw [staleLoop, range_succ, foldl_append, foldl_cons, foldl_nil, ← staleLoop]
    cases hx : (staleLoop st nowMs n).series n with
    | none => exact hkeep
    | some x =>
      dsimp only
      split_ifs with hstale
      · have hlt : n < (staleLoop st nowMs n).slots.length := lt_of_series hx
        refine ⟨hwf'.evict, fun cls => ?_, fun i hi => ?_, fun i hi => ?_⟩
        · have hevict := count_evict cls hlt
          have hle := hcount cls
          omega
        · unfold FateOf
          rw [series_evict, generation_evict (hwf' ▸ hlt)]
          split_ifs with h
          · subst h
            rw [hgen]
            exact .evicted x (hsame ▸ hx) hstale.1 rfl rfl
          · exact hfates i (by omega)
        · rw [series_evict, generation_evict (hwf' ▸ hlt), if_neg (by omega), if_neg (by omega)]
          exact hrest i (by omega)
      · exact hkeep

/-- **`evict_stale`** evicts class C series only. -/
theorem evictStale_spec (hwf : Wf st) (hcap : Capped st) (nowMs : Nat) :
    Wf (st.evictStale nowMs) ∧ Capped (st.evictStale nowMs) ∧
    ∀ i, FateOf st (st.evictStale nowMs) i := by
  obtain ⟨hwf', hcount, hfates, hrest⟩ := staleLoop_spec hwf nowMs st.slots.length
  refine ⟨hwf', fun cls => (hcount cls).trans (hcap cls), fun i => ?_⟩
  by_cases hi : i < st.slots.length
  · exact hfates i hi
  · obtain ⟨hsame, hgen⟩ := hrest i (by omega)
    exact .kept hsame hgen

/-! ### Selections -/

theorem find_spec {key : SeriesKey} (h : st.find key = some slot) :
    ∃ x, st.series slot = some x ∧ x.key = key := by
  obtain ⟨hlt, hany, -⟩ := List.findIdx?_eq_some_iff_getElem.mp h
  obtain ⟨x, hx, hkey⟩ := (Option.any_eq_true _ _).mp hany
  refine ⟨x, ?_, of_decide_eq_true hkey⟩
  rw [SeriesStore.series, List.getElem?_eq_getElem hlt, hx]
  rfl

theorem promote_same (s : Series) : s.promote.key = s.key ∧ s.promote.cls = .B := by
  unfold Series.promote
  have hfold : ∀ (l : List Nat) (p : Series),
      (l.foldl (fun p second => p.closeSecond second (p.t0.at second)) p).key = p.key ∧
        (l.foldl (fun p second => p.closeSecond second (p.t0.at second)) p).cls = p.cls := by
    intro l
    induction l with
    | nil => exact fun p => ⟨rfl, rfl⟩
    | cons second l ih =>
      intro p
      obtain ⟨hkey, hcls⟩ := closeSecond_same p second (p.t0.at second)
      exact ⟨(ih _).1.trans hkey, (ih _).2.trans hcls⟩
  dsimp only
  split
  · exact ⟨rfl, rfl⟩
  · exact hfold _ _

theorem demote_same (s : Series) : s.demote.key = s.key ∧ s.demote.cls = .C := by
  unfold Series.demote
  dsimp only
  split <;> exact ⟨rfl, rfl⟩

/-- Replacing a series by one of another class under the same key. -/
theorem replace_fate {y : Series} (hx : st.series slot = some x) (hkey : y.key = x.key)
    (hcls : y.cls ≠ x.cls) (i : Nat) : FateOf st (st.replace slot y) i := by
  unfold FateOf
  rw [series_replace (lt_of_series hx)]
  split_ifs with h
  · subst h
    exact .changed x y hx rfl hkey hcls rfl
  · exact .kept rfl rfl

theorem count_hasClass {cls : Class} (hx : st.series slot = some x) (hcls : x.cls = cls) :
    hasClass (st.series slot) cls = true := by
  rw [hx, hasClass, any_some, hcls, decide_eq_true rfl]

/-- With a class C series there is an oldest one beside a slot of another class. -/
theorem exists_oldestC (hx : st.series slot = some x) (hcls : x.cls ≠ .C) (hpos : 0 < st.count .C) :
    ∃ e, st.oldestC (fun i => decide (i ≠ slot)) = some e := by
  obtain ⟨s, hs, hclass⟩ := countP_pos_iff.mp hpos
  obtain ⟨y, rfl, hy⟩ := (Option.any_eq_true _ _).mp hclass
  obtain ⟨i, hi, hget⟩ := getElem_of_mem hs
  have hseries : st.series i = some y := by
    rw [SeriesStore.series, List.getElem?_eq_getElem hi, hget]
    rfl
  refine oldestC_isSome hseries (of_decide_eq_true hy) (decide_eq_true ?_)
  rintro rfl
  rw [hx] at hseries
  cases hseries
  exact hcls (of_decide_eq_true hy)

/-- The room for a series that becomes one of class C. -/
theorem makeRoom_spec (hwf : Wf st) (hcap : Capped st) (hx : st.series slot = some x)
    (hcls : x.cls ≠ .C) :
    Wf (st.makeRoom slot) ∧ (st.makeRoom slot).series slot = some x ∧
      (st.makeRoom slot).generation slot = st.generation slot ∧
      (∀ cls, (st.makeRoom slot).count cls + (if cls = .C then 1 else 0) ≤ cap cls) ∧
      ∀ i, FateOf st (st.makeRoom slot) i := by
  unfold SeriesStore.makeRoom
  split_ifs with hfull
  · obtain ⟨e, he⟩ := exists_oldestC hx hcls ((show 0 < capC by decide).trans_le hfull)
    rw [he]
    dsimp only
    obtain ⟨hne, y, hy, hyc⟩ := oldestC_spec he
    have hne : slot ≠ e := fun h => of_decide_eq_true hne h.symm
    refine ⟨hwf.evict, ?_, ?_, fun cls => ?_, evict_fate hwf hy hyc⟩
    · rw [series_evict, if_neg hne, hx]
    · rw [generation_evict (hwf ▸ lt_of_series hy), if_neg hne]
    · have hcount := count_evict cls (lt_of_series hy)
      have hle := hcap cls
      by_cases hC : cls = .C
      · rw [hC, count_hasClass hy hyc, if_pos rfl] at hcount
        rw [hC] at hle ⊢
        rw [if_pos rfl]
        omega
      · rw [if_neg hC]
        omega
  · refine ⟨hwf, hx, rfl, fun cls => ?_, .refl st⟩
    have hle := hcap cls
    split_ifs with hC
    · subst hC
      simp only [cap]
      omega
    · exact hle

/-- **`select`** changes the class of the series under its key, and may evict a class C series. -/
theorem select_spec (hwf : Wf st) (hcap : Capped st) (key : SeriesKey) (selected : Bool) :
    Wf (st.select key selected).2 ∧ Capped (st.select key selected).2 ∧
      (∀ i, FateOf st (st.select key selected).2 i) ∧
      ∀ id, (st.select key selected).1 = some id →
        ∃ slot x, id = (st.select key selected).2.id slot ∧
        (st.select key selected).2.series slot = some x ∧ x.key = key := by
  unfold SeriesStore.select
  cases hfind : st.find key with
  | none => exact ⟨hwf, hcap, .refl st, fun id hid => nomatch hid⟩
  | some slot =>
    obtain ⟨x, hx, hkey⟩ := find_spec hfind
    have hlt := lt_of_series hx
    dsimp only
    rw [hx]
    dsimp only
    split_ifs with hfull hpromote hdemote
    · exact ⟨hwf, hcap, .refl st, fun id hid => nomatch hid⟩
    · -- class C to class B, where there is room
      obtain ⟨hselected, hC⟩ := hpromote
      obtain ⟨hpkey, hpcls⟩ := promote_same x
      refine ⟨hwf.replace, fun cls => ?_,
        replace_fate hx hpkey (by rw [hpcls, hC]; exact Class.noConfusion), ?_⟩
      · have hcount := count_replace x.promote cls hlt
        have hle := hcap cls
        have hroom : st.count .B < capB := by
          by_contra hfullB
          exact hfull ⟨hselected, hC, Nat.le_of_not_lt hfullB⟩
        show (st.replace slot x.promote).count cls ≤ cap cls
        rw [hpcls] at hcount
        by_cases hB : Class.B = cls
        · subst hB
          rw [if_pos rfl] at hcount
          simp only [cap] at *
          omega
        · rw [if_neg hB] at hcount
          omega
      · intro id hid
        refine ⟨slot, x.promote, (Option.some.inj hid).symm, ?_, hpkey.trans hkey⟩
        exact (series_replace hlt).trans (if_pos rfl)
    · -- class B to class C, where another class C series may have to go
      obtain ⟨-, hB⟩ := hdemote
      obtain ⟨hdkey, hdcls⟩ := demote_same x
      have hBC : x.cls ≠ .C := by
        rw [hB]
        exact Class.noConfusion
      obtain ⟨hwf1, hx1, hgen1, hroom, hfates⟩ := makeRoom_spec hwf hcap hx hBC
      have hlt1 := lt_of_series hx1
      refine ⟨hwf1.replace, fun cls => ?_, fun i => ?_, ?_⟩
      · have hcount := count_replace x.demote cls hlt1
        have hle := hroom cls
        show ((st.makeRoom slot).replace slot x.demote).count cls ≤ cap cls
        rw [hdcls] at hcount
        by_cases hC : Class.C = cls
        · rw [if_pos hC] at hcount
          rw [if_pos hC.symm] at hle
          omega
        · rw [if_neg hC] at hcount
          omega
      · show Fate _ (((st.makeRoom slot).replace slot x.demote).series i) _
          ((st.makeRoom slot).generation i)
        rw [series_replace hlt1]
        split_ifs with hi
        · subst hi
          exact .changed x x.demote hx rfl hdkey (by rw [hdcls]; exact hBC.symm) hgen1
        · exact hfates i
      · intro id hid
        refine ⟨slot, x.demote, (Option.some.inj hid).symm, ?_, hdkey.trans hkey⟩
        exact (series_replace hlt1).trans (if_pos rfl)
    · exact ⟨hwf, hcap, .refl st, fun id hid => ⟨slot, x, (Option.some.inj hid).symm, hx, hkey⟩⟩

end Slots

end Thegn.Monitor
