import Thegn.Replay.Recording

set_option autoImplicit false

/-! # The accounts of the replay ring

The events that were ever recorded are a log, of which the ring holds the part behind the first
`evicted` ones. `Accounts` says so and ties the counters to the ring; popping an event keeps it
(`popFront_accounts`), so no subtraction clips, and the loop of `evict` ends within the budget
(`evict_spec`).
-/

namespace Thegn.Replay

open List

/-! ## The log -/

/-- The output in the events. -/
def payload (evs : List Event) : List UInt8 :=
  evs.flatMap fun e => match e.kind with
    | .bytes b => b
    | .resize _ _ => []

/-- The resizes in the events. -/
def resizes (evs : List Event) : List (Nat × Nat) :=
  evs.filterMap fun e => match e.kind with
    | .bytes _ => none
    | .resize rows cols => some (rows, cols)

/-- The geometry in force after the events, of at least one cell. -/
def geometry (start : Nat × Nat) (evs : List Event) : Nat × Nat :=
  evs.foldl (fun g e => match e.kind with
    | .bytes _ => g
    | .resize rows cols => (max rows 1, max cols 1)) start

theorem payload_append (l m : List Event) : payload (l ++ m) = payload l ++ payload m :=
  flatMap_append

theorem payload_cons (e : Event) (l : List Event) : payload (e :: l) = payload [e] ++ payload l :=
  payload_append [e] l

theorem resizes_append (l m : List Event) : resizes (l ++ m) = resizes l ++ resizes m :=
  filterMap_append

/-- How much of the history is in the events: output bytes and resizes. -/
def weight (evs : List Event) : Nat := (payload evs).length + (resizes evs).length

theorem weight_append (l m : List Event) : weight (l ++ m) = weight l + weight m := by
  rw [weight, payload_append, resizes_append, length_append, length_append, weight, weight]
  omega

theorem geometry_snoc (start : Nat × Nat) (evs : List Event) (e : Event) :
    geometry start (evs ++ [e]) = geometry (geometry start evs) [e] := foldl_append

/-! ## The accounts -/

/-- **The accounts of a ring** over the log of its events. Keyframes of events that are gone may
still be charged. -/
structure Accounts (start : Nat × Nat) (log : List Event) (r : Recording) : Prop where
  events : r.events = log.drop r.evicted
  evicted_le : r.evicted ≤ log.length
  nextSeq : r.nextSeq = log.length
  payload : r.payloadBytesUsed = (payload r.events).length
  bytes : r.bytesUsed =
    r.payloadBytesUsed + replayEntryOverheadBytes * (r.events.length + r.keyframes.length)
  sorted : (r.keyframes.map Keyframe.eventSeq).Pairwise (· < ·)
  keyframes_lt : ∀ k ∈ r.keyframes, k.eventSeq < log.length
  geometry : (r.baseRows, r.baseCols) = geometry start (log.take r.evicted)

section Evict

variable {start : Nat × Nat} {log : List Event} {r : Recording}

theorem Accounts.drop_cons (h : Accounts start log r) {ev : Event} {rest : List Event}
    (hev : r.events = ev :: rest) :
    r.evicted < log.length ∧ rest = log.drop (r.evicted + 1) ∧
    log.take (r.evicted + 1) = log.take r.evicted ++ [ev] := by
  have hdrop := h.events.symm.trans hev
  have hlt : r.evicted < log.length := by
    by_contra hge
    rw [drop_eq_nil_of_le (Nat.le_of_not_lt hge)] at hdrop
    cases hdrop
  rw [drop_eq_getElem_cons hlt, List.cons.injEq] at hdrop
  refine ⟨hlt, hdrop.2.symm, ?_⟩
  rw [take_succ_eq_append_getElem hlt, hdrop.1]

/-- The sorted keyframes whose event is gone are a prefix. -/
theorem filter_eq_dropWhile {n : Nat} {ks : List Keyframe}
    (hs : (ks.map Keyframe.eventSeq).Pairwise (· < ·)) :
    ks.filter (fun k => decide (n ≤ k.eventSeq)) = ks.dropWhile fun k =>
      decide (k.eventSeq < n) := by
  induction ks with
  | nil => rfl
  | cons k ks ih =>
    rw [map_cons, pairwise_cons] at hs
    by_cases hk : k.eventSeq < n
    · rw [dropWhile_cons_of_pos (by simpa using hk), filter_cons_of_neg (by simpa using hk),
        ih hs.2]
    · rw [dropWhile_cons_of_neg (by simpa using hk), filter_eq_self]
      intro k' hk'
      rcases mem_cons.mp hk' with rfl | hk'
      · simpa using hk
      · have hlt := hs.1 _ (mem_map_of_mem hk')
        simp only [decide_eq_true_eq]
        omega

theorem orphaned_add_kept (hs : (r.keyframes.map Keyframe.eventSeq).Pairwise (· < ·)) :
    r.orphaned + (r.keyframes.filter fun k => decide (r.evicted ≤ k.eventSeq)).length =
      r.keyframes.length := by
  rw [filter_eq_dropWhile hs, Recording.orphaned, ← length_append, takeWhile_append_dropWhile]

theorem Accounts.orphaned_le (h : Accounts start log r) :
    r.orphaned * replayEntryOverheadBytes ≤ r.bytesUsed := by
  have hkeep := orphaned_add_kept (r := r) h.sorted
  rw [h.bytes, Nat.mul_comm]
  have hle : r.orphaned ≤ r.events.length + r.keyframes.length := by omega
  exact (Nat.mul_le_mul_left _ hle).trans (Nat.le_add_left _ _)

theorem checkedSub_of_le {a b : Nat} (h : b ≤ a) : checkedSub a b = some (a - b) := if_pos h

/-- What an eviction leaves as it is. -/
structure Frame (r r' : Recording) : Prop where
  budget : r'.budget = r.budget
  epoch : r'.epoch = r.epoch
  lastKeyframeMs : r'.lastKeyframeMs = r.lastKeyframeMs
  truncated : r'.historyTruncated = r.historyTruncated
  keyframes : r'.keyframes = r.keyframes

theorem Frame.refl (r : Recording) : Frame r r := ⟨rfl, rfl, rfl, rfl, rfl⟩

theorem Frame.trans {a b c : Recording} (h : Frame a b) (h' : Frame b c) : Frame a c :=
  ⟨h'.budget.trans h.budget, h'.epoch.trans h.epoch, h'.lastKeyframeMs.trans h.lastKeyframeMs,
    h'.truncated.trans h.truncated, h'.keyframes.trans h.keyframes⟩

/-- **Popping an event** keeps the accounts, and no subtraction clips. -/
theorem popFront_accounts (h : Accounts start log r) {ev : Event} {rest : List Event}
    (hev : r.events = ev :: rest) :
    ∃ r', r.popFront checkedSub ev rest = some r' ∧ Accounts start log r' ∧ r'.events = rest ∧
      r'.evicted = r.evicted + 1 ∧ Frame r r' := by
  obtain ⟨hlt, hrest, htake⟩ := h.drop_cons hev
  have hpayload := h.payload
  have hbytes := h.bytes
  rw [hev, payload_cons, length_append] at hpayload
  rw [hev, length_cons] at hbytes
  have hgeometry : geometry start (log.take (r.evicted + 1)) =
      geometry (r.baseRows, r.baseCols) [ev] := by
    rw [htake, geometry_snoc, ← h.geometry]
  unfold replayEntryOverheadBytes at hbytes
  obtain ⟨seq, atMs, kind⟩ := ev
  cases kind with
  | bytes b =>
    have hb : payload [⟨seq, atMs, .bytes b⟩] = b := append_nil b
    rw [hb] at hpayload
    refine ⟨{ r with
      events := rest
      payloadBytesUsed := r.payloadBytesUsed - b.length
      bytesUsed := r.bytesUsed - replayEntryOverheadBytes - b.length
      evicted := r.evicted + 1 }, ?_, ?_, rfl, rfl, ⟨rfl, rfl, rfl, rfl, rfl⟩⟩
    · unfold Recording.popFront replayEntryOverheadBytes
      dsimp only
      rw [checkedSub_of_le (by omega), checkedSub_of_le (by omega)]
      simp only [Option.bind_eq_bind, Option.bind_some]
      rw [checkedSub_of_le (by omega)]
      rfl
    · exact
        { events := hrest
          evicted_le := hlt
          nextSeq := h.nextSeq
          payload := by
            dsimp only
            omega
          bytes := by
            unfold replayEntryOverheadBytes
            dsimp only
            omega
          sorted := h.sorted
          keyframes_lt := h.keyframes_lt
          geometry := hgeometry.symm }
  | resize rows cols =>
    have hb : payload [⟨seq, atMs, .resize rows cols⟩] = [] := rfl
    rw [hb, length_nil, Nat.zero_add] at hpayload
    refine ⟨{ r with
      events := rest
      bytesUsed := r.bytesUsed - replayEntryOverheadBytes
      baseRows := max rows 1
      baseCols := max cols 1
      evicted := r.evicted + 1 }, ?_, ?_, rfl, rfl, ⟨rfl, rfl, rfl, rfl, rfl⟩⟩
    · unfold Recording.popFront replayEntryOverheadBytes
      dsimp only
      rw [checkedSub_of_le (by omega)]
      rfl
    · exact
        { events := hrest
          evicted_le := hlt
          nextSeq := h.nextSeq
          payload := hpayload
          bytes := by
            unfold replayEntryOverheadBytes
            dsimp only
            omega
          sorted := h.sorted
          keyframes_lt := h.keyframes_lt
          geometry := hgeometry.symm }

/-- The ring is empty, or within its byte budget without the orphaned keyframes. -/
def Settled (r : Recording) : Prop :=
  r.events = [] ∨ r.bytesUsed - r.orphaned * replayEntryOverheadBytes ≤ r.budget.maxBytes

/-- **The loop of `evict`.** -/
theorem evictLoop_spec {nowMs : Nat} {evs : List Event} :
    ∀ {r : Recording} {evictedAny : Bool}, Accounts start log r → r.events = evs →
      (∀ e ∈ evs, e.atMs ≤ nowMs) →
      ∃ r', evictLoop checkedSub nowMs evs r evictedAny =
          some (r', evictedAny || decide (r.evicted < r'.evicted)) ∧
        Accounts start log r' ∧ Settled r' ∧ r.evicted ≤ r'.evicted ∧ Frame r r' := by
  induction evs with
  | nil =>
    intro r evictedAny h hev _
    refine ⟨r, ?_, h, .inl hev, le_rfl, .refl r⟩
    rw [evictLoop, decide_eq_false (Nat.lt_irrefl _), Bool.or_false]
  | cons ev rest ih =>
    intro r evictedAny h hev hnow
    rw [evictLoop, checkedSub_of_le h.orphaned_le, checkedSub_of_le (hnow ev mem_cons_self)]
    simp only [Option.bind_eq_bind, Option.bind_some]
    split_ifs with hover
    · obtain ⟨r1, hpop, h1, hev1, hevicted, hframe⟩ := popFront_accounts h hev
      obtain ⟨r', hloop, h', hsettled, hle, hframe'⟩ :=
        @ih r1 true h1 hev1 fun e he => hnow e (.tail _ he)
      have hlt : r.evicted < r'.evicted := by omega
      refine ⟨r', ?_, h', hsettled, hlt.le, hframe.trans hframe'⟩
      rw [hpop, Option.bind_some, hloop, Bool.true_or, decide_eq_true hlt, Bool.or_true]
    · rw [not_or, Nat.not_lt] at hover
      refine ⟨r, ?_, h, .inr hover.1, le_rfl, .refl r⟩
      rw [decide_eq_false (Nat.lt_irrefl _), Bool.or_false]
      rfl

theorem Accounts.noteDropped (h : Accounts start log r) (dropped : Bool) :
    Accounts start log (r.noteDropped dropped) := by
  cases dropped with
  | false => exact h
  | true =>
    exact { h with }

theorem noteDropped_frame (r : Recording) (dropped : Bool) :
    (r.noteDropped dropped).bytesUsed = r.bytesUsed ∧ (r.noteDropped dropped).evicted = r.evicted ∧
      (r.noteDropped dropped).keyframes = r.keyframes ∧ (r.noteDropped dropped).budget = r.budget ∧
      (r.noteDropped dropped).epoch = r.epoch ∧ (r.noteDropped dropped).lastKeyframeMs =
        r.lastKeyframeMs ∧
      (r.noteDropped dropped).historyTruncated = (r.historyTruncated || dropped) ∧
      (r.noteDropped dropped).events = r.events ∧
      (r.noteDropped dropped).bytesSinceKeyframe = r.bytesSinceKeyframe ∧
      (r.noteDropped dropped).nextSeq = r.nextSeq := by
  cases dropped with
  | false => simp [Recording.noteDropped]
  | true => simp [Recording.noteDropped]

/-- Dropping the orphaned keyframes. -/
theorem dropOrphans_spec (h : Accounts start log r) (hsettled : Settled r) :
    ∃ r', r.dropOrphans checkedSub = some r' ∧ Accounts start log r' ∧
    r'.bytesUsed ≤ r'.budget.maxBytes ∧
      r'.keyframes = r.keyframes.filter (fun k => decide (r.evicted ≤ k.eventSeq)) ∧
      r'.evicted = r.evicted ∧ r'.historyTruncated = r.historyTruncated ∧ r'.budget = r.budget ∧
      r'.epoch = r.epoch ∧ r'.lastKeyframeMs = r.lastKeyframeMs := by
  have hkeep := orphaned_add_kept (r := r) h.sorted
  have hbytes := h.bytes
  have hremoved : r.keyframes.length - (r.keyframes.filter fun k =>
    decide (r.evicted ≤ k.eventSeq)).length = r.orphaned := by omega
  refine ⟨{ r with
    keyframes := r.keyframes.filter fun k => decide (r.evicted ≤ k.eventSeq)
    bytesUsed := r.bytesUsed - r.orphaned * replayEntryOverheadBytes }, ?_, ?_, ?_, rfl, rfl, rfl,
      rfl, rfl, rfl⟩
  · unfold Recording.dropOrphans
    split_ifs with hpos
    · dsimp only
      rw [hremoved, checkedSub_of_le h.orphaned_le]
      rfl
    · have hall : r.keyframes.filter (fun k => decide (r.evicted ≤ k.eventSeq)) = r.keyframes := by
        rw [filter_eq_self]
        intro k _
        rw [Nat.eq_zero_of_not_pos hpos, decide_eq_true (Nat.zero_le _)]
      have hnone : r.orphaned = 0 := by
        rw [hall] at hkeep
        omega
      rw [hall, hnone, Nat.zero_mul, Nat.sub_zero]
      rfl
  · exact
      { events := h.events
        evicted_le := h.evicted_le
        nextSeq := h.nextSeq
        payload := h.payload
        bytes := by
          unfold replayEntryOverheadBytes at hbytes ⊢
          dsimp only
          omega
        sorted := h.sorted.sublist (filter_sublist.map _)
        keyframes_lt := fun k hk => h.keyframes_lt k (mem_of_mem_filter hk)
        geometry := h.geometry }
  · rcases hsettled with hempty | hfits
    · -- with no event left every keyframe is orphaned
      have hgone : r.evicted = log.length := by
        have hlen := congrArg List.length (h.events.symm.trans hempty)
        rw [length_drop, length_nil] at hlen
        have hle := h.evicted_le
        omega
      have hnone : r.keyframes.filter (fun k => decide (r.evicted ≤ k.eventSeq)) = [] := by
        rw [filter_eq_nil_iff]
        intro k hk
        have hlt := h.keyframes_lt k hk
        simp only [decide_eq_true_eq]
        omega
      have hpayload := h.payload
      rw [hempty] at hpayload hbytes
      rw [hnone] at hkeep
      unfold replayEntryOverheadBytes at hbytes ⊢
      simp only [length_nil, payload, flatMap_nil] at hkeep hpayload hbytes
      dsimp only
      omega
    · exact hfits

/-- **What `evict` does**: it drops events off the front until the ring is within its budget, with
exact accounts and no keyframe whose event is gone. -/
theorem evict_spec {nowMs : Nat} (h : Accounts start log r)
    (hnow : ∀ e ∈ r.events, e.atMs ≤ nowMs) :
    ∃ r', r.evict checkedSub nowMs = some r' ∧ Accounts start log r' ∧
    r'.bytesUsed ≤ r'.budget.maxBytes ∧
      r.evicted ≤ r'.evicted ∧
      r'.keyframes = r.keyframes.filter (fun k => decide (r'.evicted ≤ k.eventSeq)) ∧
      r'.historyTruncated = (r.historyTruncated || decide (r.evicted < r'.evicted)) ∧
      r'.budget = r.budget ∧ r'.epoch = r.epoch ∧ r'.lastKeyframeMs = r.lastKeyframeMs := by
  obtain ⟨r1, hloop, h1, hsettled, hle, hframe⟩ := @evictLoop_spec _ _ _ _ r false h rfl hnow
  obtain ⟨r2, hdrop, h2, hwithin, hkeyframes, hevicted, htruncated, hbudget, hepoch, hlast⟩ :=
    dropOrphans_spec h1 hsettled
  obtain ⟨n1, n2, n3, n4, n5, n6, n7, -, -, -⟩ :=
    noteDropped_frame r2 (decide (r.evicted < r1.evicted))
  refine ⟨r2.noteDropped (decide (r.evicted < r1.evicted)), ?_,
    h2.noteDropped _, ?_, ?_, ?_, ?_, ?_, ?_, ?_⟩
  · rw [Recording.evict, hloop, Bool.false_or]
    simp only [Option.bind_eq_bind, Option.bind_some, hdrop, Option.pure_def]
  · rw [n1, n4]
    exact hwithin
  · rw [n2, hevicted]
    exact hle
  · rw [n3, n2, hkeyframes, hevicted, hframe.keyframes]
  · rw [n7, n2, hevicted, htruncated, hframe.truncated]
  · rw [n4, hbudget, hframe.budget]
  · rw [n5, hepoch, hframe.epoch]
  · rw [n6, hlast, hframe.lastKeyframeMs]

/-- **Appending an event**, with a keyframe for it or without. -/
theorem Accounts.snoc (h : Accounts start log r) {r' : Recording} {e : Event}
    {marks : List Keyframe}
    (hevents : r'.events = r.events ++ [e]) (hevicted : r'.evicted = r.evicted)
    (hnext : r'.nextSeq = r.nextSeq + 1)
    (hbase : (r'.baseRows, r'.baseCols) = (r.baseRows, r.baseCols))
    (hkeyframes : r'.keyframes = r.keyframes ++ marks)
    (hmarks : (marks.map Keyframe.eventSeq).Sublist [log.length])
    (hpayload : r'.payloadBytesUsed = r.payloadBytesUsed + (Replay.payload [e]).length)
    (hbytes : r'.bytesUsed =
      r.bytesUsed + (Replay.payload [e]).length + replayEntryOverheadBytes * (1 + marks.length)) :
    Accounts start (log ++ [e]) r' := by
  have hle := h.evicted_le
  have hnew : ∀ k ∈ marks, k.eventSeq = log.length := fun k hk =>
    mem_singleton.mp (hmarks.subset (mem_map_of_mem hk))
  exact
    { events := by rw [hevents, hevicted, drop_append_of_le_length hle, ← h.events]
      evicted_le := by
        rw [hevicted, length_append]
        exact hle.trans (Nat.le_add_right _ _)
      nextSeq := by rw [hnext, h.nextSeq, length_append, length_singleton]
      payload := by rw [hpayload, h.payload, hevents, payload_append, length_append]
      bytes := by
        have hold := h.bytes
        rw [hbytes, hpayload, hevents, hkeyframes, length_append, length_append, length_singleton]
        unfold replayEntryOverheadBytes at *
        omega
      sorted := by
        rw [hkeyframes, map_append, pairwise_append]
        refine ⟨h.sorted, (pairwise_singleton _ _).sublist hmarks, ?_⟩
        intro a ha b hb
        obtain ⟨k, hk, rfl⟩ := mem_map.mp ha
        rw [mem_singleton.mp (hmarks.subset hb)]
        exact h.keyframes_lt k hk
      keyframes_lt := by
        intro k hk
        rw [length_append, length_singleton, Nat.lt_succ_iff]
        rw [hkeyframes] at hk
        rcases mem_append.mp hk with hk | hk
        · exact (h.keyframes_lt k hk).le
        · exact (hnew k hk).le
      geometry := by
        rw [hbase, hevicted, take_append_of_le_length hle]
        exact h.geometry }

end Evict

end Thegn.Replay
