import Thegn.Replay.Suffix

set_option autoImplicit false

/-! # Runs of the replay ring and its cursors

The program subtracts with `satSub`. Where the program with `checkedSub` has a result this is the
same (`run_agree`), so no subtraction of a run clips. `ring_newest` is the ring after a run; a
cursor that is advanced while the pane goes on is `follow_spec`.
-/

namespace Thegn.Replay

open List

/-! ## The two subtractions -/

/-- The second computation has the result of the first. -/
def Agree {α : Type} (x y : Option α) : Prop := ∀ v, x = some v → y = some v

section Agree

variable {α β : Type}

theorem Agree.refl (x : Option α) : Agree x x := fun _ h => h

theorem Agree.bind {x y : Option α} {f g : α → Option β} (hxy : Agree x y)
    (hfg : ∀ a, Agree (f a) (g a)) : Agree (x >>= f) (y >>= g) := by
  intro v hv
  obtain ⟨a, ha, hfa⟩ := Option.bind_eq_some_iff.mp hv
  exact Option.bind_eq_some_iff.mpr ⟨a, hxy a ha, hfg a v hfa⟩

theorem Agree.ite {c : Prop} [Decidable c] {x x' y y' : Option α} (h : Agree x x')
    (h' : Agree y y') : Agree (if c then x else y) (if c then x' else y') := by
  split_ifs
  · exact h
  · exact h'

theorem sub_agree (a b : Nat) : Agree (checkedSub a b) (satSub a b) := by
  intro v hv
  unfold checkedSub at hv
  split_ifs at hv
  exact hv

theorem popFront_agree (r : Recording) (ev : Event) (rest : List Event) :
    Agree (r.popFront checkedSub ev rest) (r.popFront satSub ev rest) := by
  obtain ⟨seq, atMs, kind⟩ := ev
  cases kind with
  | bytes b =>
    exact .bind (sub_agree _ _) fun _ => .bind (sub_agree _ _) fun _ =>
      .bind (sub_agree _ _) fun _ => .refl _
  | resize rows cols => exact .bind (sub_agree _ _) fun _ => .refl _

theorem evictLoop_agree (nowMs : Nat) (evs : List Event) (r : Recording) (evictedAny : Bool) :
    Agree (evictLoop checkedSub nowMs evs r evictedAny)
      (evictLoop satSub nowMs evs r evictedAny) := by
  induction evs generalizing r evictedAny with
  | nil => exact .refl _
  | cons ev rest ih =>
    refine .bind (sub_agree _ _) fun _ => .bind (sub_agree _ _) fun _ => .ite ?_ (.refl _)
    exact .bind (popFront_agree r ev rest) fun r' => ih r' true

theorem evict_agree (r : Recording) (nowMs : Nat) :
    Agree (r.evict checkedSub nowMs) (r.evict satSub nowMs) := by
  refine .bind (evictLoop_agree nowMs r.events r false) fun p => .bind ?_ fun _ => .refl _
  exact .ite (.bind (sub_agree _ _) fun _ => .refl _) (.refl _)

theorem step_agree (r : Recording) (op : Op) : Agree (r.step checkedSub op) (r.step satSub op) := by
  cases op with
  | push b now =>
    refine .ite (.refl _) (.bind (sub_agree _ _) fun _ => ?_)
    exact .ite (.refl _) (evict_agree _ _)
  | resize rows cols now => exact evict_agree _ _

theorem run_agree (r : Recording) (ops : List Op) :
    Agree (r.run checkedSub ops) (r.run satSub ops) := by
  induction ops generalizing r with
  | nil => exact .refl _
  | cons op ops ih => exact .bind (step_agree r op) fun r' => ih r'

end Agree

/-! ## Runs -/

section Run

variable {start : Nat × Nat} {r0 : Recording} {done : List Op} {log : List Event} {r : Recording}

theorem Ring.run {ops : List Op} (h : Ring start r0 done log r)
    (htimes : (done ++ ops).Pairwise fun op op' => op.now ≤ op'.now) :
    ∃ r', r.run checkedSub ops = some r' ∧
    Ring start r0 (done ++ ops) (log ++ r.history ops) r' := by
  induction ops generalizing done log r with
  | nil =>
    refine ⟨r, rfl, ?_⟩
    rw [Recording.history, append_nil, append_nil]
    exact h
  | cons op ops ih =>
    have hops : ∀ op' ∈ done, op'.now ≤ op.now := fun op' hop' =>
      (pairwise_append.mp htimes).2.2 op' hop' op (.head _)
    obtain ⟨r1, hstep, h1⟩ := h.step hops
    rw [append_cons] at htimes
    obtain ⟨r', hrun, h'⟩ := ih h1 htimes
    refine ⟨r', ?_, ?_⟩
    · rw [Recording.run, hstep]
      exact hrun
    · rw [Recording.history, step_agree _ _ _ hstep, ← append_assoc, append_cons]
      exact h'

/-- **The ring after a run**, over the events that were ever appended. -/
structure Newest (start : Nat × Nat) (ops : List Op) (log : List Event) (r : Recording) : Prop where
  /-- every resize has its event, and every chunk at most one -/
  resizes : resizes log = resized ops
  kept : (Replay.payload log).Sublist (pushed ops)
  retained : r.events = log.drop r.evicted
  payload : r.payloadBytesUsed = (Replay.payload r.events).length
  bytes : r.bytesUsed =
    r.payloadBytesUsed + replayEntryOverheadBytes * (r.events.length + r.keyframes.length)
  within : r.bytesUsed ≤ r.budget.maxBytes
  snapshot : r.searchSnapshot.incomplete = false
  evicted_le : r.evicted ≤ r.nextSeq
  seqs : r.events.map Event.seq = List.range' r.evicted (r.nextSeq - r.evicted)
  keyframes : ∀ k ∈ r.keyframes, ∃ e ∈ r.events, e.seq = k.eventSeq
  increasing : (r.keyframes.map Keyframe.eventSeq).Pairwise (· < ·)
  suffix : Replay.payload r.events <:+ pushed ops
  geometry : (r.baseRows, r.baseCols) = Replay.geometry start (log.take r.evicted)
  truncated : r.historyTruncated = true ↔
    Replay.payload r.events ≠ pushed ops ∨ Replay.resizes r.events ≠ resized ops

theorem seqs_of_log (h : Sound start r0 done log r) :
    r.events.map Event.seq = List.range' r.evicted (r.nextSeq - r.evicted) := by
  rw [h.events, map_drop, h.logged.seqs, h.nextSeq, range_eq_range', drop_range', Nat.zero_add,
    Nat.mul_one]

theorem weight_pos_of_mem {evs : List Event} (hheavy : ∀ e ∈ evs, 0 < weight [e]) (hne : evs ≠ []) :
    0 < weight evs := by
  obtain ⟨e, rest, rfl⟩ := exists_cons_of_ne_nil hne
  rw [← singleton_append, weight_append]
  exact Nat.add_pos_left (hheavy e (.head _)) _

/-- The ring is marked truncated if it does not hold the whole history. -/
theorem Ring.truncated_iff (h : Ring start r0 done log r) :
    r.historyTruncated = true ↔ payload r.events ≠ pushed done ∨
    resizes r.events ≠ resized done := by
  rw [h.truncated]
  have hkept := h.logged.kept.length_le
  have hresizes := congrArg List.length h.logged.resizes
  have hsplit : weight log = weight (log.take r.evicted) + weight r.events := by
    rw [h.events, ← weight_append, take_append_drop]
  constructor
  · rintro hlost
    by_contra hall
    rw [not_or, not_not, not_not] at hall
    have hwhole : weight r.events = (pushed done).length + (resized done).length := by
      rw [weight, hall.1, hall.2]
    rw [weight, hresizes] at hsplit
    rcases hlost with hevicted | hshort
    · have hne : log.take r.evicted ≠ [] := by
        rw [← length_pos_iff, length_take]
        exact Nat.lt_min.mpr ⟨hevicted, hevicted.trans_le h.evicted_le⟩
      have hpos := weight_pos_of_mem (fun e he => h.logged.heavy e (mem_of_mem_take he)) hne
      omega
    · omega
  · intro hpart
    by_contra hall
    rw [not_or, Nat.not_lt, Nat.not_lt, Nat.le_zero] at hall
    have hevents : r.events = log := by rw [h.events, hall.1, drop_zero]
    rw [hevents] at hpart
    rcases hpart with hpart | hpart
    · exact hpart (h.logged.kept.eq_of_length_le hall.2)
    · exact hpart h.logged.resizes

theorem Ring.newest (h : Ring start r0 done log r) : Newest start done log r where
  resizes := h.logged.resizes
  kept := h.logged.kept
  retained := h.events
  payload := h.payload
  bytes := h.bytes
  within := h.within
  snapshot := by
    have hbytes := h.bytes
    have hwithin := h.within
    rw [Recording.searchSnapshot, decide_eq_false_iff_not, Nat.not_lt]
    unfold replayEntryOverheadBytes at *
    omega
  evicted_le := h.nextSeq ▸ h.evicted_le
  seqs := seqs_of_log h.toSound
  keyframes := by
    intro k hk
    have hmem : k.eventSeq ∈ r.events.map Event.seq := by
      rw [seqs_of_log h.toSound, mem_range'_1, h.nextSeq]
      have hge := h.keyframes_ge k hk
      have hlt := h.keyframes_lt k hk
      omega
    obtain ⟨e, he, heq⟩ := mem_map.mp hmem
    exact ⟨e, he, heq⟩
  increasing := h.sorted
  suffix := h.suffix
  geometry := h.geometry
  truncated := h.truncated_iff

end Run

/-! ## Cursors -/

inductive Move
  | record (op : Op)
  | feed (toInclusive : Nat)

/-- What the pane does in the moves. -/
def recorded (moves : List Move) : List Op :=
  moves.filterMap fun m => match m with
    | .record op => some op
    | .feed _ => none

/-- A ring that is replayed while the pane goes on. -/
structure View (ε : Type) where
  ring : Recording
  emu : ε
  cursor : Nat

section View

variable {ε : Type} (em : Emulator ε)

/-- A move. A cursor older than the ring is not fed: the caller rebuilds. -/
def View.move (v : View ε) : Move → Option (View ε)
  | .record op => do
      let ring ← v.ring.step satSub op
      pure { v with ring := ring }
  | .feed toInclusive =>
    if v.ring.firstSequence ≤ v.cursor then
      let p := v.ring.feedFromSequence em v.emu v.cursor toInclusive
      some { v with emu := p.1, cursor := p.2 }
    else none

def View.follow : View ε → List Move → Option (View ε)
  | v, [] => some v
  | v, m :: moves => do
      let v ← v.move em m
      v.follow moves

/-- The emulator after the events. -/
def Emulator.applyAll (emu : ε) (evs : List Event) : ε :=
  evs.foldl (fun emu e => em.apply emu e.kind) emu

/-- The events from one sequence number up to another. -/
def between (log : List Event) (i j : Nat) : List Event := (log.drop i).take (j - i)

theorem between_trans (log : List Event) {i j k : Nat} (hij : i ≤ j) (hjk : j ≤ k) :
    between log i k = between log i j ++ between log j k := by
  have hk : k - i = (j - i) + (k - j) := by omega
  rw [between, hk, take_add, drop_drop, Nat.add_sub_of_le hij]
  rfl

theorem between_append {log more : List Event} {i j : Nat} (hij : i ≤ j) (hj : j ≤ log.length) :
    between (log ++ more) i j = between log i j := by
  rw [between, drop_append_of_le_length (hij.trans hj), take_append_of_le_length]
  · rfl
  · rw [length_drop]
    omega

/-- **The loop of `feed_from_sequence`** over events with the sequence numbers from `first` on: it
applies the events from the cursor to the first that is too late. -/
theorem feedLoop_spec {toInclusive : Nat} {evs : List Event} :
    ∀ {first cursor : Nat} {emu : ε}, evs.map Event.seq = List.range' first evs.length →
      first ≤ cursor → cursor ≤ first + evs.length →
      ∃ stop, feedLoop em toInclusive evs emu cursor =
          (em.applyAll emu ((evs.drop (cursor - first)).take (stop - cursor)), stop) ∧
        cursor ≤ stop ∧ stop ≤ first + evs.length ∧
        ∀ e ∈ (evs.drop (stop - first)).head?, toInclusive < e.atMs := by
  induction evs with
  | nil =>
    intro first cursor emu _ hfirst hcursor
    refine ⟨cursor, ?_, le_rfl, hcursor, ?_⟩
    · rw [drop_nil, take_nil]
      rfl
    · intro e he
      rw [drop_nil] at he
      exact absurd he (Option.not_mem_none e)
  | cons ev rest ih =>
    intro first cursor emu hseqs hfirst hcursor
    rw [map_cons, length_cons, List.range'_succ, List.cons.injEq] at hseqs
    obtain ⟨hseq, hrest⟩ := hseqs
    rw [length_cons] at hcursor
    rw [feedLoop, hseq]
    by_cases hskip : first < cursor
    · -- the event has been applied
      obtain ⟨stop, hloop, hle, hstop, hlate⟩ := @ih (first + 1) cursor emu hrest hskip (by omega)
      rw [if_pos hskip]
      refine ⟨stop, ?_, hle, by rw [length_cons]; omega, ?_⟩
      · rw [hloop, show cursor - first = (cursor - (first + 1)) + 1 from by omega, drop_succ_cons]
      · rw [show stop - first = (stop - (first + 1)) + 1 from by omega, drop_succ_cons]
        exact hlate
    · have hhere : cursor = first := by omega
      subst hhere
      rw [if_neg hskip, Nat.sub_self, drop_zero]
      split_ifs with hlate
      · refine ⟨cursor, ?_, le_rfl, Nat.le_add_right _ _, ?_⟩
        · rw [Nat.sub_self, take_zero]
          rfl
        · intro e he
          rw [Nat.sub_self, drop_zero, List.head?_cons, Option.mem_def, Option.some.injEq] at he
          exact he ▸ hlate
      · obtain ⟨stop, hloop, hle, hstop, hnext⟩ :=
          @ih (cursor + 1) (cursor + 1) (em.apply emu ev.kind) hrest le_rfl (by omega)
        refine ⟨stop, ?_, by omega, by rw [length_cons]; omega, ?_⟩
        · rw [hloop, Nat.sub_self, drop_zero, show stop - cursor = (stop - (cursor + 1)) + 1
            from by omega, take_succ_cons]
          rfl
        · rw [show stop - cursor = (stop - (cursor + 1)) + 1 from by omega, drop_succ_cons]
          exact hnext

/-- **What a cursor has seen**: every event from where it started up to it, once and in order. -/
structure Seen (first : Nat) (emu0 : ε) (log : List Event) (v : View ε) : Prop where
  first_le : first ≤ v.cursor
  cursor_le : v.cursor ≤ log.length
  emu : v.emu = em.applyAll emu0 (between log first v.cursor)

variable {start : Nat × Nat} {r0 : Recording} {done : List Op} {log : List Event} {first : Nat}
  {emu0 : ε}
  {v v' : View ε}

theorem Seen.record (h : Seen em first emu0 log v) (more : List Event) (ring : Recording) :
    Seen em first emu0 (log ++ more) { v with ring := ring } where
  first_le := h.first_le
  cursor_le := by
    rw [length_append]
    exact h.cursor_le.trans (Nat.le_add_right _ _)
  emu := by
    rw [between_append h.first_le h.cursor_le]
    exact h.emu

/-- Every event of the ring up to a time has been seen. -/
def CaughtUp (toInclusive : Nat) (v : View ε) : Prop :=
  ∀ e ∈ v.ring.events, e.atMs ≤ toInclusive → e.seq < v.cursor

theorem Seen.feed (hring : Ring start r0 done log v.ring) (h : Seen em first emu0 log v)
    {toInclusive : Nat} (hmove : v.move em (.feed toInclusive) = some v') :
    Seen em first emu0 log v' ∧ v'.ring = v.ring ∧ CaughtUp toInclusive v' := by
  rw [View.move] at hmove
  split_ifs at hmove with hkept
  have hkept : v.ring.evicted ≤ v.cursor := hkept
  have hlen : v.ring.events.length = log.length - v.ring.evicted := by
    rw [hring.events, length_drop]
  have hbound := hring.evicted_le
  have hcursor := h.cursor_le
  have hseqs := seqs_of_log hring.toSound
  rw [hring.nextSeq, ← hlen] at hseqs
  obtain ⟨stop, hloop, hle, hstop, hlate⟩ :=
    @feedLoop_spec _ em toInclusive v.ring.events v.ring.evicted v.cursor v.emu hseqs hkept
      (by omega)
  have hfeed : v.ring.feedFromSequence em v.emu v.cursor toInclusive =
      (em.applyAll v.emu (between log v.cursor stop), stop) := by
    rw [Recording.feedFromSequence, max_eq_left hkept, hloop, hring.events, drop_drop,
      Nat.add_sub_of_le hkept]
    rfl
  rw [hfeed, Option.some.injEq] at hmove
  subst hmove
  refine ⟨⟨h.first_le.trans hle, by show stop ≤ _; omega, ?_⟩, rfl, ?_⟩
  · show em.applyAll v.emu (between log v.cursor stop) = em.applyAll emu0 (between log first stop)
    rw [between_trans log h.first_le hle, h.emu]
    exact foldl_append.symm
  · -- the events from the stop on are all later than the first of them
    intro e he hat
    by_contra hge
    have he : e ∈ v.ring.events := he
    obtain ⟨i, hi, rfl⟩ := getElem_of_mem he
    have hseq : (v.ring.events[i]).seq = v.ring.evicted + i := by
      have hget := congrArg (fun l : List Nat => l[i]?) hseqs
      rw [List.getElem?_map, List.getElem?_eq_getElem hi, List.getElem?_range' hi] at hget
      simpa using hget
    rw [hseq, Nat.not_lt] at hge
    have hge : stop ≤ v.ring.evicted + i := hge
    have hpos : stop - v.ring.evicted < v.ring.events.length := by omega
    have hfirst := hlate (v.ring.events[stop - v.ring.evicted]) (by
      rw [List.head?_drop, List.getElem?_eq_getElem hpos]
      rfl)
    have hsorted : v.ring.events.Pairwise fun e e' => e.atMs ≤ e'.atMs := by
      rw [hring.events]
      exact hring.logged.ordered.drop
    rcases Nat.eq_or_lt_of_le (show stop - v.ring.evicted ≤ i by omega) with heq | hlt
    · have hsame : v.ring.events[stop - v.ring.evicted] = v.ring.events[i] := by
        congr 1
      rw [hsame] at hfirst
      exact absurd hat (Nat.not_le_of_lt hfirst)
    · exact absurd (((pairwise_iff_getElem.mp hsorted) _ _ hpos hi hlt).trans hat)
        (Nat.not_le_of_lt hfirst)

theorem recorded_cons_record (op : Op) (moves : List Move) :
    recorded (.record op :: moves) = op :: recorded moves := rfl

theorem recorded_cons_feed (toInclusive : Nat) (moves : List Move) :
    recorded (.feed toInclusive :: moves) = recorded moves := rfl

/-- **A cursor that is advanced while the pane goes on.** -/
theorem follow_spec {moves : List Move} (hring : Ring start r0 done log v.ring)
    (h : Seen em first emu0 log v)
    (htimes : (done ++ recorded moves).Pairwise fun op op' => op.now ≤ op'.now)
    (hfollow : v.follow em moves = some v') :
    v.ring.run satSub (recorded moves) = some v'.ring ∧
      Seen em first emu0 (log ++ v.ring.history (recorded moves)) v' ∧
      ∀ before toInclusive, moves = before ++ [Move.feed toInclusive] →
      CaughtUp toInclusive v' := by
  induction moves generalizing done log v with
  | nil =>
    rw [View.follow, Option.some.injEq] at hfollow
    subst hfollow
    refine ⟨rfl, ?_, ?_⟩
    · show Seen em first emu0 (log ++ []) v
      rw [append_nil]
      exact h
    · intro before toInclusive heq
      exact absurd heq (append_ne_nil_of_right_ne_nil _ (cons_ne_nil _ _)).symm
  | cons m moves ih =>
    obtain ⟨v1, hmove, hrest⟩ := Option.bind_eq_some_iff.mp hfollow
    cases m with
    | record op =>
      rw [recorded_cons_record] at htimes ⊢
      have hops : ∀ op' ∈ done, op'.now ≤ op.now := fun op' hop' =>
        (pairwise_append.mp htimes).2.2 op' hop' op (.head _)
      obtain ⟨r1, hstep, h1⟩ := hring.step hops
      have hstep := step_agree _ _ _ hstep
      rw [View.move, hstep] at hmove
      obtain rfl : { v with ring := r1 } = v1 := Option.some.inj hmove
      rw [append_cons] at htimes
      obtain ⟨hrun, hseen, hcaught⟩ := ih h1 (h.record em _ r1) htimes hrest
      refine ⟨?_, ?_, ?_⟩
      · rw [Recording.run, hstep]
        exact hrun
      · rw [Recording.history, hstep, ← append_assoc]
        exact hseen
      · intro before toInclusive heq
        cases before with
        | nil => cases heq
        | cons m' before =>
          rw [cons_append, List.cons.injEq] at heq
          exact hcaught before toInclusive heq.2
    | feed toInclusive =>
      rw [recorded_cons_feed] at htimes ⊢
      obtain ⟨hseen1, hring1, hcaught1⟩ := h.feed em hring hmove
      rw [← hring1] at hring ⊢
      obtain ⟨hrun, hseen, hcaught⟩ := ih hring hseen1 htimes hrest
      refine ⟨hrun, hseen, ?_⟩
      intro before toInclusive' heq
      cases before with
      | nil =>
        rw [nil_append, List.cons.injEq, Move.feed.injEq] at heq
        obtain ⟨rfl, rfl⟩ := heq
        rw [View.follow, Option.some.injEq] at hrest
        exact hrest ▸ hcaught1
      | cons m' before =>
        rw [cons_append, List.cons.injEq] at heq
        exact hcaught before toInclusive' heq.2

end View

/-! ## The ring and its cursors -/

theorem history_append {r r' : Recording} {ops ops' : List Op} (h : r.run satSub ops = some r') :
    r.history (ops ++ ops') = r.history ops ++ r'.history ops' := by
  induction ops generalizing r with
  | nil =>
    rw [Recording.run, Option.some.injEq] at h
    rw [h]
    rfl
  | cons op ops ih =>
    obtain ⟨r1, hstep, hrun⟩ := Option.bind_eq_some_iff.mp h
    rw [cons_append, Recording.history, Recording.history, hstep]
    dsimp only
    rw [ih hrun, append_assoc]

/-- **The ring is the exact newest part of the history**, no subtraction clips, and a cursor that is
fed while the pane goes on sees every event once and in order. -/
theorem ring_newest (cfg : ReplayConfig) (rows cols epoch : Nat) (ops : List Op)
    (htimes : ops.Pairwise fun op op' => op.now ≤ op'.now) :
    ∃ r, (Recording.fromConfig cfg rows cols epoch).run satSub ops = some r ∧
      (Recording.fromConfig cfg rows cols epoch).run checkedSub ops = some r ∧
      r.budget.maxBytes = cfg.maxBytesPerPane ∧ Newest (max rows 1, max cols 1) ops
        ((Recording.fromConfig cfg rows cols epoch).history ops) r ∧
      ∀ (ε : Type) (em : Emulator ε) (emu0 : ε) (first : Nat) (moves : List Move) (v : View ε),
        r.firstSequence ≤ first → first ≤ r.nextSeq →
        (ops ++ recorded moves).Pairwise (fun op op' => op.now ≤ op'.now) →
        View.follow em ⟨r, emu0, first⟩ moves = some v →
        r.run satSub (recorded moves) = some v.ring ∧
          Seen em first emu0 ((Recording.fromConfig cfg rows cols epoch).history
            (ops ++ recorded moves)) v ∧
          ∀ before toInclusive, moves = before ++ [Move.feed toInclusive] →
          CaughtUp toInclusive v := by
  obtain ⟨r, hrun, hring⟩ := (Ring.init cfg rows cols epoch).run htimes
  rw [nil_append, nil_append] at hring
  have hrun' := run_agree _ _ _ hrun
  refine ⟨r, hrun', hrun, congrArg Budget.maxBytes hring.budget, hring.newest, ?_⟩
  intro ε em emu0 first moves v hfirst hnext hmoves hfollow
  have hseen : Seen em first emu0 ((Recording.fromConfig cfg rows cols epoch).history ops) ⟨r, emu0,
    first⟩ :=
    { first_le := le_rfl
      cursor_le := hring.nextSeq ▸ hnext
      emu := by
        rw [between, Nat.sub_self, take_zero]
        rfl }
  rw [history_append hrun']
  exact follow_spec em hring hseen hmoves hfollow

/-- A ring for two markers and some output, that is cut, resized and pushed out of. -/
def smallRing : ReplayConfig where
  maxBytesPerPane := 200
  maxDurationSecs := 0
  keyframeIntervalMs := 0
  keyframeIntervalBytes := 0

def smallOps : List Op :=
  [.push [104, 105] 0, .resize 0 80 1000000, .push (List.replicate 100 120) 2000000]

/-- An emulator that counts bytes. -/
def counter : Emulator Nat := ⟨fun _ _ => 0, fun bytes n => bytes.length + n, fun _ _ n => n⟩

/-- The cursor is fed while the pane goes on. -/
def smallMoves : List Move := [.feed 2, .record (.push [33] 3000000), .feed 3]

theorem smallRing_newest : ∃ r v, (Recording.fromConfig smallRing 24 80 0).run satSub
    smallOps = some r ∧
    Newest (24, 80) smallOps ((Recording.fromConfig smallRing 24 80 0).history smallOps) r ∧
    r.historyTruncated = true ∧ (r.baseRows, r.baseCols) = (1, 80) ∧
    View.follow counter ⟨r, 0, r.firstSequence⟩ smallMoves = some v ∧ v.emu = 73 ∧
    Seen counter r.firstSequence 0 ((Recording.fromConfig smallRing 24 80 0).history
      (smallOps ++ recorded smallMoves)) v ∧ CaughtUp 3 v := by
  have hrun : ∃ r v, (Recording.fromConfig smallRing 24 80 0).run satSub smallOps = some r ∧
      r.historyTruncated = true ∧ (r.baseRows, r.baseCols) = (1, 80) ∧
      View.follow counter ⟨r, 0, r.firstSequence⟩ smallMoves = some v ∧ v.emu = 73 ∧
      r.firstSequence ≤ r.nextSeq := ⟨_, _, rfl, rfl, rfl, rfl, rfl, by decide⟩
  obtain ⟨r, hr, -, -, hnewest, hcursor⟩ := ring_newest smallRing 24 80 0 smallOps (by decide)
  obtain ⟨r', v, hr', htruncated, hbase, hfollow, hemu, hle⟩ := hrun
  obtain rfl : r = r' := Option.some.inj (hr.symm.trans hr')
  obtain ⟨-, hseen, hcaught⟩ :=
    hcursor Nat counter 0 _ smallMoves v le_rfl hle (by decide) hfollow
  exact ⟨r, v, hr, hnewest, htruncated, hbase, hfollow, hemu, hseen,
    hcaught (smallMoves.take 2) 3 rfl⟩

end Thegn.Replay
