import Thegn.Replay.Ring

set_option autoImplicit false

/-! # The replay ring holds the newest part of the history

`Ring` is what holds of the ring after any sequence of pushes and resizes: besides the accounts, the
retained output is a suffix of all that was pushed, and the ring is marked truncated as soon as
anything is gone. A chunk is cut only to the space that is left beside its own markers, so no older
event survives a cut (`Ring.alone_of_cut`).
-/

namespace Thegn.Replay

open List

/-! ## Runs -/

inductive Op
  | push (b : List UInt8) (now : Nat)
  | resize (rows cols now : Nat)

def Op.now : Op → Nat
  | .push _ now => now
  | .resize _ _ now => now

/-- The output of the pane. -/
def pushed (ops : List Op) : List UInt8 :=
  ops.flatMap fun op => match op with
    | .push b _ => b
    | .resize _ _ _ => []

/-- The resizes of the pane. -/
def resized (ops : List Op) : List (Nat × Nat) :=
  ops.filterMap fun op => match op with
    | .push _ _ => none
    | .resize rows cols _ => some (rows, cols)

section Run

variable (sub : Nat → Nat → Option Nat)

def Recording.step (r : Recording) : Op → Option Recording
  | .push b now => r.pushBytes sub b now
  | .resize rows cols now => r.recordResize sub rows cols now

def Recording.run : Recording → List Op → Option Recording
  | r, [] => some r
  | r, op :: ops => do
      let r ← r.step sub op
      r.run ops

end Run

/-! ## The log of a run

The events are a record of what the pane did: each resize has its event, and each chunk the event of
a suffix of it, or none when there is no room for one byte. -/

/-- What is kept of a chunk. -/
def Recording.fit (r : Recording) (b : List UInt8) (now : Nat) : List UInt8 :=
  b.drop (b.length - r.maxPayload (r.markerDue (r.elapsedMs now - r.lastKeyframeMs) b.length))

/-- The events that an operation appends. -/
def Recording.appended (r : Recording) : Op → List Event
  | .push b now =>
    if r.fit b now = [] then []
    else [{ seq := r.nextSeq, atMs := r.elapsedMs now, kind := .bytes (r.fit b now) }]
  | .resize rows cols now =>
    [{ seq := r.nextSeq, atMs := r.elapsedMs now, kind := .resize rows cols }]

/-- Every event that was appended in a run. -/
def Recording.history : Recording → List Op → List Event
  | _, [] => []
  | r, op :: ops =>
    r.appended op ++
      match r.step satSub op with
      | some r' => r'.history ops
      | none => []

/-! ## What holds of the ring -/

/-- How the log relates to what the pane did. -/
structure Logged (elapsedMs : Nat → Nat) (ops : List Op) (log : List Event) : Prop where
  seqs : log.map Event.seq = List.range log.length
  stamped : ∀ e ∈ log, ∃ op ∈ ops, e.atMs = elapsedMs op.now
  ordered : log.Pairwise fun e e' => e.atMs ≤ e'.atMs
  resizes : resizes log = resized ops
  kept : (payload log).Sublist (pushed ops)
  heavy : ∀ e ∈ log, 0 < weight [e]

section Logged

variable {elapsedMs : Nat → Nat} {ops : List Op} {log : List Event}

theorem pushed_snoc (ops : List Op) (op : Op) : pushed (ops ++ [op]) = pushed ops ++ pushed [op] :=
  flatMap_append

theorem resized_snoc (ops : List Op) (op : Op) :
    resized (ops ++ [op]) = resized ops ++ resized [op] :=
  filterMap_append

theorem Logged.snoc (h : Logged elapsedMs ops log) {op : Op} {e : Event} (hseq : e.seq = log.length)
    (hat : e.atMs = elapsedMs op.now) (hlate : ∀ e' ∈ log, e'.atMs ≤ e.atMs)
    (hresizes : Replay.resizes [e] = resized [op])
    (hkept : (payload [e]).Sublist (pushed [op])) (hheavy : 0 < weight [e]) :
    Logged elapsedMs (ops ++ [op]) (log ++ [e]) where
  seqs := by
    rw [map_append, h.seqs, length_append, length_singleton, range_succ, ← hseq]
    rfl
  stamped := by
    intro e' he'
    rcases mem_append.mp he' with he' | he'
    · obtain ⟨op', hop', heq⟩ := h.stamped e' he'
      exact ⟨op', mem_append_left _ hop', heq⟩
    · rw [mem_singleton.mp he']
      exact ⟨op, mem_append_right _ (.head _), hat⟩
  ordered := by
    refine pairwise_append.mpr ⟨h.ordered, pairwise_singleton _ _, fun e' he' e'' he'' => ?_⟩
    rw [mem_singleton.mp he'']
    exact hlate e' he'
  resizes := by rw [resizes_append, resized_snoc, h.resizes, hresizes]
  kept := by
    rw [payload_append, pushed_snoc]
    exact h.kept.append hkept
  heavy := by
    intro e' he'
    rcases mem_append.mp he' with he' | he'
    · exact h.heavy e' he'
    · rw [mem_singleton.mp he']
      exact hheavy

/-- An operation of which nothing is kept. -/
theorem Logged.skip (h : Logged elapsedMs ops log) {op : Op} (hresizes : resized [op] = []) :
    Logged elapsedMs (ops ++ [op]) log where
  seqs := h.seqs
  stamped := fun e he => by
    obtain ⟨op', hop', heq⟩ := h.stamped e he
    exact ⟨op', mem_append_left _ hop', heq⟩
  ordered := h.ordered
  resizes := by rw [resized_snoc, hresizes, append_nil, h.resizes]
  kept := by
    rw [pushed_snoc]
    exact h.kept.trans (sublist_append_left _ _)
  heavy := h.heavy

end Logged

/-- The accounts, the log, and when the ring is marked truncated. -/
structure Sound (start : Nat × Nat) (r0 : Recording) (ops : List Op) (log : List Event)
    (r : Recording) : Prop
    extends Accounts start log r where
  epoch : r.epoch = r0.epoch
  budget : r.budget = r0.budget
  logged : Logged r.elapsedMs ops log
  keyframed : r.lastKeyframeMs = 0 ∨ ∃ op ∈ ops, r.lastKeyframeMs = r.elapsedMs op.now
  small : r.budget.maxBytes ≤ 2 * replayEntryOverheadBytes →
    r.keyframes = [] ∧ Replay.payload log = []
  truncated : r.historyTruncated = true ↔
    0 < r.evicted ∨ (Replay.payload log).length < (pushed ops).length

/-- **The invariant of the ring**: it is sound, within its budget, has the keyframes of retained
events only, and holds a suffix of the output. -/
structure Ring (start : Nat × Nat) (r0 : Recording) (ops : List Op) (log : List Event)
    (r : Recording) : Prop
    extends Sound start r0 ops log r where
  within : r.bytesUsed ≤ r.budget.maxBytes
  keyframes_ge : ∀ k ∈ r.keyframes, r.evicted ≤ k.eventSeq
  suffix : Replay.payload r.events <:+ pushed ops

section Invariant

variable {start : Nat × Nat} {r0 : Recording} {ops : List Op} {log : List Event} {r : Recording}

theorem Ring.init (cfg : ReplayConfig) (rows cols epoch : Nat) :
    Ring (max rows 1, max cols 1) (.fromConfig cfg rows cols epoch) [] []
      (.fromConfig cfg rows cols epoch) where
  events := rfl
  evicted_le := Nat.le_refl 0
  nextSeq := rfl
  payload := rfl
  bytes := rfl
  sorted := .nil
  keyframes_lt := fun _ hk => absurd hk not_mem_nil
  geometry := rfl
  epoch := rfl
  budget := rfl
  logged :=
    { seqs := rfl
      stamped := fun _ he => absurd he not_mem_nil
      ordered := .nil
      resizes := rfl
      kept := .slnil
      heavy := fun _ he => absurd he not_mem_nil }
  keyframed := .inl rfl
  small := fun _ => ⟨rfl, rfl⟩
  truncated := by simp [Recording.fromConfig, pushed]
  within := Nat.zero_le _
  keyframes_ge := fun _ hk => absurd hk not_mem_nil
  suffix := suffix_refl _

theorem Sound.mem_log (h : Sound start r0 ops log r) {e : Event} (he : e ∈ r.events) : e ∈ log := by
  rw [h.events] at he
  exact mem_of_mem_drop he

/-- With times that do not decrease, everything in the ring is from before the next operation. -/
theorem Sound.before (h : Sound start r0 ops log r) {now : Nat} (hops : ∀ op ∈ ops, op.now ≤ now) :
    r.lastKeyframeMs ≤ r.elapsedMs now ∧ ∀ e ∈ log, e.atMs ≤ r.elapsedMs now := by
  have helapsed : ∀ op ∈ ops, r.elapsedMs op.now ≤ r.elapsedMs now := fun op hop =>
    Nat.div_le_div_right (Nat.sub_le_sub_right (hops op hop) _)
  refine ⟨?_, fun e he => ?_⟩
  · rcases h.keyframed with hzero | ⟨op, hop, heq⟩
    · exact hzero ▸ Nat.zero_le _
    · exact heq ▸ helapsed op hop
  · obtain ⟨op, hop, heq⟩ := h.logged.stamped e he
    exact heq ▸ helapsed op hop

/-- The last keyframe stays at an operation of the run. -/
theorem Sound.keyframed_snoc (h : Sound start r0 ops log r) (op : Op) :
    r.lastKeyframeMs = 0 ∨ ∃ op' ∈ ops ++ [op], r.lastKeyframeMs = r.elapsedMs op'.now :=
  h.keyframed.imp id (.imp fun _ hop => ⟨mem_append_left _ hop.1, hop.2⟩)

/-- `evict` keeps soundness and restores the budget. -/
theorem Sound.evict {nowMs : Nat} (h : Sound start r0 ops log r)
    (hnow : ∀ e ∈ r.events, e.atMs ≤ nowMs) :
    ∃ r', r.evict checkedSub nowMs = some r' ∧ Sound start r0 ops log r' ∧
      r'.bytesUsed ≤ r'.budget.maxBytes ∧ r.evicted ≤ r'.evicted ∧ r'.budget = r.budget ∧
      r'.keyframes = r.keyframes.filter (fun k => decide (r'.evicted ≤ k.eventSeq)) := by
  obtain ⟨r', hevict, h', hwithin, hle, hkeyframes, htruncated, hbudget, hepoch, hlast⟩ :=
    evict_spec h.toAccounts hnow
  have helapsed : r'.elapsedMs = r.elapsedMs := by
    funext now
    rw [Recording.elapsedMs, Recording.elapsedMs, hepoch]
  refine ⟨r', hevict, ?_, hwithin, hle, hbudget, hkeyframes⟩
  exact
    { h' with
      epoch := hepoch.trans h.epoch
      budget := hbudget.trans h.budget
      logged := by
        rw [helapsed]
        exact h.logged
      keyframed := by
        rw [hlast, helapsed]
        exact h.keyframed
      small := fun hmax => by
        obtain ⟨hnone, hempty⟩ := h.small (hbudget ▸ hmax)
        rw [hkeyframes, hnone]
        exact ⟨rfl, hempty⟩
      truncated := by
        rw [htruncated, Bool.or_eq_true, h.truncated, decide_eq_true_eq]
        omega }

/-- A kept keyframe is one of a retained event. -/
theorem mem_kept {n : Nat} {ks : List Keyframe} {k : Keyframe}
    (hk : k ∈ ks.filter fun k => decide (n ≤ k.eventSeq)) : n ≤ k.eventSeq := by
  simpa using of_mem_filter hk

/-- The events after an eviction are the last of those before it. -/
theorem Sound.events_suffix {log1 : List Event} {r' : Recording} {ops' : List Op}
    (h : Sound start r0 ops log r) (h' : Sound start r0 ops' (log ++ log1) r')
    (hle : r.evicted ≤ r'.evicted) : r'.events <:+ r.events ++ log1 := by
  rw [h'.events, h.events, ← drop_append_of_le_length h.evicted_le]
  exact drop_suffix_drop_left _ hle

theorem payload_suffix {l m : List Event} (h : l <:+ m) :
    Replay.payload l <:+ Replay.payload m := by
  obtain ⟨gone, rfl⟩ := h
  rw [payload_append]
  exact suffix_append _ _

/-! ## Resizes -/

theorem Sound.appendResize (h : Sound start r0 ops log r) (rows cols : Nat) {now : Nat}
    (hops : ∀ op ∈ ops, op.now ≤ now) :
    Sound start r0 (ops ++ [Op.resize rows cols now]) (log ++ r.appended (.resize rows cols now))
      (r.appendResize rows cols (r.elapsedMs now)) := by
  have hpushed : pushed (ops ++ [Op.resize rows cols now]) = pushed ops := by
    rw [pushed_snoc]
    exact append_nil _
  have hpayload : Replay.payload (log ++ r.appended (.resize rows cols now)) =
    Replay.payload log := by
    rw [payload_append]
    exact append_nil _
  have haccounts : Accounts start (log ++ r.appended (.resize rows cols now))
      (r.appendResize rows cols (r.elapsedMs now)) :=
    h.toAccounts.snoc rfl rfl rfl rfl (append_nil _).symm (nil_sublist _) rfl rfl
  exact
    { haccounts with
      epoch := h.epoch
      budget := h.budget
      logged := h.logged.snoc h.nextSeq rfl (h.before hops).2 rfl (nil_sublist _) Nat.one_pos
      keyframed := h.keyframed_snoc _
      small := by
        rw [hpayload]
        exact h.small
      truncated := by
        rw [hpayload, hpushed]
        exact h.truncated }

theorem Ring.recordResize (h : Ring start r0 ops log r) {rows cols now : Nat}
    (hops : ∀ op ∈ ops, op.now ≤ now) :
    ∃ r', r.recordResize checkedSub rows cols now = some r' ∧
      Ring start r0 (ops ++ [Op.resize rows cols now])
        (log ++ r.appended (.resize rows cols now)) r' := by
  have hold := (h.before hops).2
  have hnow : ∀ e ∈ (r.appendResize rows cols (r.elapsedMs now)).events,
    e.atMs ≤ r.elapsedMs now := by
    intro e he
    rcases mem_append.mp he with he | he
    · exact hold e (h.mem_log he)
    · rw [mem_singleton.mp he]
  obtain ⟨r', hevict, h', hwithin, hle, -, hkeyframes⟩ :=
    (h.toSound.appendResize rows cols hops).evict hnow
  refine ⟨r', hevict, { h' with within := hwithin, keyframes_ge := ?_, suffix := ?_ }⟩
  · intro k hk
    exact mem_kept (hkeyframes ▸ hk)
  · -- the events that are left are the last of the old ones and the resize
    have hsuffix := payload_suffix (h.toSound.events_suffix h' hle)
    have hnone : Replay.payload (r.appended (.resize rows cols now)) = [] := rfl
    rw [payload_append, hnone, append_nil] at hsuffix
    rw [pushed_snoc, show pushed [Op.resize rows cols now] = [] from rfl, append_nil]
    exact hsuffix.trans h.suffix

/-! ## Output -/

/-- Whether a keyframe is due with a chunk. -/
def Recording.due (r : Recording) (b : List UInt8) (now : Nat) : Bool :=
  r.markerDue (r.elapsedMs now - r.lastKeyframeMs) b.length

/-- Whether a chunk is cut. -/
def Recording.cuts (r : Recording) (b : List UInt8) (now : Nat) : Bool :=
  decide (min b.length (r.maxPayload (r.due b now)) < b.length)

/-- The ring with the chunk appended, before the eviction. -/
def Recording.admitBytes (r : Recording) (b : List UInt8) (now : Nat) : Recording :=
  ((r.noteDropped (r.cuts b now)).appendBytes (r.fit b now) (r.elapsedMs now)).maybeKeyframe
    (r.elapsedMs now) (r.noteDropped (r.cuts b now)).nextSeq (r.due b now)

theorem pushBytes_eq {b : List UInt8} {now : Nat} (hb : b ≠ [])
    (hlast : r.lastKeyframeMs ≤ r.elapsedMs now) :
    r.pushBytes checkedSub b now =
      if r.fit b now = [] then some (r.noteDropped (r.cuts b now))
      else (r.admitBytes b now).evict checkedSub (r.elapsedMs now) := by
  rw [Recording.pushBytes, if_neg hb]
  dsimp only
  rw [checkedSub_of_le hlast]
  rfl

/-- The marker of a chunk. -/
def Recording.marks (r : Recording) (b : List UInt8) (now : Nat) : List Keyframe :=
  if r.due b now then [{ atMs := r.elapsedMs now, eventSeq := r.nextSeq }] else []

/-- What appending a chunk does to the ring. -/
theorem admitBytes_fields (r : Recording) (b : List UInt8) (now : Nat) :
    (r.admitBytes b now).events = r.events ++ [⟨r.nextSeq, r.elapsedMs now, .bytes (r.fit b now)⟩] ∧
      (r.admitBytes b now).evicted = r.evicted ∧
      (r.admitBytes b now).nextSeq = r.nextSeq + 1 ∧
      ((r.admitBytes b now).baseRows, (r.admitBytes b now).baseCols) = (r.baseRows, r.baseCols) ∧
      (r.admitBytes b now).keyframes = r.keyframes ++ r.marks b now ∧
      (r.admitBytes b now).payloadBytesUsed = r.payloadBytesUsed + (r.fit b now).length ∧
      (r.admitBytes b now).budget = r.budget ∧ (r.admitBytes b now).epoch = r.epoch := by
  unfold Recording.admitBytes Recording.marks
  cases r.due b now with
  | false =>
    rw [if_neg Bool.false_ne_true, append_nil]
    cases r.cuts b now <;> exact ⟨rfl, rfl, rfl, rfl, rfl, rfl, rfl, rfl⟩
  | true =>
    cases r.cuts b now <;> exact ⟨rfl, rfl, rfl, rfl, rfl, rfl, rfl, rfl⟩

theorem admitBytes_bytesUsed (r : Recording) (b : List UInt8) (now : Nat) :
    (r.admitBytes b now).bytesUsed = r.bytesUsed + (r.fit b now).length + replayEntryOverheadBytes *
        (1 + (r.marks b now).length) := by
  have hnote : (r.noteDropped (r.cuts b now)).bytesUsed = r.bytesUsed := (noteDropped_frame r _).1
  unfold Recording.admitBytes Recording.marks
  cases r.due b now with
  | false =>
    simp only [Recording.maybeKeyframe, Recording.appendBytes, Bool.false_eq_true, if_false,
      length_nil, hnote]
    omega
  | true =>
    simp only [Recording.maybeKeyframe, Recording.appendBytes, if_true, length_singleton, hnote]
    omega

theorem admitBytes_truncated (r : Recording) (b : List UInt8) (now : Nat) :
    (r.admitBytes b now).historyTruncated = (r.historyTruncated || r.cuts b now) := by
  have hnote : (r.noteDropped (r.cuts b now)).historyTruncated =
    (r.historyTruncated || r.cuts b now) := (noteDropped_frame r _).2.2.2.2.2.2.1
  rw [← hnote]
  unfold Recording.admitBytes
  cases r.due b now <;> rfl

theorem admitBytes_lastKeyframeMs (r : Recording) (b : List UInt8) (now : Nat) :
    (r.admitBytes b now).lastKeyframeMs = r.lastKeyframeMs ∨
      (r.admitBytes b now).lastKeyframeMs = r.elapsedMs now := by
  unfold Recording.admitBytes
  cases r.due b now with
  | false => exact .inl (noteDropped_frame r _).2.2.2.2.2.1
  | true => exact .inr rfl

/-- A chunk of which nothing is kept meets a ring that cannot hold output. -/
theorem small_of_fit_nil {b : List UInt8} {now : Nat} (hb : b ≠ []) (hfit : r.fit b now = []) :
    r.budget.maxBytes ≤ 2 * replayEntryOverheadBytes := by
  have hlen := congrArg List.length hfit
  rw [Recording.fit, length_drop, length_nil] at hlen
  have hpos := length_pos_iff.mpr hb
  have hroom : r.budget.maxBytes - replayEntryOverheadBytes *
    (if r.due b now then 2 else 1) = 0 := by
    show r.maxPayload (r.due b now) = 0
    unfold Recording.due
    omega
  unfold replayEntryOverheadBytes at *
  split_ifs at hroom <;> omega

/-- The length of what is kept of a chunk. -/
theorem length_fit (r : Recording) (b : List UInt8) (now : Nat) :
    (r.fit b now).length = min b.length (r.maxPayload (r.due b now)) := by
  rw [Recording.fit, length_drop, Recording.due]
  omega

theorem cuts_iff (r : Recording) (b : List UInt8) (now : Nat) :
    r.cuts b now = true ↔ (r.fit b now).length < b.length := by
  rw [length_fit, Recording.cuts, decide_eq_true_eq]

theorem Sound.admitBytes (h : Sound start r0 ops log r) {b : List UInt8} {now : Nat}
    (hops : ∀ op ∈ ops, op.now ≤ now) (hfit : r.fit b now ≠ []) :
    Sound start r0 (ops ++ [Op.push b now]) (log ++ r.appended (.push b now))
      (r.admitBytes b now) := by
  obtain ⟨hevents, hevicted, hnext, hbase, hkeyframes, hused, hbudget, hepoch⟩ :=
    admitBytes_fields r b now
  have happ : r.appended (.push b now) = [⟨r.nextSeq, r.elapsedMs now, .bytes (r.fit b now)⟩] :=
    if_neg hfit
  have hpayload : Replay.payload [⟨r.nextSeq, r.elapsedMs now, .bytes (r.fit b now)⟩] =
    r.fit b now := append_nil _
  have hpushed : pushed [.push b now] = b := append_nil b
  have helapsed : (r.admitBytes b now).elapsedMs = r.elapsedMs := by
    funext t
    rw [Recording.elapsedMs, Recording.elapsedMs, hepoch]
  rw [happ]
  have haccounts := h.toAccounts.snoc hevents hevicted hnext hbase hkeyframes
    (by
      rw [← h.nextSeq]
      unfold Recording.marks
      split_ifs
      · exact .refl _
      · exact nil_sublist _)
    (by rw [hused, hpayload]) (by rw [admitBytes_bytesUsed, hpayload])
  exact
    { haccounts with
      epoch := hepoch.trans h.epoch
      budget := hbudget.trans h.budget
      logged := by
        rw [helapsed]
        refine h.logged.snoc h.nextSeq rfl (h.before hops).2 rfl ?_ ?_
        · rw [hpayload, hpushed]
          exact drop_sublist _ _
        · rw [weight, hpayload]
          exact Nat.add_pos_left (length_pos_iff.mpr hfit) _
      keyframed := by
        rw [helapsed]
        rcases admitBytes_lastKeyframeMs r b now with hlast | hlast
        · rw [hlast]
          exact h.keyframed_snoc _
        · exact .inr ⟨.push b now, mem_append_right _ (.head _), hlast⟩
      small := by
        intro hmax
        -- with no keyframe one is due, and then nothing fits
        rw [hbudget] at hmax
        obtain ⟨hnone, -⟩ := h.small hmax
        have hdue : r.due b now = true := by
          rw [Recording.due, Recording.markerDue, hnone]
          rfl
        refine absurd (length_eq_zero_iff.mp ?_) hfit
        rw [length_fit, hdue, Recording.maxPayload, if_pos rfl]
        omega
      truncated := by
        have hkept := h.logged.kept.length_le
        have hlen : (r.fit b now).length ≤ b.length := by
          rw [length_fit]
          exact min_le_left _ _
        rw [admitBytes_truncated, Bool.or_eq_true, h.truncated, cuts_iff, hevicted, payload_append,
          pushed_snoc, hpayload, hpushed, length_append, length_append]
        omega }

/-- **No older event survives a cut**: the chunk fills what its own markers leave. -/
theorem Ring.alone_of_cut {r' : Recording} {ops' : List Op} {b : List UInt8} {now : Nat}
    (h : Ring start r0 ops log r)
    (h' : Sound start r0 ops' (log ++ r.appended (.push b now)) r')
    (hfit : r.fit b now ≠ []) (hcut : r.cuts b now = true)
    (hwithin : r'.bytesUsed ≤ r'.budget.maxBytes) (hbudget : r'.budget = r.budget)
    (hkeyframes : r'.keyframes =
      (r.keyframes ++ r.marks b now).filter fun k => decide (r'.evicted ≤ k.eventSeq)) :
    log.length ≤ r'.evicted := by
  by_contra hlt
  rw [Nat.not_le] at hlt
  have happ : r.appended (.push b now) = [⟨r.nextSeq, r.elapsedMs now, .bytes (r.fit b now)⟩] :=
    if_neg hfit
  have hpayload : Replay.payload [⟨r.nextSeq, r.elapsedMs now, .bytes (r.fit b now)⟩] =
    r.fit b now := append_nil _
  -- an older event, the chunk and the marker of the chunk are all charged
  have hevents : r'.events.length = (log.length - r'.evicted) + 1 := by
    rw [h'.events, happ, length_drop, length_append, length_singleton]
    omega
  have hused : (r.fit b now).length ≤ r'.payloadBytesUsed := by
    rw [h'.payload, h'.events, happ, drop_append_of_le_length hlt.le, payload_append, hpayload,
      length_append]
    exact Nat.le_add_left _ _
  have hmarks : (r.marks b now).length ≤ r'.keyframes.length := by
    rw [hkeyframes, filter_append, length_append]
    have hall : (r.marks b now).filter (fun k => decide (r'.evicted ≤ k.eventSeq)) =
      r.marks b now := by
      rw [filter_eq_self]
      intro k hk
      unfold Recording.marks at hk
      split_ifs at hk
      · rw [mem_singleton.mp hk, decide_eq_true_eq]
        show r'.evicted ≤ r.nextSeq
        rw [h.nextSeq]
        exact hlt.le
      · exact absurd hk not_mem_nil
    rw [hall]
    exact Nat.le_add_left _ _
  have hbytes := h'.bytes
  have hpos := length_pos_iff.mpr hfit
  rw [Recording.cuts, decide_eq_true_eq] at hcut
  rw [length_fit] at hused hpos
  rw [hbudget, hbytes] at hwithin
  unfold Recording.marks at hmarks
  unfold Recording.maxPayload at hcut hused hpos
  unfold replayEntryOverheadBytes at *
  cases hdue : r.due b now with
  | false =>
    rw [hdue] at hcut hused hpos
    simp only [Bool.false_eq_true, if_false] at hcut hused hpos
    omega
  | true =>
    rw [hdue] at hcut hused hpos hmarks
    simp only [if_true, length_singleton] at hcut hused hpos hmarks
    omega

theorem fit_nil_of_nil {b : List UInt8} {now : Nat} (hb : b = []) : r.fit b now = [] := by
  rw [Recording.fit, hb, drop_nil]

theorem Ring.pushBytes (h : Ring start r0 ops log r) {b : List UInt8} {now : Nat}
    (hops : ∀ op ∈ ops, op.now ≤ now) :
    ∃ r', r.pushBytes checkedSub b now = some r' ∧
      Ring start r0 (ops ++ [Op.push b now]) (log ++ r.appended (.push b now)) r' := by
  have hpushed : pushed (ops ++ [Op.push b now]) = pushed ops ++ b := by
    rw [pushed_snoc]
    exact congrArg _ (append_nil b)
  obtain ⟨hlast, hold⟩ := h.before hops
  by_cases hb : b = []
  · -- nothing is pushed
    refine ⟨r, by rw [Recording.pushBytes, if_pos hb], ?_⟩
    rw [show r.appended (.push b now) = [] from if_pos (fit_nil_of_nil hb), append_nil]
    rw [hb, append_nil] at hpushed
    exact
      { h with
        logged := h.logged.skip rfl
        keyframed := h.keyframed_snoc _
        truncated := by
          rw [hb, hpushed]
          exact h.truncated
        suffix := by
          rw [hb, hpushed]
          exact h.suffix }
  rw [pushBytes_eq hb hlast]
  by_cases hfit : r.fit b now = []
  · -- the ring cannot hold output, so it holds none
    rw [if_pos hfit, show r.appended (.push b now) = [] from if_pos hfit, append_nil]
    obtain ⟨-, hnone⟩ := h.small (small_of_fit_nil hb hfit)
    have hcut : r.cuts b now = true := by
      rw [cuts_iff, hfit]
      exact length_pos_iff.mpr hb
    rw [hcut]
    refine ⟨_, rfl, ?_⟩
    exact
      { h with
        logged := h.logged.skip rfl
        keyframed := h.keyframed_snoc _
        truncated := by
          have hpos := length_pos_iff.mpr hb
          rw [hpushed, hnone, length_append, length_nil]
          exact ⟨fun _ => .inr (by omega), fun _ => rfl⟩
        suffix := by
          have hempty : Replay.payload r.events <:+ Replay.payload log := payload_suffix (by
            rw [h.events]
            exact drop_suffix _ _)
          rw [hnone] at hempty
          exact hempty.trans nil_suffix }
  · rw [if_neg hfit]
    obtain ⟨hevents, hevicted, -, -, hmarked, -, hbudget, -⟩ := admitBytes_fields r b now
    have happ : r.appended (.push b now) = [⟨r.nextSeq, r.elapsedMs now, .bytes (r.fit b now)⟩] :=
      if_neg hfit
    have hpayload : Replay.payload (r.appended (.push b now)) = r.fit b now := by
      rw [happ]
      exact append_nil _
    have hnow : ∀ e ∈ (r.admitBytes b now).events, e.atMs ≤ r.elapsedMs now := by
      intro e he
      rw [hevents] at he
      rcases mem_append.mp he with he | he
      · exact hold e (h.mem_log he)
      · rw [mem_singleton.mp he]
    obtain ⟨r', hevict, h', hwithin, hle, hbudget', hkeyframes⟩ :=
      (h.toSound.admitBytes hops hfit).evict hnow
    refine ⟨r', hevict, { h' with within := hwithin, keyframes_ge := ?_, suffix := ?_ }⟩
    · intro k hk
      exact mem_kept (hkeyframes ▸ hk)
    · rw [hpushed]
      cases hcut : r.cuts b now with
      | true =>
        -- only the chunk can be left
        have halone :=
          h.alone_of_cut h' hfit hcut hwithin (hbudget'.trans hbudget) (hmarked ▸ hkeyframes)
        have hlast : r'.events <:+ r.appended (.push b now) := by
          rw [h'.events, drop_append, drop_eq_nil_of_le halone, nil_append]
          exact drop_suffix _ _
        have hsuffix := payload_suffix hlast
        rw [hpayload] at hsuffix
        exact (hsuffix.trans (drop_suffix _ _)).trans (suffix_append _ _)
      | false =>
        -- the whole chunk is kept
        have hwhole : r.fit b now = b := by
          have hnot : ¬ (r.fit b now).length < b.length := by
            rw [← cuts_iff, hcut]
            exact Bool.false_ne_true
          exact (drop_sublist _ _).eq_of_length_le (Nat.le_of_not_lt hnot)
        have hsuffix := payload_suffix (h.toSound.events_suffix h' (hevicted ▸ hle))
        rw [payload_append, hpayload, hwhole] at hsuffix
        obtain ⟨gone, hgone⟩ := h.suffix
        refine hsuffix.trans ⟨gone, ?_⟩
        rw [← hgone, append_assoc]

/-- **One operation** keeps the invariant, and no subtraction clips. -/
theorem Ring.step (h : Ring start r0 ops log r) {op : Op} (hops : ∀ op' ∈ ops, op'.now ≤ op.now) :
    ∃ r', r.step checkedSub op = some r' ∧
    Ring start r0 (ops ++ [op]) (log ++ r.appended op) r' := by
  cases op with
  | push b now => exact h.pushBytes hops
  | resize rows cols now => exact h.recordResize hops

end Invariant

end Thegn.Replay
