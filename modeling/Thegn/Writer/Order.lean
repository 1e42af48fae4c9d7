import Thegn.Writer.Queue

set_option autoImplicit false

/-! # The order of the side channels

What is still to be written stands in three places: the messages being written again, the deferred
ones and the queue, with the message the worker holds between the last two. `order` lists what was
written and these places one after the other. Every step but one keeps a part of this list or
appends an admitted message; the one is the write of a message of the queue, which passes the
deferred ones.
-/

namespace Thegn.Writer

open List

/-- The messages of one side channel. -/
def onChannel (c : Channel) (msgs : List Msg) : List Msg :=
  msgs.filter (fun m => m.channel = some c)

/-- The deferred messages that the worker is writing again. -/
def Phase.again : Phase → List Msg
  | .replay msgs => msgs
  | .rewriting m rest => m :: rest
  | .rewrote m rest result => if result.isErr then m :: rest else rest
  | _ => []

/-- The message of the queue that the worker holds. -/
def Phase.held : Phase → List Msg
  | .taken m => [m]
  | .ready m => [m]
  | .resetting m => [m]
  | .wasReset m => [m]
  | .writing m => [m]
  | .wrote m result => if result.isErr then [m] else []
  | _ => []

/-- What a queue still has to write, with the messages that stand between its two lists. -/
def Q.pending (q : Q) (held : List Msg) : List Msg := q.deferredMsgs ++ (held ++ q.msgs)

def order (s : State) : List Msg := s.written ++ (s.worker.again ++ s.q.pending s.worker.held)

/-! ## The accounting keeps the messages -/

/-- The two lists of messages of the queue are those of another. -/
def SameMsgs (q q' : Q) : Prop := q'.msgs = q.msgs ∧ q'.deferred = q.deferred

theorem SameMsgs.trans {a b c : Q} (h : SameMsgs a b) (h' : SameMsgs b c) : SameMsgs a c :=
  ⟨h'.1.trans h.1, h'.2.trans h.2⟩

theorem noteClipboard_same (q : Q) (id : Nat) (o : Option ClipboardOutcome) :
    SameMsgs q (noteClipboard q id o) := by
  unfold noteClipboard
  cases o with
  | none => exact ⟨rfl, rfl⟩
  | some o =>
    dsimp only
    split_ifs <;> exact ⟨rfl, rfl⟩

theorem noteMsg_same (q : Q) (m : Msg) (o : Option ClipboardOutcome) :
    SameMsgs q (noteMsg q m o) := by
  cases m with
  | frame => exact ⟨rfl, rfl⟩
  | oob => exact ⟨rfl, rfl⟩
  | clipboard b id => exact noteClipboard_same q id o

theorem releaseMessageCapacity_same (q : Q) (m : Msg) :
    SameMsgs q (releaseMessageCapacity q m) := by
  cases m <;> exact ⟨rfl, rfl⟩

theorem release_note_same (q : Q) (m : Msg) (o : Option ClipboardOutcome) :
    SameMsgs q (releaseMessageCapacity (noteMsg q m o) m) :=
  (noteMsg_same q m o).trans (releaseMessageCapacity_same _ m)

theorem applyWriteResult_same (q : Q) (r : SinkResult) : SameMsgs q (applyWriteResult q r) := by
  unfold applyWriteResult
  cases r with
  | ok => exact ⟨rfl, rfl⟩
  | error t text =>
    dsimp only
    split_ifs <;> exact ⟨rfl, rfl⟩

/-- A run over the messages, each step of which keeps the queue, keeps it. -/
theorem foldl_same {f : Q → Msg → Q} (hf : ∀ q m, SameMsgs q (f q m)) (ms : List Msg) (q : Q) :
    SameMsgs q (ms.foldl f q) := by
  induction ms generalizing q with
  | nil => exact ⟨rfl, rfl⟩
  | cons m ms ih => exact (hf q m).trans (ih (f q m))

@[simp] theorem abandonQueuedMessages_msgs (q : Q) : (abandonQueuedMessages q).msgs = [] := rfl

@[simp] theorem abandonQueuedMessages_deferred (q : Q) :
    (abandonQueuedMessages q).deferred = [] := rfl

theorem SameMsgs.deferredMsgs {q q' : Q} (h : SameMsgs q q') :
    q'.deferredMsgs = q.deferredMsgs := by
  unfold Q.deferredMsgs
  rw [h.2]

theorem SameMsgs.pending {q q' : Q} (h : SameMsgs q q') (held : List Msg) :
    q'.pending held = q.pending held := by
  unfold Q.pending
  rw [h.deferredMsgs, h.1]

theorem giveUp_pending (q : Q) : ((giveUp q).pending []).Sublist (q.pending []) := by
  unfold giveUp
  split_ifs
  · have h : (abandonQueuedMessages q).pending [] = [] := by
      simp [Q.pending, Q.deferredMsgs]
    rw [h]
    exact nil_sublist _
  · exact .refl _

/-- Messages between the two lists may be left out. -/
theorem pending_nil_sublist (q : Q) (held : List Msg) :
    (q.pending []).Sublist (q.pending held) := by
  unfold Q.pending
  exact (Sublist.refl _).append ((nil_sublist _).append (Sublist.refl _))

/-! ## The two sections after a write -/

theorem park_pending (q : Q) (m : Msg) (r : SinkResult) :
    ((park true q m r).pending []).Sublist (q.pending (if r.isErr then [m] else [])) := by
  unfold park
  split_ifs with h he he
  · simp [Q.pending, Q.deferredMsgs]
  · simp [he] at h
  · rw [(release_note_same q m _).pending []]
    exact pending_nil_sublist q [m]
  · rw [(release_note_same q m _).pending []]

/-- The deferred messages to write again are the first of the deferred ones. -/
theorem readyDeferred_append_drop (seq : Option Nat) (q : Q) :
    readyDeferred seq q ++ q.deferred.drop (readyDeferred seq q).length = q.deferred := by
  unfold readyDeferred
  cases seq with
  | none => rfl
  | some seq =>
    have h := takeWhile_prefix (l := q.deferred) (fun d => decide (d.deferAfter < seq))
    exact prefix_append_drop h |>.symm

theorem takeReady_pending (seq : Option Nat) (q : Q) :
    (takeReady seq q).2 ++ (takeReady seq q).1.pending [] = q.pending [] := by
  have h := congrArg (List.map (·.msg)) (readyDeferred_append_drop seq q)
  rw [map_append] at h
  simp only [takeReady, Q.pending, Q.deferredMsgs, nil_append]
  rw [← append_assoc, h]

theorem settleWrite_pending (q : Q) (m : Msg) (r : SinkResult) :
    ((settleWrite true q m r).2 ++ (settleWrite true q m r).1.pending []).Sublist
      (q.pending (if r.isErr then [m] else [])) := by
  have h : ∀ q' : Q, ({ q' with completedSeq := succSaturating q'.completedSeq } : Q).pending [] =
    q'.pending [] :=
    fun _ => rfl
  unfold settleWrite
  dsimp only
  rw [h, takeReady_pending]
  refine (giveUp_pending _).trans (List.Sublist.trans ?_ (park_pending q m r))
  split_ifs
  · exact .refl _
  · rw [(applyWriteResult_same _ r).pending []]

theorem settleReplay_pending (q : Q) (m : Msg) (rest : List Msg) (r : SinkResult) :
    ((if r.isErr then [] else rest) ++ (settleReplay q m rest r).pending []).Sublist
      ((if r.isErr then m :: rest else rest) ++ q.pending []) := by
  unfold settleReplay
  dsimp only
  refine (List.Sublist.append (Sublist.refl _) (giveUp_pending _)).trans ?_
  rw [(applyWriteResult_same _ r).pending []]
  split_ifs with he
  · simp [Q.pending, Q.deferredMsgs, Function.comp_def]
  · rw [(release_note_same q m none).pending []]

/-! ## One step -/

/-- A submission appends the message it admits to the queue. -/
def Admits (q : Q) (r : Q × Option Msg) : Prop :=
  r.1.msgs = q.msgs ++ r.2.toList ∧ r.1.deferred = q.deferred

theorem Admits.refused (q : Q) : Admits q (q, none) := ⟨(append_nil _).symm, rfl⟩

theorem submitFrame_admits (q : Q) (b : Bytes) : Admits q (submitFrame q b) := by
  unfold submitFrame
  split_ifs
  · exact Admits.refused q
  · exact ⟨rfl, rfl⟩

theorem admitOob_admits (q : Q) (b : Bytes) : Admits q (admitOob q b) := by
  unfold admitOob
  split_ifs
  · exact Admits.refused q
  · exact Admits.refused q
  · exact ⟨rfl, rfl⟩

theorem admitClipboard_admits (q : Q) (b : Bytes) (budget : Nat) :
    Admits q (admitClipboard q b budget) := by
  unfold admitClipboard
  split_ifs
  · exact Admits.refused q
  · exact ⟨rfl, rfl⟩

theorem trySubmitClipboard_admits (q : Q) (b : Bytes) (locked : Bool) :
    Admits q (trySubmitClipboard q b locked) := by
  unfold trySubmitClipboard
  split_ifs
  · exact Admits.refused q
  · exact Admits.refused q
  · exact admitClipboard_admits q b _

theorem trySubmitHostClipboard_admits (q : Q) (b : Bytes) :
    Admits q (trySubmitHostClipboard q b) := by
  unfold trySubmitHostClipboard
  split_ifs
  · exact Admits.refused q
  · exact Admits.refused q
  · exact admitClipboard_admits q b _

theorem admit_order (s : State) (r : Q × Option Msg) (h : Admits s.q r) :
    order (recordAdmission s r) = order s ++ r.2.toList := by
  simp [order, recordAdmission, Q.pending, Q.deferredMsgs, h.1, h.2]

theorem abandonQueuedMessages_order (s : State) (q : Q) :
    (order { s with q := abandonQueuedMessages q }).Sublist (order s) := by
  have h : (abandonQueuedMessages q).pending s.worker.held = s.worker.held := by
    simp [Q.pending, Q.deferredMsgs]
  unfold order
  dsimp only
  rw [h]
  refine (Sublist.refl _).append ((Sublist.refl _).append ?_)
  unfold Q.pending
  exact (sublist_append_left _ _).trans (sublist_append_right _ _)

/-- The message of the queue that an event writes. -/
def writes (s : State) : Event → Option Msg
  | .work .ok =>
    match s.worker with
    | .writing m => some m
    | _ => none
  | _ => none

/-- No deferred message has the channel of the message that is written. -/
def Allowed (s : State) (e : Event) : Prop :=
  ∀ m ∈ writes s e, ∀ d ∈ s.q.deferred, m.channel = none ∨ d.msg.channel ≠ m.channel

instance (s : State) (e : Event) : Decidable (Allowed s e) :=
  inferInstanceAs (Decidable (∀ m ∈ writes s e, ∀ d ∈ s.q.deferred, m.channel = none ∨
    d.msg.channel ≠ m.channel))

theorem work_admissions (s : State) (sink : SinkResult) :
    (work s sink).admissions = s.admissions := by
  obtain ⟨q, w, adm, wr⟩ := s
  cases w with
  | idle =>
    simp only [work]
    cases popMessage q with
    | some p => rfl
    | none =>
      dsimp only
      split_ifs <;> rfl
  | taken m =>
    simp only [work]
    split_ifs <;> rfl
  | replay ms =>
    cases ms with
    | nil => rfl
    | cons m rest =>
      simp only [work]
      split_ifs <;> rfl
  | _ => rfl

theorem popMessage_pending {q q' : Q} {m : Msg} (h : popMessage q = some (m, q')) :
    q'.pending [m] = q.pending [] := by
  unfold popMessage at h
  split at h
  · cases h
  · rename_i m' rest hm
    simp only [Option.some.injEq, Prod.mk.injEq] at h
    obtain ⟨rfl, rfl⟩ := h
    simp [Q.pending, Q.deferredMsgs, hm]

theorem abandonDeferredWrites_pending (q : Q) :
    ((abandonDeferredWrites q).pending []).Sublist (q.pending []) := by
  have hm : (abandonDeferredWrites q).msgs = q.msgs :=
    (foldl_same (fun q m => noteMsg_same q m (some .uncertain)) q.deferredMsgs q).1
  unfold Q.pending
  rw [hm]
  exact (nil_sublist _).append (Sublist.refl _)

/-- A step of the worker that leaves the sink alone, or one that the sink refuses, only loses
messages; so does the write of a deferred message. -/
theorem work_order (s : State) (sink : SinkResult)
    (h : ∀ m, s.worker = .writing m → sink.isErr = true) :
    (order (work s sink)).Sublist (order s) := by
  obtain ⟨q, w, adm, wr⟩ := s
  cases w with
  | idle =>
    simp only [work]
    cases hp : popMessage q with
    | some p =>
      obtain ⟨m, q'⟩ := p
      simp [order, Phase.again, Phase.held, popMessage_pending hp]
    | none =>
      dsimp only
      split_ifs
      · exact (Sublist.refl _).append
          ((Sublist.refl _).append (abandonDeferredWrites_pending q))
      · exact .refl _
  | taken m =>
    simp only [work]
    split_ifs
    · simp only [order, Phase.again, Phase.held]
      rw [(release_note_same q m _).pending []]
      exact (Sublist.refl _).append ((Sublist.refl _).append (pending_nil_sublist q [m]))
    · exact .refl _
  | dropped => exact .refl _
  | ready m =>
    simp only [work]
    split_ifs <;> exact .refl _
  | resetting m =>
    simp only [work]
    split_ifs with he
    · simp [order, Phase.again, Phase.held, he]
    · exact .refl _
  | wasReset m =>
    simp only [work]
    split_ifs
    · exact (Sublist.refl _).append ((Sublist.refl _).append (pending_nil_sublist q [m]))
    · exact .refl _
  | writing m =>
    have he := h m rfl
    simp [work, order, Phase.again, Phase.held, he]
  | wrote m r =>
    exact (Sublist.refl _).append (settleWrite_pending q m r)
  | replay ms =>
    cases ms with
    | nil => exact .refl _
    | cons m rest =>
      simp only [work]
      split_ifs
      · have hq := foldl_same (fun q m => release_note_same q m (some .uncertain)) (m :: rest) q
        simp only [order, Phase.again, Phase.held]
        rw [hq.pending []]
        exact (Sublist.refl _).append ((nil_sublist _).append (Sublist.refl _))
      · exact .refl _
  | rewriting m rest =>
    cases hr : sink.isErr <;> simp [work, order, Phase.again, Phase.held, hr]
  | rewrote m rest r =>
    have h1 := settleReplay_pending q m rest r
    simp only [work, order]
    refine (Sublist.refl _).append ?_
    cases hr : r.isErr <;> simpa [Phase.again, Phase.held, hr] using h1
  | exited => exact .refl _

theorem onChannel_append (c : Channel) (l1 l2 : List Msg) :
    onChannel c (l1 ++ l2) = onChannel c l1 ++ onChannel c l2 := by
  simp [onChannel]

theorem onChannel_sublist {l1 l2 : List Msg} (h : l1.Sublist l2) (c : Channel) :
    (onChannel c l1).Sublist (onChannel c l2) :=
  h.filter _

/-- The message that is written passes deferred messages of other channels only. -/
theorem onChannel_swap (c : Channel) (m : Msg) (ds : List Msg)
    (h : ∀ d ∈ ds, m.channel = none ∨ d.channel ≠ m.channel) :
    onChannel c ([m] ++ ds) = onChannel c (ds ++ [m]) := by
  rw [onChannel_append, onChannel_append]
  by_cases hm : m.channel = some c
  · have hds : onChannel c ds = [] := by
      refine filter_eq_nil_iff.mpr (fun d hd => ?_)
      rcases h d hd with hn | hne
      · simp [hm] at hn
      · simpa [hm] using hne
    rw [hds]
    simp
  · have hms : onChannel c [m] = [] := by
      simp [onChannel, hm]
    rw [hms]
    simp

theorem writing_order (c : Channel) (s : State) (m : Msg) (hw : s.worker = .writing m)
    (h : Allowed s (.work .ok)) : onChannel c (order (work s .ok)) = onChannel c (order s) := by
  obtain ⟨q, w, adm, wr⟩ := s
  dsimp only at hw
  subst hw
  have hd : ∀ d ∈ q.deferredMsgs, m.channel = none ∨ d.channel ≠ m.channel := by
    intro d hd
    obtain ⟨x, hx, rfl⟩ := mem_map.mp hd
    exact h m rfl x hx
  have hs := onChannel_swap c m q.deferredMsgs hd
  rw [onChannel_append, onChannel_append] at hs
  simp only [work, order, Phase.again, Phase.held, Q.pending, SinkResult.isErr, Bool.false_eq_true,
    if_false, onChannel_append, nil_append, append_assoc]
  rw [← append_assoc (onChannel c [m]), hs, append_assoc]

/-- What a step can do: it admits messages, and otherwise only loses some. -/
theorem step_order (c : Channel) (s : State) (e : Event) (h : Allowed s e) :
    ∃ new, (step s e).admissions = s.admissions ++ new ∧
      (onChannel c (order (step s e))).Sublist (onChannel c (order s ++ new)) := by
  have hadmit : ∀ r : Q × Option Msg, Admits s.q r → ∃ new,
    (recordAdmission s r).admissions = s.admissions ++ new ∧
      (onChannel c (order (recordAdmission s r))).Sublist (onChannel c (order s ++ new)) := by
    intro r hr
    refine ⟨r.2.toList, rfl, ?_⟩
    rw [admit_order s r hr]
  have hlose : ∀ s' : State, s'.admissions = s.admissions →
    (onChannel c (order s')).Sublist (onChannel c (order s)) →
      ∃ new, s'.admissions = s.admissions ++ new ∧
        (onChannel c (order s')).Sublist (onChannel c (order s ++ new)) := by
    intro s' ha ho
    refine ⟨[], by simpa using ha, ?_⟩
    rw [append_nil]
    exact ho
  cases e with
  | submitFrame b => exact hadmit _ (submitFrame_admits s.q b)
  | trySubmitOob b => exact hadmit _ (admitOob_admits s.q b)
  | trySubmitClipboard b locked => exact hadmit _ (trySubmitClipboard_admits s.q b locked)
  | trySubmitHostClipboard b => exact hadmit _ (trySubmitHostClipboard_admits s.q b)
  | takeStatus => exact hlose _ rfl (Sublist.refl _)
  | syncDeadline => exact hlose _ rfl (onChannel_sublist (abandonQueuedMessages_order s _) c)
  | shutdown => exact hlose _ rfl (Sublist.refl _)
  | shutdownDeadline => exact hlose _ rfl (onChannel_sublist (abandonQueuedMessages_order s _) c)
  | work sink =>
    refine hlose _ (work_admissions s sink) ?_
    by_cases hw : ∀ m, s.worker = .writing m → sink.isErr = true
    · exact onChannel_sublist (work_order s sink hw) c
    · push Not at hw
      obtain ⟨m, hm, he⟩ := hw
      cases sink with
      | ok => rw [show step s (.work .ok) = work s .ok from rfl, writing_order c s m hm h]
      | error t text => exact absurd rfl he

/-! ## Runs -/

/-- A run of the writer in which no message of the queue is written past a deferred one of its
channel. -/
inductive Reach : State → Prop
  | new : Reach State.new
  | step {s : State} (e : Event) : Reach s → Allowed s e → Reach (step s e)

theorem Reach.order_sublist {s : State} (h : Reach s) (c : Channel) :
    (onChannel c (order s)).Sublist (onChannel c s.admissions) := by
  induction h with
  | new => exact .refl _
  | @step s e _ ha ih =>
    obtain ⟨new, hadm, ho⟩ := step_order c s e ha
    rw [hadm, onChannel_append]
    rw [onChannel_append] at ho
    exact ho.trans (ih.append (Sublist.refl _))

/-- What was written of a side channel stands in the order of its admissions. -/
theorem Reach.written_sublist {s : State} (h : Reach s) (c : Channel) :
    (onChannel c s.written).Sublist (onChannel c s.admissions) :=
  (onChannel_sublist (sublist_append_left _ _) c).trans (h.order_sublist c)

/-- The last of a part of a list stands in it after the others of the part. -/
theorem exists_split_of_sublist_concat {α : Type} {l l' : List α} {a : α}
    (h : (l ++ [a]).Sublist l') : ∃ before after, l' = before ++ a :: after ∧ l.Sublist before := by
  obtain ⟨r1, r2, rfl, h1, h2⟩ := append_sublist_iff.mp h
  obtain ⟨x, y, rfl⟩ := append_of_mem (singleton_sublist.mp h2)
  exact ⟨r1 ++ x, y, by simp, h1.trans (sublist_append_left _ _)⟩

def run (events : List Event) : State := events.foldl step State.new

/-- Every event of a run is allowed where it happens. -/
def AllowedRun : State → List Event → Prop
  | _, [] => True
  | s, e :: es => Allowed s e ∧ AllowedRun (step s e) es

def decidableAllowedRun : (s : State) → (es : List Event) → Decidable (AllowedRun s es)
  | _, [] => isTrue trivial
  | s, e :: es => @instDecidableAnd _ _ (inferInstanceAs (Decidable (Allowed s e)))
    (decidableAllowedRun (step s e) es)

instance (s : State) (es : List Event) : Decidable (AllowedRun s es) := decidableAllowedRun s es

theorem Reach.foldl {s : State} (h : Reach s) {es : List Event} (ha : AllowedRun s es) :
    Reach (es.foldl Writer.step s) := by
  induction es generalizing s with
  | nil => exact h
  | cons e es ih => exact ih (h.step e ha.1) ha.2

/-- The events of a run in which the sink succeeds or fails for a while. -/
def Event.passing : Event → Bool
  | .submitFrame _ => true
  | .trySubmitOob _ => true
  | .trySubmitClipboard _ _ => true
  | .trySubmitHostClipboard _ => true
  | .work .ok => true
  | .work (.error isTransient _) => isTransient
  | _ => false

theorem side_channels_in_order {s : State} (h : Reach s) :
    (∀ c, (onChannel c s.written).Sublist (onChannel c s.admissions)) ∧
      ∀ older last, onChannel .clipboard s.written = older ++ [last] →
        ∃ before after, onChannel .clipboard s.admissions = before ++ last :: after ∧
        older.Sublist before := by
  refine ⟨h.written_sublist, ?_⟩
  intro older last hw
  have hs := h.written_sublist .clipboard
  rw [hw] at hs
  exact exists_split_of_sublist_concat hs

/-- A set that failed and was written again before the next one. -/
def sampleRun : List Event :=
  [.trySubmitClipboard [1] false, .work .ok, .work .ok, .work .ok, .work (.error true []),
    .work .ok, .work .ok,
    .submitFrame [3], .trySubmitClipboard [2] false, .work .ok, .work .ok, .work .ok, .work .ok,
    .work .ok, .work .ok,
    .work .ok, .work .ok, .work .ok, .work .ok, .work .ok, .work .ok, .work .ok, .work .ok,
    .work .ok]

theorem side_channels_in_order_sample :
    AllowedRun State.new sampleRun ∧
      onChannel .clipboard (run sampleRun).written = [.clipboard [1] 1] ++ [Msg.clipboard [2] 3] ∧
      (∀ c, (onChannel c (run sampleRun).written).Sublist
        (onChannel c (run sampleRun).admissions)) ∧
      ∃ before after, onChannel .clipboard (run sampleRun).admissions =
        before ++ .clipboard [2] 3 :: after ∧ [Msg.clipboard [1] 1].Sublist before := by
  have ha : AllowedRun State.new sampleRun := by decide
  have hw : onChannel .clipboard (run sampleRun).written =
    [.clipboard [1] 1] ++ [Msg.clipboard [2] 3] := by
    decide
  obtain ⟨hc, hlast⟩ := side_channels_in_order (Reach.new.foldl ha)
  exact ⟨ha, hw, hc, hlast _ _ hw⟩

/-- The first set fails and is deferred, the second is written, and then, after a frame, the
first. -/
theorem older_clipboard_written_last :
    ∃ events : List Event, events.all Event.passing = true ∧
      onChannel .clipboard (run events).admissions = [.clipboard [1] 1, .clipboard [2] 2] ∧
      onChannel .clipboard (run events).written = [.clipboard [2] 2, .clipboard [1] 1] ∧
      ¬ (onChannel .clipboard (run events).written).Sublist
        (onChannel .clipboard (run events).admissions) :=
  ⟨[.trySubmitClipboard [1] false, .work .ok, .work .ok, .work .ok, .work (.error true []),
    .work .ok, .work .ok,
    .trySubmitClipboard [2] false, .work .ok, .work .ok, .work .ok, .work .ok, .work .ok, .work .ok,
    .work .ok,
    .work .ok, .submitFrame [3], .work .ok, .work .ok, .work .ok, .work .ok, .work .ok, .work .ok,
    .work .ok],
    by decide, by decide +kernel, by decide +kernel, by decide +kernel⟩

end Thegn.Writer
