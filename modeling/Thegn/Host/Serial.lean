import Thegn.Host.Machine
import Thegn.Lib.Run

set_option autoImplicit false

/-! # A serial driver of the provisioning machine

The driver starts the machine, carries out the effects and feeds back an answer to the last
question it was asked, any answer; it may be killed at any point and resume from the last
checkpoint, with another context. `Driver.log` is the history of the present attempt. It is ghost
state: nothing the machine does depends on it.

`serial_provisioning` says what holds in every state such a driver reaches: every effect of the
attempt was allowed when it was issued (`SafeLog`), no delivery strategy was tried twice, the
attempt has had a bounded number of answers, and it only stops asking when it is over.
-/

namespace Thegn.Host

open Run List

/-! ## The driver -/

/-- Effects that ask the driver for an answer. -/
def HostEffect.isQuestion : HostEffect → Bool
  | .checkpoint _ | .emit _ _ => false
  | _ => true

/-- The event is an answer to the question; the answer to a seed names the volume. -/
def answers : HostEffect → HostEvent → Bool
  | .connect, .connected | .connect, .connectFailed _ => true
  | .probe, .probed _ | .probe, .probeFailed _ => true
  | .askConsent _, .consentGranted | .askConsent _, .consentDenied => true
  | .install _, .installed _ | .install _, .installFailed _ => true
  | .resolveImage _, .imageResolved _ | .resolveImage _, .resolveFailed _ => true
  | .checkImage _, .imagePresent | .checkImage _, .imageAbsent => true
  | .deliver _ _, .delivered _ | .deliver _ _, .deliverFailed _ => true
  | .seedVolume spec, .volumeSeeded volume => decide (volume = spec.name)
  | .seedVolume spec, .volumeSeedFailed volume _ => decide (volume = spec.name)
  | _, _ => false

/-- An entry of the history: an answered question, or an effect with the context it was issued
in. -/
inductive Entry
  | answered (question : HostEffect) (ev : HostEvent)
  | issued (ctx : MachineCtx) (effect : HostEffect)

def Entry.isAnswer : Entry → Bool
  | .answered _ _ => true
  | .issued _ _ => false

structure Driver where
  state : HostState
  ctx : MachineCtx
  /-- The last question asked, if it has not been answered. -/
  question : Option HostEffect
  /-- The persisted row: tag and failure of the last checkpoint. -/
  row : Text × Option HostFailure
  /-- What happened in the present attempt. -/
  log : List Entry

def Driver.init (ctx : MachineCtx) : Driver :=
  { state := .unknown, ctx, question := none, row := ("unknown".toList, none), log := [] }

def Driver.saved (d : Driver) : HostState := HostState.fromDurableTag d.row.1 d.row.2

def lastQuestion (effects : List HostEffect) : Option HostEffect :=
  effects.reverse.find? HostEffect.isQuestion

/-- The row after the checkpoints among the effects. -/
def writeRow (row : Text × Option HostFailure) (effects : List HostEffect) :
    Text × Option HostFailure :=
  effects.foldl
    (fun row e =>
      match e with
      | .checkpoint state =>
        match state.durableTag with
        | some tag => (tag, state.failure)
        | none => row
      | _ => row)
    row

/-- Carry out the effects of a transition, after the history `log`. -/
def Driver.carryOut (d : Driver) (t : Transition) (ctx : MachineCtx) (log : List Entry) : Driver :=
  { state := t.next
    ctx
    question := lastQuestion t.effects
    row := writeRow d.row t.effects
    log := log ++ t.effects.map (Entry.issued ctx) }

inductive Move
  /-- Start, or start again after a failure. -/
  | start
  | answer (ev : HostEvent)
  /-- The driver was killed; a new one resumes from the row, with its own context. -/
  | resume (ctx : MachineCtx) (lastProbe : Option Int) (now probeTtlSecs : Int)

def Driver.move (dbg : DebugText) (d : Driver) : Move → Option Driver
  | .start =>
    if d.question = none then
      let r := step dbg d.state d.ctx .start
      some (d.carryOut r.1 r.2 [])
    else none
  | .answer ev =>
    match d.question with
    | some q =>
      if answers q ev then
        let r := step dbg d.state d.ctx ev
        some (d.carryOut r.1 r.2 (d.log ++ [Entry.answered q ev]))
      else none
    | none => none
  | .resume ctx lastProbe now probeTtlSecs =>
    let r := resume d.saved lastProbe now probeTtlSecs
    some (d.carryOut { next := r.1, effects := r.2 } ctx [])

/-! ## What an attempt may do -/

/-- The host confirmed the digest wanted for the architecture probed in this attempt. -/
def Confirmed (ctx : MachineCtx) (log : List Entry) : Prop :=
  ∃ caps resolved digest, .answered .probe (.probed caps) ∈ log
    ∧ ctx.resolved = some resolved ∧ resolved.digestFor caps.arch = some digest
    ∧ (.answered (.checkImage digest) .imagePresent ∈ log
      ∨ ∃ strategy, .answered (.deliver strategy digest) (.delivered digest) ∈ log)

/-- A wanted volume of this name was seeded in this attempt. -/
def Seeded (ctx : MachineCtx) (log : List Entry) (v : VolumeSpec) : Prop :=
  ∃ spec ∈ ctx.wantedVolumes,
    spec.name = v.name ∧ .answered (.seedVolume spec) (.volumeSeeded v.name) ∈ log

/-- **What an effect needs** of the history of its attempt. -/
def Allowed (ctx : MachineCtx) (log : List Entry) : HostEffect → Prop
  | .install _ =>
    ctx.consent = .auto
      ∨ ctx.consent = .ask ∧ ∃ runtime, .answered (.askConsent runtime) .consentGranted ∈ log
  | .checkpoint state =>
    state.durableTag.isSome ∧ state ≠ .draining ∧ (state = .imageReady → Confirmed ctx log)
      ∧ (state = .ready → Confirmed ctx log ∧ ∀ v ∈ ctx.wantedVolumes, Seeded ctx log v)
  | _ => True

/-- Every effect of the history was allowed when it was issued. -/
def SafeLog (log : List Entry) : Prop :=
  ∀ pre ctx e post, log = pre ++ .issued ctx e :: post → Allowed ctx pre e

/-- The strategies tried, in order. -/
def issuedStrategies (log : List Entry) : List DeliveryStrategy :=
  log.filterMap fun
    | .issued _ (.deliver strategy _) => some strategy
    | _ => none

/-- How many questions the attempt has had answered. -/
def answerCount (log : List Entry) : Nat := log.countP Entry.isAnswer

@[simp] theorem issuedStrategies_append (as bs : List Entry) :
    issuedStrategies (as ++ bs) = issuedStrategies as ++ issuedStrategies bs :=
  filterMap_append

@[simp] theorem answerCount_append (as bs : List Entry) :
    answerCount (as ++ bs) = answerCount as + answerCount bs :=
  countP_append

@[simp] theorem answerCount_issued (ctx : MachineCtx) (es : List HostEffect) :
    answerCount (es.map (Entry.issued ctx)) = 0 := by
  unfold answerCount
  rw [countP_eq_zero]
  intro x hx
  obtain ⟨e, -, rfl⟩ := mem_map.mp hx
  simp [Entry.isAnswer]

/-! ## Histories only grow -/

theorem Confirmed.mono {ctx : MachineCtx} {log log' : List Entry} (h : Confirmed ctx log)
    (hsub : log ⊆ log') : Confirmed ctx log' := by
  obtain ⟨caps, resolved, digest, hp, hr, hd, hc⟩ := h
  refine ⟨caps, resolved, digest, hsub hp, hr, hd, ?_⟩
  rcases hc with hc | ⟨s, hc⟩
  · exact .inl (hsub hc)
  · exact .inr ⟨s, hsub hc⟩

theorem Seeded.mono {ctx : MachineCtx} {log log' : List Entry} {v : VolumeSpec}
    (h : Seeded ctx log v) (hsub : log ⊆ log') : Seeded ctx log' v := by
  obtain ⟨spec, hs, hn, ha⟩ := h
  exact ⟨spec, hs, hn, hsub ha⟩

theorem Allowed.mono {ctx : MachineCtx} {log log' : List Entry} {e : HostEffect}
    (h : Allowed ctx log e) (hsub : log ⊆ log') : Allowed ctx log' e := by
  cases e with
  | install r =>
    rcases h with h | ⟨h, r, hr⟩
    · exact .inl h
    · exact .inr ⟨h, r, hsub hr⟩
  | checkpoint s =>
    obtain ⟨ht, hd, hi, hr⟩ := h
    refine ⟨ht, hd, fun hs => (hi hs).mono hsub, fun hs => ?_⟩
    exact ⟨(hr hs).1.mono hsub, fun v hv => ((hr hs).2 v hv).mono hsub⟩
  | connect => trivial
  | probe => trivial
  | askConsent r => trivial
  | resolveImage r => trivial
  | checkImage d => trivial
  | deliver s d => trivial
  | seedVolume v => trivial
  | emit s d => trivial

theorem SafeLog.nil : SafeLog [] := by
  intro pre ctx e post h
  simp at h

theorem SafeLog.answer {log : List Entry} (h : SafeLog log) (q : HostEffect) (ev : HostEvent) :
    SafeLog (log ++ [Entry.answered q ev]) := by
  intro pre ctx e post hsplit
  rcases eq_nil_or_concat post with rfl | ⟨post', x, rfl⟩
  · have := (append_inj' hsplit rfl).2
    simp at this
  · rw [concat_eq_append, ← cons_append, ← append_assoc] at hsplit
    exact h pre ctx e post' (append_inj' hsplit rfl).1

theorem SafeLog.issue {log : List Entry} (h : SafeLog log) {ctx : MachineCtx}
    {es : List HostEffect} (hes : ∀ e ∈ es, Allowed ctx log e) :
    SafeLog (log ++ es.map (Entry.issued ctx)) := by
  intro pre ctx' e post hsplit
  rcases append_eq_append_iff.mp hsplit with ⟨mid, hpre, hmid⟩ | ⟨mid, hlog, hmid⟩
  · -- the entry is one of the new effects: it was allowed before the batch
    have hmem : Entry.issued ctx' e ∈ es.map (Entry.issued ctx) := by
      rw [hmid]
      simp
    obtain ⟨e', he', heq⟩ := mem_map.mp hmem
    cases heq
    exact (hes e he').mono (by rw [hpre]; exact subset_append_left _ _)
  · cases mid with
    | nil =>
      have hmem : Entry.issued ctx' e ∈ es.map (Entry.issued ctx) := by
        rw [nil_append] at hmid
        rw [← hmid]
        simp
      obtain ⟨e', he', heq⟩ := mem_map.mp hmem
      cases heq
      rw [append_nil] at hlog
      exact hlog ▸ hes e he'
    | cons x mid =>
      rw [cons_append, List.cons.injEq] at hmid
      obtain ⟨rfl, hpost⟩ := hmid
      exact h pre ctx' e mid hlog

/-! ## The invariant -/

/-- The capabilities of the context are those probed in this attempt, up to the runtime. -/
def Probed (ctx : MachineCtx) (log : List Entry) : Prop :=
  ∃ caps, .answered .probe (.probed caps) ∈ log ∧ ctx.caps.map (·.arch) = some caps.arch

/-- No strategy has been tried, and the ladder to try is free of duplicates. -/
def Untried (ctx : MachineCtx) (log : List Entry) : Prop :=
  Probed ctx log ∧ ctx.strategies.Nodup ∧ issuedStrategies log = []

/-- The attempt is over. -/
def Over (ctx : MachineCtx) (question : Option HostEffect) (log : List Entry) : Prop :=
  question = none ∧ (issuedStrategies log).Nodup ∧ answerCount log ≤ 12 + ctx.wantedVolumes.length

/-- **The link between the state, the outstanding question and the history**, state by state. The
bounds on the number of answers are what the states before can have used up. -/
def Phase (ctx : MachineCtx) (question : Option HostEffect) (log : List Entry) : HostState → Prop
  | .unknown => question = none ∧ log = []
  | .connecting =>
    question = some .connect ∧ issuedStrategies log = [] ∧ answerCount log = 0
  | .probing =>
    question = some .probe ∧ issuedStrategies log = [] ∧ answerCount log ≤ 1
  | .awaitingConsent runtime =>
    question = some (.askConsent runtime) ∧ ctx.consent = .ask ∧ Untried ctx log
      ∧ answerCount log ≤ 2
  | .installing runtime =>
    question = some (.install runtime) ∧ Untried ctx log ∧ answerCount log ≤ 3
  | .imageResolving =>
    Untried ctx log
      ∧ ((∃ reference, question = some (.resolveImage reference) ∧ answerCount log ≤ 4)
        ∨ ∃ digest, question = some (.checkImage digest) ∧ ctx.wantedDigest = some digest
            ∧ answerCount log ≤ 5)
  | .delivering strategy =>
    Probed ctx log ∧ ctx.strategies.Nodup
      ∧ ∃ digest pre post, question = some (.deliver strategy digest)
          ∧ ctx.wantedDigest = some digest
          ∧ ctx.strategies = pre ++ strategy :: post
          ∧ issuedStrategies log = pre ++ [strategy]
          ∧ answerCount log ≤ 6 + pre.length
  | .volumeSeeding remaining =>
    Confirmed ctx log ∧ (issuedStrategies log).Nodup
      ∧ ∃ v rest, remaining = v :: rest ∧ question = some (.seedVolume v)
          ∧ remaining ⊆ ctx.wantedVolumes
          ∧ (∀ w ∈ ctx.wantedVolumes, w ∈ remaining ∨ Seeded ctx log w)
          ∧ answerCount log + remaining.length ≤ 12 + ctx.wantedVolumes.length
  | .ready => Over ctx question log
  | .failed _ => Over ctx question log
  | .runtimeReady => False
  | .imageReady => False
  | .draining => False

structure Inv (d : Driver) : Prop where
  safe : SafeLog d.log
  phase : Phase d.ctx d.question d.log d.state
  saved_ne : d.saved ≠ .draining

/-- A transition fits the history `log`: its effects are allowed, and they lead to the phase of
the next state. -/
def Fits (ctx : MachineCtx) (log : List Entry) (t : Transition) : Prop :=
  (∀ e ∈ t.effects, Allowed ctx log e)
    ∧ Phase ctx (lastQuestion t.effects) (log ++ t.effects.map (Entry.issued ctx)) t.next

theorem writeRow_ne_draining {ctx : MachineCtx} {log : List Entry} {es : List HostEffect}
    (hes : ∀ e ∈ es, Allowed ctx log e) {row : Text × Option HostFailure}
    (hrow : HostState.fromDurableTag row.1 row.2 ≠ .draining) :
    HostState.fromDurableTag (writeRow row es).1 (writeRow row es).2 ≠ .draining := by
  unfold writeRow
  induction es generalizing row with
  | nil => exact hrow
  | cons e es ih =>
    rw [foldl_cons]
    apply ih (fun e' he' => hes e' (mem_cons_of_mem e he'))
    cases e with
    | checkpoint s =>
      obtain ⟨ht, hd, -, -⟩ := hes _ (.head _)
      obtain ⟨tag, htag⟩ := Option.isSome_iff_exists.mp ht
      simp only [htag]
      rw [fromDurableTag_durableTag htag]
      exact hd
    | connect => exact hrow
    | probe => exact hrow
    | askConsent r => exact hrow
    | install r => exact hrow
    | resolveImage r => exact hrow
    | checkImage d => exact hrow
    | deliver s d => exact hrow
    | seedVolume v => exact hrow
    | emit s d => exact hrow

/-- Carrying out a transition that fits keeps the invariant. -/
theorem Inv.carryOut {d : Driver} (h : Inv d) {t : Transition} {ctx : MachineCtx}
    {log : List Entry} (hlog : SafeLog log) (ht : Fits ctx log t) : Inv (d.carryOut t ctx log) where
  safe := hlog.issue ht.1
  phase := ht.2
  saved_ne := writeRow_ne_draining ht.1 h.saved_ne

/-! ## Transitions that fit -/

theorem fits_fail {ctx : MachineCtx} {log : List Entry} (hs : (issuedStrategies log).Nodup)
    (hc : answerCount log ≤ 12 + ctx.wantedVolumes.length) (st : HostStep) (error : Text)
    (retryable : Bool) : Fits ctx log (fail st error retryable) := by
  constructor
  · intro e he
    rw [mem_singleton.mp he]
    exact ⟨rfl, by simp, by simp, by simp⟩
  · refine ⟨rfl, ?_, ?_⟩
    · simpa [issuedStrategies, fail] using hs
    · simpa using hc

/-- The entries of an attempt that connects. -/
theorem fits_connect (ctx : MachineCtx) (st : HostStep) (detail : Text) :
    Fits ctx [] { next := .connecting, effects := [.emit st detail, .connect] } := by
  constructor
  · intro e he
    simp only [mem_cons, not_mem_nil, or_false] at he
    rcases he with rfl | rfl
    · trivial
    · trivial
  · exact ⟨rfl, rfl, rfl⟩

theorem Probed.mono {ctx : MachineCtx} {log log' : List Entry} (h : Probed ctx log)
    (hsub : log ⊆ log') : Probed ctx log' := by
  obtain ⟨caps, hp, ha⟩ := h
  exact ⟨caps, hsub hp, ha⟩

/-- Probed capabilities and a confirmed wanted digest. -/
theorem Probed.confirmed {ctx : MachineCtx} {log : List Entry} (h : Probed ctx log)
    {digest : Digest} (hd : ctx.wantedDigest = some digest)
    (hc : .answered (.checkImage digest) .imagePresent ∈ log
      ∨ ∃ strategy, .answered (.deliver strategy digest) (.delivered digest) ∈ log) :
    Confirmed ctx log := by
  obtain ⟨caps, hp, ha⟩ := h
  obtain ⟨caps', hcaps, harch⟩ := Option.map_eq_some_iff.mp ha
  simp only [MachineCtx.wantedDigest, hcaps, Option.bind_eq_bind, Option.bind_some,
    Option.bind_eq_some_iff] at hd
  obtain ⟨resolved, hr, hdig⟩ := hd
  exact ⟨caps, resolved, digest, hp, hr, harch ▸ hdig, hc⟩

theorem fits_enterImage {ctx : MachineCtx} {log : List Entry} (h : Untried ctx log)
    (hc : answerCount log ≤ 4) (st : HostStep) (detail : Text) :
    Fits ctx log ((enterImage ctx).cons (.emit st detail)) := by
  obtain ⟨hp, hn, hi⟩ := h
  unfold enterImage Transition.cons
  cases hd : ctx.wantedDigest with
  | some digest =>
    constructor
    · simp [Allowed, HostState.durableTag]
    · refine ⟨⟨hp.mono (subset_append_left _ _), hn, ?_⟩, .inr ⟨digest, rfl, hd, ?_⟩⟩
      · simpa [issuedStrategies] using hi
      · simp only [answerCount_append, answerCount_issued]
        omega
  | none =>
    constructor
    · simp [Allowed, HostState.durableTag]
    · refine ⟨⟨hp.mono (subset_append_left _ _), hn, ?_⟩, .inl ⟨ctx.wantedImage, rfl, ?_⟩⟩
      · simpa [issuedStrategies] using hi
      · simp only [answerCount_append, answerCount_issued]
        omega

theorem fits_enterVolumes {ctx : MachineCtx} {log : List Entry} (h : Confirmed ctx log)
    (hs : (issuedStrategies log).Nodup) (hc : answerCount log ≤ 12) (st : HostStep)
    (detail : Text) : Fits ctx log ((enterVolumes ctx).cons (.emit st detail)) := by
  unfold enterVolumes Transition.cons
  cases hv : ctx.wantedVolumes with
  | nil =>
    constructor
    · simp [Allowed, HostState.durableTag, h, hv]
    · refine ⟨rfl, ?_, ?_⟩
      · simpa [issuedStrategies] using hs
      · simp only [answerCount_append, answerCount_issued]
        omega
  | cons v rest =>
    constructor
    · simp [Allowed, HostState.durableTag, h]
    · refine ⟨h.mono (subset_append_left _ _), ?_, v, rest, rfl, rfl, ?_, ?_, ?_⟩
      · simpa [issuedStrategies] using hs
      · rw [hv]
        exact List.Subset.refl _
      · intro w hw
        exact .inl (hv ▸ hw)
      · simp only [answerCount_append, answerCount_issued, hv]
        omega

/-! ## One answer -/

@[simp] theorem issuedStrategies_answer (log : List Entry) (q : HostEffect) (ev : HostEvent) :
    issuedStrategies (log ++ [Entry.answered q ev]) = issuedStrategies log := by
  simp [issuedStrategies]

@[simp] theorem answerCount_answer (log : List Entry) (q : HostEffect) (ev : HostEvent) :
    answerCount (log ++ [Entry.answered q ev]) = answerCount log + 1 := by
  simp [answerCount, Entry.isAnswer]

theorem Untried.answer {ctx : MachineCtx} {log : List Entry} (h : Untried ctx log)
    (q : HostEffect) (ev : HostEvent) : Untried ctx (log ++ [Entry.answered q ev]) := by
  obtain ⟨hp, hn, hi⟩ := h
  exact ⟨hp.mono (subset_append_left _ _), hn, by rw [issuedStrategies_answer, hi]⟩

/-- The next strategy of a duplicate-free ladder is the one after the present strategy. -/
theorem nextStrategy_split {ctx : MachineCtx} {s : DeliveryStrategy}
    {pre post : List DeliveryStrategy} (hn : ctx.strategies.Nodup)
    (hsplit : ctx.strategies = pre ++ s :: post) : nextStrategy ctx s = post.head? := by
  have hpre : s ∉ pre := by
    rw [hsplit, nodup_middle] at hn
    intro hs
    exact (nodup_cons.mp hn).1 (mem_append_left _ hs)
  have hidx : ctx.strategies.findIdx? (fun x => x = s) = some pre.length := by
    rw [hsplit, List.findIdx?_append, List.findIdx?_eq_none_iff.mpr]
    · simp [List.findIdx?_cons]
    · intro x hx
      have : x ≠ s := fun h => hpre (h ▸ hx)
      simpa using this
  unfold nextStrategy
  rw [hidx]
  simp only
  rw [hsplit, List.getElem?_append_right (by omega)]
  have : pre.length + 1 - pre.length = 1 := by omega
  rw [this, List.getElem?_cons_succ, List.head?_eq_getElem?]

theorem fits_deliver {ctx : MachineCtx} {log : List Entry} (hp : Probed ctx log)
    (hn : ctx.strategies.Nodup) {s : DeliveryStrategy} {digest : Digest}
    {pre post : List DeliveryStrategy} (hd : ctx.wantedDigest = some digest)
    (hsplit : ctx.strategies = pre ++ s :: post) (hi : issuedStrategies log = pre)
    (hc : answerCount log ≤ 6 + pre.length) (st : HostStep) (detail : Text) :
    Fits ctx log { next := .delivering s, effects := [.emit st detail, .deliver s digest] } := by
  constructor
  · simp [Allowed]
  · refine ⟨hp.mono (subset_append_left _ _), hn, digest, pre, post, rfl, hd, hsplit, ?_, ?_⟩
    · rw [issuedStrategies_append, hi]
      rfl
    · simp only [answerCount_append, answerCount_issued]
      omega

theorem fits_probed {ctx : MachineCtx} {log : List Entry} (hi : issuedStrategies log = [])
    (hc : answerCount log ≤ 1) (caps : HostCaps) :
    let ctx' := { ctx with
      strategies := selectDelivery ctx.near caps ctx.deliveryPrefs, caps := some caps }
    Fits ctx' (log ++ [Entry.answered .probe (.probed caps)]) (afterProbe ctx' caps) := by
  intro ctx'
  have hun : Untried ctx' (log ++ [Entry.answered .probe (.probed caps)]) :=
    ⟨⟨caps, by simp, rfl⟩, selectDelivery_nodup _ _ _, by rw [issuedStrategies_answer, hi]⟩
  have hcount : answerCount (log ++ [Entry.answered .probe (.probed caps)]) ≤ 2 := by
    rw [answerCount_answer]
    omega
  have hfail : ∀ st error r, Fits ctx' (log ++ [Entry.answered .probe (.probed caps)])
      (fail st error r) := by
    intro st error r
    exact fits_fail (by rw [hun.2.2]; exact nodup_nil) (by omega) st error r
  unfold afterProbe
  split
  · exact fits_enterImage hun (by omega) _ _
  · split
    · -- consent was given in advance
      rename_i hauto _
      constructor
      · simp [Allowed, hauto]
      · refine ⟨rfl, ⟨hun.1.mono (subset_append_left _ _), hun.2.1, ?_⟩, ?_⟩
        · rw [issuedStrategies_append, hun.2.2]
          rfl
        · simp only [answerCount_append _ (List.map _ _), answerCount_issued]
          omega
    · rename_i hask _
      constructor
      · simp [Allowed]
      · refine ⟨rfl, hask, ⟨hun.1.mono (subset_append_left _ _), hun.2.1, ?_⟩, ?_⟩
        · rw [issuedStrategies_append, hun.2.2]
          rfl
        · simp only [answerCount_append _ (List.map _ _), answerCount_issued]
          omega
    · exact hfail _ _ _
    · exact hfail _ _ _

/-- The volume asked for was seeded: it and those of its name are done. -/
theorem fits_volumeSeeded {dbg : DebugText} {ctx : MachineCtx} {log : List Entry}
    {v : VolumeSpec} {rest : List VolumeSpec} (hcf : Confirmed ctx log)
    (hs : (issuedStrategies log).Nodup) (hsub : v :: rest ⊆ ctx.wantedVolumes)
    (hleft : ∀ w ∈ ctx.wantedVolumes, w ∈ v :: rest ∨ Seeded ctx log w)
    (hc : answerCount log + (v :: rest).length ≤ 12 + ctx.wantedVolumes.length) :
    let r := step dbg (.volumeSeeding (v :: rest)) ctx (.volumeSeeded v.name)
    Fits r.2 (log ++ [Entry.answered (.seedVolume v) (.volumeSeeded v.name)]) r.1 := by
  intro r
  let log' := log ++ [Entry.answered (.seedVolume v) (.volumeSeeded v.name)]
  let left := (v :: rest).filter (fun w => w.name ≠ v.name)
  have hcf' : Confirmed ctx log' := hcf.mono (subset_append_left _ _)
  have hs' : (issuedStrategies log').Nodup := by rwa [issuedStrategies_answer]
  have hcount : answerCount log' = answerCount log + 1 := answerCount_answer _ _ _
  have hlen : left.length ≤ rest.length := by
    have : left = rest.filter (fun w => w.name ≠ v.name) := by simp [left]
    rw [this]
    exact length_filter_le _ _
  have hleft' : ∀ w ∈ ctx.wantedVolumes, w ∈ left ∨ Seeded ctx log' w := by
    intro w hw
    by_cases hname : w.name = v.name
    · exact .inr ⟨v, hsub (.head _), hname.symm, by simp [log', hname]⟩
    · rcases hleft w hw with h | h
      · exact .inl (mem_filter.mpr ⟨h, by simpa using hname⟩)
      · exact .inr (h.mono (subset_append_left _ _))
  rw [length_cons] at hc
  change Fits r.2 log' r.1
  cases hl : left with
  | nil =>
    have hr : r = ({ next := .ready
                     effects := [.checkpoint .ready, .emit .verify "ready".toList] }, ctx) := by
      simp only [r, step]
      rw [show List.filter _ (v :: rest) = [] from hl]
    rw [hr]
    have hall : ∀ w ∈ ctx.wantedVolumes, Seeded ctx log' w := by
      intro w hw
      rcases hleft' w hw with h | h
      · rw [hl] at h
        simp at h
      · exact h
    constructor
    · simp only [mem_cons, not_mem_nil, or_false, forall_eq_or_imp, forall_eq]
      exact ⟨⟨rfl, by simp, by simp, fun _ => ⟨hcf', hall⟩⟩, trivial⟩
    · refine ⟨rfl, ?_, ?_⟩
      · rw [issuedStrategies_append]
        simpa [issuedStrategies] using hs'
      · simp only [answerCount_append _ (List.map _ _), answerCount_issued]
        omega
  | cons next rest' =>
    have hr : r = ({ next := .volumeSeeding (next :: rest')
                     effects := [.emit .seedVolume ("seed ".toList ++ next.name),
                       .seedVolume next] }, ctx) := by
      simp only [r, step]
      rw [show List.filter _ (v :: rest) = next :: rest' from hl]
    rw [hr]
    constructor
    · simp [Allowed]
    · refine ⟨hcf'.mono (subset_append_left _ _), ?_, next, rest', rfl, rfl, ?_, ?_, ?_⟩
      · rw [issuedStrategies_append]
        simpa [issuedStrategies] using hs'
      · rw [← hl]
        exact fun w hw => hsub (mem_filter.mp hw).1
      · intro w hw
        rcases hleft' w hw with h | h
        · exact .inl (hl ▸ h)
        · exact .inr (h.mono (subset_append_left _ _))
      · rw [hl] at hlen
        simp only [answerCount_append _ (List.map _ _), answerCount_issued]
        omega

/-- Installing a runtime does not change the architecture. -/
theorem Untried.installed {ctx : MachineCtx} {log : List Entry} (h : Untried ctx log)
    (rt : RuntimeInfo) :
    Untried { ctx with caps := ctx.caps.map fun caps => { caps with runtime := some rt } } log := by
  obtain ⟨⟨caps, hp, ha⟩, hn, hi⟩ := h
  refine ⟨⟨caps, hp, ?_⟩, hn, hi⟩
  rw [← ha, Option.map_map]
  rfl

/-- What fits an answer given in `imageResolving`. -/
theorem fits_imageResolving {dbg : DebugText} {ctx : MachineCtx} {q : HostEffect}
    {log : List Entry} {ev : HostEvent} (h : Phase ctx (some q) log .imageResolving)
    (hev : answers q ev = true) :
    Fits (step dbg .imageResolving ctx ev).2 (log ++ [Entry.answered q ev])
      (step dbg .imageResolving ctx ev).1 := by
  obtain ⟨hun, hq⟩ := h
  have hun' := hun.answer q ev
  have hnodup : (issuedStrategies (log ++ [Entry.answered q ev])).Nodup := by
    rw [hun'.2.2]
    exact nodup_nil
  have hcount := answerCount_answer log q ev
  rcases hq with ⟨reference, hq, hc⟩ | ⟨digest, hq, hd, hc⟩
  · cases hq
    cases ev <;> simp only [answers, Bool.false_eq_true] at hev
    case imageResolved resolved =>
      simp only [step]
      split
      · rename_i digest hd
        constructor
        · simp [Allowed]
        · obtain ⟨hp, hn, hi⟩ := hun'
          refine ⟨⟨hp.mono (subset_append_left _ _), hn, ?_⟩, .inr ⟨digest, rfl, hd, ?_⟩⟩
          · rw [issuedStrategies_append, hi]
            rfl
          · simp only [answerCount_append _ (List.map _ _), answerCount_issued]
            omega
      · exact fits_fail hnodup (by omega) _ _ _
    case resolveFailed error => exact fits_fail hnodup (by omega) _ _ _
  · cases hq
    cases ev <;> simp only [answers, Bool.false_eq_true] at hev
    case imagePresent =>
      exact fits_enterVolumes (hun'.1.confirmed hd (.inl (by simp))) hnodup (by omega) _ _
    case imageAbsent =>
      simp only [step, hd]
      split
      · rename_i s rest hs
        have hsplit : ctx.strategies = [] ++ s :: rest := hs
        exact fits_deliver hun'.1 hun.2.1 hd hsplit hun'.2.2 (by rw [length_nil]; omega) _ _
      · exact fits_fail hnodup (by omega) _ _ _

/-- What fits an answer given in `delivering`: the ladder is walked down, one rung an answer. -/
theorem fits_delivering {dbg : DebugText} {ctx : MachineCtx} {q : HostEffect} {log : List Entry}
    {ev : HostEvent} {s : DeliveryStrategy} (h : Phase ctx (some q) log (.delivering s))
    (hev : answers q ev = true) :
    Fits (step dbg (.delivering s) ctx ev).2 (log ++ [Entry.answered q ev])
      (step dbg (.delivering s) ctx ev).1 := by
  obtain ⟨hp, hn, digest, pre, post, hq, hd, hsplit, hi, hc⟩ := h
  have hp' : Probed ctx (log ++ [Entry.answered q ev]) := hp.mono (subset_append_left _ _)
  have htried : (issuedStrategies (log ++ [Entry.answered q ev])).Nodup := by
    rw [issuedStrategies_answer, hi]
    have : pre ++ s :: post = (pre ++ [s]) ++ post := by simp
    rw [hsplit, this] at hn
    exact (nodup_append.mp hn).1
  have hrungs : pre.length + 1 + post.length ≤ 6 := by
    have := length_le_of_nodup hn
    rw [hsplit, length_append, length_cons] at this
    omega
  have hcount := answerCount_answer log q ev
  cases hq
  cases ev <;> simp only [answers, Bool.false_eq_true] at hev
  case delivered verified =>
    simp only [step, hd]
    split
    · rename_i heq
      subst heq
      exact fits_enterVolumes (hp'.confirmed hd (.inr ⟨s, by simp⟩)) htried (by omega) _ _
    · exact fits_fail htried (by omega) _ _ _
  case deliverFailed error =>
    simp only [step, nextStrategy_split hn hsplit, hd]
    cases post with
    | nil => exact fits_fail htried (by simp at hrungs; omega) _ _ _
    | cons next post =>
      have hsplit' : ctx.strategies = (pre ++ [s]) ++ next :: post := by simpa using hsplit
      refine fits_deliver hp' hn hd hsplit' ?_ ?_ _ _
      · rw [issuedStrategies_answer, hi]
      · rw [length_append, length_singleton]
        omega

/-- **One answer**: whatever the outcome, the transition fits the history. -/
theorem fits_answer {dbg : DebugText} {ctx : MachineCtx} {q : HostEffect} {log : List Entry}
    {ev : HostEvent} {s : HostState} (h : Phase ctx (some q) log s) (hev : answers q ev = true) :
    Fits (step dbg s ctx ev).2 (log ++ [Entry.answered q ev]) (step dbg s ctx ev).1 := by
  have hcount := answerCount_answer log q ev
  cases s with
  | unknown => simp [Phase] at h
  | runtimeReady => exact h.elim
  | imageReady => exact h.elim
  | draining => exact h.elim
  | ready => simp [Phase, Over] at h
  | failed f => simp [Phase, Over] at h
  | imageResolving => exact fits_imageResolving h hev
  | delivering s => exact fits_delivering h hev
  | connecting =>
    obtain ⟨hq, hi, hc⟩ := h
    cases hq
    cases ev <;> simp only [answers, Bool.false_eq_true] at hev
    case connected =>
      refine ⟨by simp [step, Allowed], rfl, ?_, ?_⟩
      · simpa [issuedStrategies, step] using hi
      · simp only [answerCount_append _ (List.map _ _), answerCount_issued]
        omega
    case connectFailed error =>
      exact fits_fail (by rw [issuedStrategies_answer, hi]; exact nodup_nil) (by omega) _ _ _
  | probing =>
    obtain ⟨hq, hi, hc⟩ := h
    cases hq
    cases ev <;> simp only [answers, Bool.false_eq_true] at hev
    case probed caps => exact fits_probed hi hc caps
    case probeFailed error =>
      exact fits_fail (by rw [issuedStrategies_answer, hi]; exact nodup_nil) (by omega) _ _ _
  | awaitingConsent runtime =>
    obtain ⟨hq, hask, hun, hc⟩ := h
    have hun' := hun.answer q ev
    cases hq
    cases ev <;> simp only [answers, Bool.false_eq_true] at hev
    case consentGranted =>
      constructor
      · simp [step, Allowed, hask]
      · refine ⟨rfl, ⟨hun'.1.mono (subset_append_left _ _), hun.2.1, ?_⟩, ?_⟩
        · rw [issuedStrategies_append, hun'.2.2]
          rfl
        · simp only [answerCount_append _ (List.map _ _), answerCount_issued]
          omega
    case consentDenied =>
      exact fits_fail (by rw [hun'.2.2]; exact nodup_nil) (by omega) _ _ _
  | installing runtime =>
    obtain ⟨hq, hun, hc⟩ := h
    have hun' := hun.answer q ev
    cases hq
    cases ev <;> simp only [answers, Bool.false_eq_true] at hev
    case installed rt => exact fits_enterImage (hun'.installed rt) (by omega) _ _
    case installFailed error =>
      exact fits_fail (by rw [hun'.2.2]; exact nodup_nil) (by omega) _ _ _
  | volumeSeeding remaining =>
    obtain ⟨hcf, hs, v, rest, rfl, hq, hsub, hleft, hc⟩ := h
    cases hq
    cases ev <;> simp only [answers, Bool.false_eq_true, decide_eq_true_eq] at hev
    case volumeSeeded volume =>
      subst hev
      exact fits_volumeSeeded hcf hs hsub hleft hc
    case volumeSeedFailed volume error =>
      rw [length_cons] at hc
      simp only [step]
      exact fits_fail (by rwa [issuedStrategies_answer]) (by omega) _ _ _

/-! ## Every run -/

theorem Inv.init (ctx : MachineCtx) : Inv (.init ctx) where
  safe := SafeLog.nil
  phase := ⟨rfl, rfl⟩
  saved_ne := by simp [Driver.saved, Driver.init, HostState.fromDurableTag]

/-- A transition without effects from a state whose attempt is over. -/
theorem fits_still {ctx : MachineCtx} {s : HostState}
    (h : ∀ log, Over ctx none log → Phase ctx none log s) :
    Fits ctx [] { next := s, effects := [] } := by
  refine ⟨by simp, h [] ⟨rfl, nodup_nil, ?_⟩⟩
  exact Nat.zero_le _

theorem fits_start {dbg : DebugText} {ctx : MachineCtx} {log : List Entry} {s : HostState}
    (h : Phase ctx none log s) : Fits (step dbg s ctx .start).2 [] (step dbg s ctx .start).1 := by
  cases s with
  | unknown => exact fits_connect ctx _ _
  | ready => exact fits_still fun _ h => h
  | failed f =>
    simp only [step]
    split
    · exact fits_connect ctx _ _
    · exact fits_still fun _ h => h
  | runtimeReady => exact h.elim
  | imageReady => exact h.elim
  | draining => exact h.elim
  | connecting => simp [Phase] at h
  | probing => simp [Phase] at h
  | awaitingConsent r => simp [Phase] at h
  | installing r => simp [Phase] at h
  | imageResolving => simp [Phase] at h
  | delivering s => simp [Phase] at h
  | volumeSeeding vs => simp [Phase] at h

theorem fits_resume {ctx : MachineCtx} {s : HostState} (h : s ≠ .draining)
    (lastProbe : Option Int) (now ttl : Int) :
    Fits ctx [] { next := (resume s lastProbe now ttl).1,
                  effects := (resume s lastProbe now ttl).2 } := by
  cases s with
  | ready =>
    simp only [resume]
    split
    · exact fits_still fun _ h => h
    · exact fits_connect ctx _ _
  | failed f =>
    simp only [resume]
    split
    · exact fits_connect ctx _ _
    · exact fits_still fun _ h => h
  | draining => exact absurd rfl h
  | unknown => exact fits_connect ctx _ _
  | runtimeReady => exact fits_connect ctx _ _
  | imageReady => exact fits_connect ctx _ _
  | connecting => exact fits_connect ctx _ _
  | probing => exact fits_connect ctx _ _
  | awaitingConsent r => exact fits_connect ctx _ _
  | installing r => exact fits_connect ctx _ _
  | imageResolving => exact fits_connect ctx _ _
  | delivering s => exact fits_connect ctx _ _
  | volumeSeeding vs => exact fits_connect ctx _ _

theorem Inv.move {dbg : DebugText} {d d' : Driver} {m : Move} (h : Inv d)
    (hm : d.move dbg m = some d') : Inv d' := by
  cases m with
  | start =>
    simp only [Driver.move] at hm
    split at hm
    · rename_i hq
      cases hm
      exact h.carryOut SafeLog.nil (fits_start (hq ▸ h.phase))
    · cases hm
  | answer ev =>
    simp only [Driver.move] at hm
    split at hm
    · rename_i q hq
      split at hm
      · rename_i hev
        cases hm
        exact h.carryOut (h.safe.answer q ev) (fits_answer (hq ▸ h.phase) hev)
      · cases hm
    · cases hm
  | resume ctx lastProbe now ttl =>
    simp only [Driver.move] at hm
    cases hm
    exact h.carryOut SafeLog.nil (fits_resume h.saved_ne lastProbe now ttl)

/-- The consequences of the phase that do not depend on the state. -/
theorem Phase.bounds {ctx : MachineCtx} {q : Option HostEffect} {log : List Entry} {s : HostState}
    (h : Phase ctx q log s) :
    (issuedStrategies log).Nodup ∧ answerCount log ≤ 12 + ctx.wantedVolumes.length := by
  cases s with
  | unknown =>
    obtain ⟨-, rfl⟩ := h
    exact ⟨nodup_nil, Nat.zero_le _⟩
  | connecting =>
    obtain ⟨-, hi, hc⟩ := h
    exact ⟨by rw [hi]; exact nodup_nil, by omega⟩
  | probing =>
    obtain ⟨-, hi, hc⟩ := h
    exact ⟨by rw [hi]; exact nodup_nil, by omega⟩
  | awaitingConsent r =>
    obtain ⟨-, -, ⟨-, -, hi⟩, hc⟩ := h
    exact ⟨by rw [hi]; exact nodup_nil, by omega⟩
  | installing r =>
    obtain ⟨-, ⟨-, -, hi⟩, hc⟩ := h
    exact ⟨by rw [hi]; exact nodup_nil, by omega⟩
  | imageResolving =>
    obtain ⟨⟨-, -, hi⟩, hq⟩ := h
    refine ⟨by rw [hi]; exact nodup_nil, ?_⟩
    rcases hq with ⟨_, -, hc⟩ | ⟨_, -, -, hc⟩
    · omega
    · omega
  | delivering s =>
    obtain ⟨-, hn, _, pre, post, -, -, hsplit, hi, hc⟩ := h
    have hlen := length_le_of_nodup hn
    have : pre ++ s :: post = (pre ++ [s]) ++ post := by simp
    rw [hsplit, this] at hn
    rw [hsplit, length_append, length_cons] at hlen
    rw [hi]
    exact ⟨(nodup_append.mp hn).1, by omega⟩
  | volumeSeeding vs =>
    obtain ⟨-, hs, _, _, -, -, -, -, hc⟩ := h
    exact ⟨hs, by omega⟩
  | ready => exact h.2
  | failed f => exact h.2
  | runtimeReady => exact h.elim
  | imageReady => exact h.elim
  | draining => exact h.elim

/-- Without a question the attempt has not begun or is over. -/
theorem Phase.settled {ctx : MachineCtx} {log : List Entry} {s : HostState}
    (h : Phase ctx none log s) : s = .unknown ∨ s = .ready ∨ ∃ failure, s = .failed failure := by
  cases s with
  | unknown => exact .inl rfl
  | ready => exact .inr (.inl rfl)
  | failed f => exact .inr (.inr ⟨f, rfl⟩)
  | runtimeReady => exact h.elim
  | imageReady => exact h.elim
  | draining => exact h.elim
  | connecting => simp [Phase] at h
  | probing => simp [Phase] at h
  | awaitingConsent r => simp [Phase] at h
  | installing r => simp [Phase] at h
  | imageResolving => simp [Phase] at h
  | delivering s => simp [Phase] at h
  | volumeSeeding vs => simp [Phase] at h

/-- No move leads back to `unknown`. -/
theorem Inv.move_ne_unknown {dbg : DebugText} {d d' : Driver} {m : Move} (h : Inv d)
    (hm : d.move dbg m = some d') : d'.state ≠ .unknown := by
  intro hunknown
  have hphase := (h.move hm).phase
  rw [hunknown] at hphase
  cases m with
  | start =>
    simp only [Driver.move] at hm
    split at hm
    · rename_i hq
      cases hm
      have hbefore := h.phase
      rw [hq] at hbefore
      rcases hbefore.settled with hs | hs | ⟨f, hs⟩
      · rw [hs] at hunknown
        cases hunknown
      · rw [hs] at hunknown
        cases hunknown
      · rw [hs] at hunknown
        simp only [step, Driver.carryOut] at hunknown
        split at hunknown
        · cases hunknown
        · cases hunknown
    · cases hm
  | answer ev =>
    simp only [Driver.move] at hm
    split at hm
    · split at hm
      · cases hm
        simp [Phase, Driver.carryOut] at hphase
      · cases hm
    · cases hm
  | resume ctx lastProbe now ttl =>
    simp only [Driver.move] at hm
    cases hm
    simp only [Driver.carryOut, resume] at hunknown
    split at hunknown
    · split at hunknown
      · cases hunknown
      · cases hunknown
    · cases hunknown
    · split at hunknown
      · cases hunknown
      · cases hunknown
    · cases hunknown

/-- **Provisioning is safe and finite under a serial driver.** In every state a run reaches: the
effects of the present attempt were allowed when they were issued, no delivery strategy was
issued twice, at most `12` questions and one for each wanted volume were answered, and where no
question is left the run has not begun, or the attempt has ended in `ready` or `failed`. -/
theorem serial_provisioning (dbg : DebugText) (ctx : MachineCtx) (moves : List Move) (d : Driver)
    (h : run (Driver.move dbg) (.init ctx) moves = some d) :
    SafeLog d.log ∧ (issuedStrategies d.log).Nodup
      ∧ answerCount d.log ≤ 12 + d.ctx.wantedVolumes.length
      ∧ (d.question = none →
          moves = [] ∨ d.state = .ready ∨ ∃ failure, d.state = .failed failure) := by
  have hinv : Inv d := run_induction (fun _ _ _ hs hm => hs.move hm) (Inv.init ctx) h
  refine ⟨hinv.safe, hinv.phase.bounds.1, hinv.phase.bounds.2, ?_⟩
  intro hq
  have hphase := hinv.phase
  rw [hq] at hphase
  cases moves with
  | nil => exact .inl rfl
  | cons m ms =>
    obtain ⟨d1, hm, hrun⟩ := run_cons.mp h
    have hstarted : Inv d1 ∧ d1.state ≠ .unknown :=
      ⟨(Inv.init ctx).move hm, (Inv.init ctx).move_ne_unknown hm⟩
    have hmoved : ∀ s m t, Inv s ∧ s.state ≠ .unknown → Driver.move dbg s m = some t →
        Inv t ∧ t.state ≠ .unknown :=
      fun _ _ _ hs hm => ⟨hs.1.move hm, hs.1.move_ne_unknown hm⟩
    exact .inr (hphase.settled.resolve_left (run_induction hmoved hstarted hrun).2)

/-! A host without a runtime, provisioned with consent asked for and one volume to seed. -/

def sampleDigest : Digest where
  hex := List.replicate 64 '1'
  length_hex := length_replicate
  digits := by
    intro c hc
    rw [eq_of_mem_replicate hc]
    decide

def sampleVolume : VolumeSpec :=
  { name := "cargo".toList, dest := "/cargo".toList, seed := .imageCopyUp }

def sampleCtx : MachineCtx :=
  { consent := .ask
    near := { hasPodman := true, hasSkopeo := false, hasRsync := false }
    wantedImage := { name := "base".toList, tag := "v1".toList, manifestListDigest := none }
    wantedVolumes := [sampleVolume]
    deliveryPrefs := []
    caps := none
    resolved := none
    strategies := [] }

def sampleCaps : HostCaps :=
  { arch := .amd64, runtime := none, delivery := {.sshStream}, canInstallRuntime := true }

def sampleMoves : List Move :=
  [.start, .answer .connected, .answer (.probed sampleCaps), .answer .consentGranted,
    .answer (.installed
      { kind := .podman, version := "5.0".toList, rootless := true, socket := none }),
    .answer (.imageResolved { perArch := fun _ => some sampleDigest }), .answer .imageAbsent,
    .answer (.delivered sampleDigest), .answer (.volumeSeeded "cargo".toList)]

def sampleDebug : DebugText := { event := fun _ => [], state := fun _ => [] }

theorem serial_provisioning_sample :
    ∃ d, run (Driver.move sampleDebug) (.init sampleCtx) sampleMoves = some d ∧ d.state = .ready
      ∧ SafeLog d.log ∧ (issuedStrategies d.log).Nodup
      ∧ answerCount d.log ≤ 12 + d.ctx.wantedVolumes.length
      ∧ (d.question = none →
          sampleMoves = [] ∨ d.state = .ready ∨ ∃ failure, d.state = .failed failure) :=
  ⟨_, rfl, rfl, serial_provisioning sampleDebug sampleCtx sampleMoves _ rfl⟩

end Thegn.Host
