import Thegn.Host.Serial

set_option autoImplicit false

/-! # Stale events

The machine under any sequence of events: late, repeated, or from an earlier attempt. A draining
host never moves. A failure that is not retryable is kept by `Start`; any other event reaches the
arm for unexpected pairs, which rewrites it to a retryable failure, so that no host is wedged. The
checkpoints `imageReady` and `ready` need a wanted digest, as long as `ImagePresent` is not fed to
a machine that has none (`stale_events`).
-/

namespace Thegn.Host

open List

/-- The machine after the events. -/
def feed (dbg : DebugText) (σ : HostState × MachineCtx) (evs : List HostEvent) :
    HostState × MachineCtx :=
  evs.foldl (fun σ ev => ((step dbg σ.1 σ.2 ev).1.next, (step dbg σ.1 σ.2 ev).2)) σ

/-- The transition checkpoints an image or a host as ready. -/
def Promotes (t : Transition) : Prop :=
  .checkpoint .imageReady ∈ t.effects ∨ .checkpoint .ready ∈ t.effects

/-- The host is told that the image is present while no digest is wanted. -/
def UncheckedPresent (σ : HostState × MachineCtx) (ev : HostEvent) : Prop :=
  σ.1 = .imageResolving ∧ ev = .imagePresent ∧ σ.2.wantedDigest = none

/-! ## What a transition to readiness needs -/

/-- The transition promotes the host, or leaves it seeding volumes. -/
def Advances (t : Transition) : Prop := Promotes t ∨ ∃ remaining, t.next = .volumeSeeding remaining

theorem not_advances_fail (st : HostStep) (error : Text) (retryable : Bool) :
    ¬ Advances (fail st error retryable) := by
  simp [Advances, Promotes, fail]

theorem not_advances_enterImage (ctx : MachineCtx) (st : HostStep) (detail : Text) :
    ¬ Advances ((enterImage ctx).cons (.emit st detail)) := by
  unfold enterImage Transition.cons Advances Promotes
  cases ctx.wantedDigest <;> simp

theorem not_advances_afterProbe (ctx : MachineCtx) (caps : HostCaps) :
    ¬ Advances (afterProbe ctx caps) := by
  unfold afterProbe
  split
  · exact not_advances_enterImage _ _ _
  · split
    · simp [Advances, Promotes]
    · simp [Advances, Promotes]
    · exact not_advances_fail _ _ _
    · exact not_advances_fail _ _ _

/-- Only three arms advance a host: the image is present, it was delivered with the wanted digest,
or a volume was seeded. None of them changes the context. -/
theorem step_advances {dbg : DebugText} {s : HostState} {ctx : MachineCtx} {ev : HostEvent}
    (h : Advances (step dbg s ctx ev).1) :
    (step dbg s ctx ev).2 = ctx
      ∧ (s = .imageResolving ∧ ev = .imagePresent ∨ ctx.wantedDigest.isSome
        ∨ ∃ remaining, s = .volumeSeeding remaining) := by
  revert h
  fun_cases step dbg s ctx ev <;> intro h
  -- the arms that fail, connect, probe, install, resolve or deliver do not advance
  all_goals try exact absurd h (not_advances_fail _ _ _)
  all_goals try exact absurd h (not_advances_enterImage _ _ _)
  all_goals try exact absurd h (not_advances_afterProbe _ _)
  all_goals try simp [Advances, Promotes] at h
  case case15 => exact ⟨rfl, .inl ⟨rfl, rfl⟩⟩
  case case19 hd =>
    rw [hd]
    exact ⟨rfl, .inr (.inl rfl)⟩
  case case25 => exact ⟨rfl, .inr (.inr ⟨_, rfl⟩)⟩
  case case26 => exact ⟨rfl, .inr (.inr ⟨_, rfl⟩)⟩

/-! ## Runs -/

theorem feed_append (dbg : DebugText) (σ : HostState × MachineCtx) (evs evs' : List HostEvent) :
    feed dbg σ (evs ++ evs') = feed dbg (feed dbg σ evs) evs' :=
  foldl_append

/-- While volumes are seeded, a digest is wanted. -/
def Checked (σ : HostState × MachineCtx) : Prop :=
  ∀ remaining, σ.1 = .volumeSeeding remaining → σ.2.wantedDigest.isSome

theorem Checked.advance {dbg : DebugText} {σ : HostState × MachineCtx} {ev : HostEvent}
    (h : Checked σ) (hev : ¬ UncheckedPresent σ ev)
    (hadv : Advances (step dbg σ.1 σ.2 ev).1) : (step dbg σ.1 σ.2 ev).2.wantedDigest.isSome := by
  obtain ⟨hctx, harm⟩ := step_advances hadv
  rw [hctx]
  rcases harm with ⟨hs, he⟩ | hd | ⟨remaining, hs⟩
  · rw [Option.isSome_iff_ne_none]
    intro hnone
    exact hev ⟨hs, he, hnone⟩
  · exact hd
  · exact h remaining hs

theorem Checked.feed {dbg : DebugText} {ctx : MachineCtx} {evs : List HostEvent}
    (h : ∀ pre ev post, evs = pre ++ ev :: post →
      ¬ UncheckedPresent (feed dbg (.unknown, ctx) pre) ev) :
    Checked (feed dbg (.unknown, ctx) evs) := by
  induction evs using List.reverseRecOn with
  | nil =>
    intro remaining hs
    cases hs
  | append_singleton evs ev ih =>
    have hchecked : Checked (Host.feed dbg (.unknown, ctx) evs) := by
      apply ih
      intro pre ev' post hsplit
      apply h pre ev' (post ++ [ev])
      rw [hsplit, append_assoc, cons_append]
    intro remaining hs
    rw [feed_append] at hs ⊢
    exact hchecked.advance (h evs ev [] rfl) (.inr ⟨remaining, hs⟩)

theorem feed_draining (dbg : DebugText) (ctx : MachineCtx) (evs : List HostEvent) :
    feed dbg (.draining, ctx) evs = (.draining, ctx) := by
  induction evs with
  | nil => rfl
  | cons ev evs ih => exact ih

/-- A failure that is not retryable meets an event other than `Start`. -/
theorem step_failed_of_ne_start (dbg : DebugText) (f : HostFailure) (ctx : MachineCtx)
    {ev : HostEvent} (hev : ev ≠ .start) :
    ∃ f', step dbg (.failed f) ctx ev = (fail .verify f'.error true, ctx)
      ∧ (fail .verify f'.error true).next = .failed f' := by
  refine ⟨{ step := .verify
            error := "unexpected event ".toList ++ dbg.event ev ++ " in state ".toList
              ++ dbg.state (.failed f)
            retryable := true }, ?_, rfl⟩
  cases ev with
  | start => exact absurd rfl hev
  | _ => rfl

/-- What the event does is harmless to the host: draining stays, a failure that is not retryable
stays so, and readiness needs a wanted digest. -/
def Harmless (dbg : DebugText) (ctx : MachineCtx) (evs : List HostEvent) (ev : HostEvent) : Prop :=
  let σ := feed dbg (.unknown, ctx) evs
  let r := step dbg σ.1 σ.2 ev
  (σ.1 = .draining → r.1.next = .draining)
    ∧ (∀ f, σ.1 = .failed f → f.retryable = false →
        ∃ f', r.1.next = .failed f' ∧ f'.retryable = false)
    ∧ (Promotes r.1 → r.2.wantedDigest ≠ none)

/-- Without consent to install a runtime the host fails for good; a late `Connected` makes the
failure retryable. -/
theorem not_harmless_connected :
    ¬ Harmless sampleDebug { sampleCtx with consent := .never }
      [.start, .connected, .probed sampleCaps] .connected := by
  intro h
  obtain ⟨f', hf, hr⟩ := h.2.1 _ rfl rfl
  cases hf
  cases hr

/-- **Stale events**, after any events from `unknown`. A draining host does not move. A failure
that is not retryable is kept by `Start` and turned into a retryable one, with its checkpoint, by
any other event. No transition checkpoints readiness without a wanted digest, if the machine was
never told that the image is present while no digest was wanted. -/
theorem stale_events (dbg : DebugText) (ctx : MachineCtx) (evs : List HostEvent) (ev : HostEvent) :
    (∀ ctx' evs', feed dbg (.draining, ctx') evs' = (.draining, ctx'))
      ∧ (∀ f, (feed dbg (.unknown, ctx) evs).1 = .failed f → f.retryable = false →
          step dbg (.failed f) (feed dbg (.unknown, ctx) evs).2 .start
              = ({ next := .failed f, effects := [] }, (feed dbg (.unknown, ctx) evs).2)
            ∧ (ev ≠ .start → ∃ f', f'.step = .verify ∧ f'.retryable = true
                ∧ step dbg (.failed f) (feed dbg (.unknown, ctx) evs).2 ev
                  = ({ next := .failed f', effects := [.checkpoint (.failed f')] },
                      (feed dbg (.unknown, ctx) evs).2)))
      ∧ ((∀ pre ev' post, evs ++ [ev] = pre ++ ev' :: post →
            ¬ UncheckedPresent (feed dbg (.unknown, ctx) pre) ev') →
          let σ := feed dbg (.unknown, ctx) evs
          Promotes (step dbg σ.1 σ.2 ev).1 → (step dbg σ.1 σ.2 ev).2.wantedDigest ≠ none) := by
  refine ⟨feed_draining dbg, ?_, ?_⟩
  · intro f _ hf
    constructor
    · simp [step, hf]
    · intro hev
      obtain ⟨f', hstep, hnext⟩ := step_failed_of_ne_start dbg f
        (feed dbg (.unknown, ctx) evs).2 hev
      have hf' : f' = { step := .verify, error := f'.error, retryable := true } := by
        simp only [fail, HostState.failed.injEq] at hnext
        exact hnext.symm
      rw [hstep, hf']
      exact ⟨_, rfl, rfl, rfl⟩
  · intro h σ hpromotes
    have hchecked : Checked σ := by
      apply Checked.feed
      intro pre ev' post hsplit
      apply h pre ev' (post ++ [ev])
      rw [hsplit, append_assoc, cons_append]
    rw [← Option.isSome_iff_ne_none]
    exact hchecked.advance (h evs ev [] rfl) (.inl hpromotes)

/-- The events of a host whose runtime and image are in place. -/
def presentEvents : List HostEvent :=
  [.start, .connected, .probed { sampleCaps with
      runtime :=
        some { kind := .docker, version := "27".toList, rootless := false, socket := none } },
    .imageResolved { perArch := fun _ => some sampleDigest }]

theorem stale_events_present :
    let σ := feed sampleDebug (.unknown, sampleCtx) presentEvents
    Promotes (step sampleDebug σ.1 σ.2 .imagePresent).1
      ∧ (step sampleDebug σ.1 σ.2 .imagePresent).2.wantedDigest ≠ none := by
  intro σ
  have hpromotes : Promotes (step sampleDebug σ.1 σ.2 .imagePresent).1 := .inl (.tail _ (.head _))
  refine ⟨hpromotes, (stale_events sampleDebug sampleCtx presentEvents .imagePresent).2.2 ?_
    hpromotes⟩
  rintro pre ev' post hsplit ⟨-, rfl, hnone⟩
  -- `ImagePresent` is the last event, and by then the digest is known
  rcases pre with _ | ⟨_, _ | ⟨_, _ | ⟨_, _ | ⟨_, _ | ⟨_, pre⟩⟩⟩⟩⟩ <;>
    simp only [presentEvents, cons_append, nil_append, List.cons.injEq, reduceCtorEq,
      false_and, and_false] at hsplit
  · obtain ⟨rfl, rfl, rfl, rfl, -⟩ := hsplit
    cases hnone
  · simp at hsplit

end Thegn.Host
