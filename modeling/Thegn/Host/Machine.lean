import Thegn.Host.Image

set_option autoImplicit false

/-! # The host provisioning machine

`step` of `thegn-core/src/host_machine.rs`: one event in, a state, the effects the driver must
carry out and the updated context out. The source changes the context through `&mut`; here it is
returned with the transition. `resume` picks a host up from its last durable checkpoint.

The error text of the arm for unexpected pairs prints the event and the state with their derived
`Debug`; the two printers are parameters (`DebugText`), nothing is assumed of them.
-/

namespace Thegn.Host

open Text

/-! ## States, events, effects -/

inductive HostStep
  | connect
  | probe
  | consent
  | install
  | resolveImage
  | deliver
  | seedVolume
  | verify
  deriving DecidableEq, Repr

structure HostFailure where
  step : HostStep
  error : Text
  retryable : Bool
  deriving DecidableEq

/-- `install_runtime`: whether a runtime may be installed on the machine. -/
inductive InstallConsent
  | never
  | ask
  | auto
  deriving DecidableEq, Repr

inductive HostState
  | unknown
  | connecting
  | probing
  | awaitingConsent (runtime : RuntimeKind)
  | installing (runtime : RuntimeKind)
  | runtimeReady
  | imageResolving
  | delivering (strategy : DeliveryStrategy)
  | imageReady
  | volumeSeeding (remaining : List VolumeSpec)
  | ready
  | draining
  | failed (failure : HostFailure)
  deriving DecidableEq

/-- The persisted tag of a durable state; transient states have none. -/
def HostState.durableTag : HostState → Option Text
  | .unknown => some "unknown".toList
  | .runtimeReady => some "runtime_ready".toList
  | .imageReady => some "image_ready".toList
  | .ready => some "ready".toList
  | .draining => some "draining".toList
  | .failed _ => some "failed".toList
  | _ => none

/-- Rebuild a durable state from its tag and, for `failed`, its failure. -/
def HostState.fromDurableTag (tag : Text) (failure : Option HostFailure) : HostState :=
  if tag = "runtime_ready".toList then .runtimeReady
  else if tag = "image_ready".toList then .imageReady
  else if tag = "ready".toList then .ready
  else if tag = "draining".toList then .draining
  else if tag = "failed".toList then
    .failed (failure.getD
      { step := .connect, error := "unknown failure".toList, retryable := true })
  else .unknown

/-- The step a state is at. -/
def HostState.step : HostState → HostStep
  | .unknown | .connecting => .connect
  | .probing => .probe
  | .awaitingConsent _ => .consent
  | .installing _ => .install
  | .runtimeReady | .imageResolving => .resolveImage
  | .delivering _ => .deliver
  | .imageReady | .volumeSeeding _ => .seedVolume
  | .ready | .draining | .failed _ => .verify

/-- Results of executed effects. -/
inductive HostEvent
  | start
  | connected
  | connectFailed (error : Text)
  | probed (caps : HostCaps)
  | probeFailed (error : Text)
  | consentGranted
  | consentDenied
  | installed (rt : RuntimeInfo)
  | installFailed (error : Text)
  | imageResolved (resolved : ResolvedImage)
  | resolveFailed (error : Text)
  | imagePresent
  | imageAbsent
  | delivered (verifiedDigest : Digest)
  | deliverFailed (error : Text)
  | volumeSeeded (volume : Text)
  | volumeSeedFailed (volume : Text) (error : Text)

/-- What the driver must do next. -/
inductive HostEffect
  | connect
  | probe
  | askConsent (runtime : RuntimeKind)
  | install (runtime : RuntimeKind)
  | resolveImage (reference : ImageRef)
  | checkImage (digest : Digest)
  | deliver (strategy : DeliveryStrategy) (digest : Digest)
  | seedVolume (spec : VolumeSpec)
  | checkpoint (state : HostState)
  | emit (step : HostStep) (detail : Text)
  deriving DecidableEq

/-- The inputs of the machine and what it learns as events land. -/
structure MachineCtx where
  consent : InstallConsent
  near : LocalCaps
  wantedImage : ImageRef
  wantedVolumes : List VolumeSpec
  deliveryPrefs : List DeliveryCap
  caps : Option HostCaps
  resolved : Option ResolvedImage
  strategies : List DeliveryStrategy

/-- The per-architecture digest the host must hold. -/
def MachineCtx.wantedDigest (ctx : MachineCtx) : Option Digest := do
  let caps ← ctx.caps
  let resolved ← ctx.resolved
  resolved.digestFor caps.arch

/-- The next state and the effects to carry out. -/
structure Transition where
  next : HostState
  effects : List HostEffect

/-- The derived `Debug` of events and states. -/
structure DebugText where
  event : HostEvent → Text
  state : HostState → Text

/-! ## The transition function -/

def fail (step : HostStep) (error : Text) (retryable : Bool) : Transition :=
  let state : HostState := .failed { step, error, retryable }
  { next := state, effects := [.checkpoint state] }

/-- The image is confirmed: checkpoint it and enter volume seeding. -/
def enterVolumes (ctx : MachineCtx) : Transition :=
  match ctx.wantedVolumes with
  | [] =>
    { next := .ready
      effects := [.checkpoint .imageReady, .checkpoint .ready, .emit .verify "ready".toList] }
  | first :: rest =>
    { next := .volumeSeeding (first :: rest)
      effects := [.checkpoint .imageReady,
        .emit .seedVolume ("seed ".toList ++ first.name), .seedVolume first] }

/-- A runtime is confirmed: checkpoint it and enter image resolution. -/
def enterImage (ctx : MachineCtx) : Transition :=
  { next := .imageResolving
    effects := .checkpoint .runtimeReady ::
      match ctx.wantedDigest with
      | some digest =>
        [.emit .verify ("check ".toList ++ digest.short), .checkImage digest]
      | none =>
        [.emit .resolveImage ("resolve ".toList ++ ctx.wantedImage.display),
          .resolveImage ctx.wantedImage] }

/-- `effects.insert(0, e)`. -/
def Transition.cons (e : HostEffect) (t : Transition) : Transition :=
  { t with effects := e :: t.effects }

/-- The ranked strategy after `failed`, if any. -/
def nextStrategy (ctx : MachineCtx) (failed : DeliveryStrategy) : Option DeliveryStrategy :=
  match ctx.strategies.findIdx? (fun s => s = failed) with
  | some i => ctx.strategies[i + 1]?
  | none => none

/-- What follows a successful probe; `ctx` already holds the probed capabilities. -/
def afterProbe (ctx : MachineCtx) (caps : HostCaps) : Transition :=
  match caps.runtime with
  | some rt =>
    (enterImage ctx).cons (.emit .probe (rt.kind.asStr ++ [' '] ++ rt.version))
  | none =>
    match ctx.consent, caps.canInstallRuntime with
    | .auto, true =>
      { next := .installing .podman
        effects := [.emit .install "install podman (pre-granted)".toList, .install .podman] }
    | .ask, true =>
      { next := .awaitingConsent .podman
        effects := [.emit .consent "awaiting install consent".toList, .askConsent .podman] }
    | .never, _ =>
      fail .install ("no container runtime and install is disallowed ".toList
        ++ "(install_runtime = \"never\")".toList) false
    | _, _ =>
      fail .install
        "no container runtime and no supported package manager to install one".toList false

/-- **The transition function.** It is total: pairs the machine does not expect land on a
retryable failure. -/
def step (dbg : DebugText) (state : HostState) (ctx : MachineCtx) (ev : HostEvent) :
    Transition × MachineCtx :=
  match state, ev with
  -- a draining host absorbs every event
  | .draining, _ => ({ next := .draining, effects := [] }, ctx)
  | .unknown, .start | .connecting, .start =>
    ({ next := .connecting, effects := [.emit .connect "connect".toList, .connect] }, ctx)
  | .connecting, .connected =>
    ({ next := .probing, effects := [.emit .probe "probe".toList, .probe] }, ctx)
  | .connecting, .connectFailed error => (fail .connect error true, ctx)
  | .probing, .probed caps =>
    let ctx := { ctx with
      strategies := selectDelivery ctx.near caps ctx.deliveryPrefs
      caps := some caps }
    (afterProbe ctx caps, ctx)
  | .probing, .probeFailed error => (fail .probe error true, ctx)
  | .awaitingConsent runtime, .consentGranted =>
    ({ next := .installing runtime
       effects := [.emit .install ("install ".toList ++ runtime.asStr), .install runtime] }, ctx)
  | .awaitingConsent _, .consentDenied =>
    (fail .consent ("install declined — grant from the Hosts panel or set ".toList
      ++ "install_runtime = \"auto\"".toList) false, ctx)
  | .installing _, .installed rt =>
    let ctx := { ctx with caps := ctx.caps.map fun caps => { caps with runtime := some rt } }
    ((enterImage ctx).cons
      (.emit .install ("installed ".toList ++ rt.kind.asStr ++ [' '] ++ rt.version)), ctx)
  | .installing _, .installFailed error => (fail .install error true, ctx)
  | .imageResolving, .imageResolved resolved =>
    let ctx := { ctx with resolved := some resolved }
    match ctx.wantedDigest with
    | some digest =>
      ({ next := .imageResolving
         effects := [.emit .verify ("check ".toList ++ digest.short), .checkImage digest] },
        ctx)
    | none =>
      let arch := (ctx.caps.map fun c => c.arch.ociName).getD "unknown".toList
      (fail .resolveImage
        (ctx.wantedImage.display ++ " has no ".toList ++ arch ++ " manifest".toList) false, ctx)
  | .imageResolving, .resolveFailed error => (fail .resolveImage error true, ctx)
  -- this arm does not look at the wanted digest
  | .imageResolving, .imagePresent =>
    ((enterVolumes ctx).cons (.emit .verify "image present".toList), ctx)
  | .imageResolving, .imageAbsent =>
    match ctx.wantedDigest with
    | none =>
      (fail .deliver "image absent but no resolved digest (driver bug)".toList true, ctx)
    | some digest =>
      match ctx.strategies with
      | strategy :: _ =>
        ({ next := .delivering strategy
           effects := [.emit .deliver ("deliver via ".toList ++ strategy.asStr),
             .deliver strategy digest] }, ctx)
      | [] =>
        (fail .deliver
          "no delivery route available (no local image source, no host egress)".toList true, ctx)
  | .delivering _, .delivered verifiedDigest =>
    match ctx.wantedDigest with
    | some want =>
      if want = verifiedDigest then
        ((enterVolumes ctx).cons (.emit .deliver ("delivered ".toList ++ want.short)), ctx)
      else
        (fail .verify ("digest mismatch after delivery (want ".toList ++ want.short
          ++ ", got ".toList ++ verifiedDigest.short ++ ") — refusing to boot".toList) true, ctx)
    | none => (fail .verify "delivered without a resolved digest (driver bug)".toList true, ctx)
  | .delivering strategy, .deliverFailed error =>
    match nextStrategy ctx strategy with
    | some next =>
      match ctx.wantedDigest with
      | none => (fail .deliver error true, ctx)
      | some digest =>
        ({ next := .delivering next
           effects := [
             .emit .deliver (strategy.asStr ++ " failed (".toList ++ error
               ++ ") — falling back to ".toList ++ next.asStr),
             .deliver next digest] }, ctx)
    | none =>
      (fail .deliver ("all delivery routes failed (last: ".toList ++ error ++ [')']) true, ctx)
  | .volumeSeeding remaining, .volumeSeeded volume =>
    match remaining.filter (fun v => v.name ≠ volume) with
    | [] =>
      ({ next := .ready
         effects := [.checkpoint .ready, .emit .verify "ready".toList] }, ctx)
    | next :: rest =>
      ({ next := .volumeSeeding (next :: rest)
         effects := [.emit .seedVolume ("seed ".toList ++ next.name), .seedVolume next] }, ctx)
  | .volumeSeeding _, .volumeSeedFailed volume error =>
    (fail .seedVolume ("seeding ".toList ++ volume ++ ": ".toList ++ error) true, ctx)
  | .ready, .start => ({ next := .ready, effects := [] }, ctx)
  | .failed f, .start =>
    if f.retryable then
      ({ next := .connecting
         effects := [.emit .connect ("retry after: ".toList ++ f.error), .connect] }, ctx)
    else ({ next := .failed f, effects := [] }, ctx)
  | state, ev =>
    (fail state.step ("unexpected event ".toList ++ dbg.event ev ++ " in state ".toList
      ++ dbg.state state) true, ctx)

/-- Resume from a persisted state: a freshly probed `ready` host and a host that must stay as it
is do nothing, everything else connects again. The subtraction saturates at the bounds of `i64`. -/
def resume (persisted : HostState) (lastProbe : Option Int) (now probeTtlSecs : Int) :
    HostState × List HostEffect :=
  match persisted with
  | .ready =>
    let fresh := lastProbe.any fun t =>
      decide (max (-(2 ^ 63)) (min (2 ^ 63 - 1) (now - t)) ≤ probeTtlSecs)
    if fresh then (.ready, [])
    else (.connecting, [.emit .probe "probe ttl lapsed — re-verify".toList, .connect])
  | .draining => (.draining, [])
  | .failed f =>
    if f.retryable then (.connecting, [.emit .connect "resume".toList, .connect])
    else (.failed f, [])
  | _ => (.connecting, [.emit .connect "resume".toList, .connect])

/-! ## Durable states -/

/-- The failure a `failed` row is stored with. -/
def HostState.failure : HostState → Option HostFailure
  | .failed f => some f
  | _ => none

/-- A durable state is read back from its row. -/
theorem fromDurableTag_durableTag {s : HostState} {tag : Text} (h : s.durableTag = some tag) :
    HostState.fromDurableTag tag s.failure = s := by
  cases s with
  | unknown => cases h; rfl
  | runtimeReady => cases h; rfl
  | imageReady => cases h; rfl
  | ready => cases h; rfl
  | draining => cases h; rfl
  | failed f => cases h; rfl
  | connecting => simp [HostState.durableTag] at h
  | probing => simp [HostState.durableTag] at h
  | awaitingConsent r => simp [HostState.durableTag] at h
  | installing r => simp [HostState.durableTag] at h
  | imageResolving => simp [HostState.durableTag] at h
  | delivering s => simp [HostState.durableTag] at h
  | volumeSeeding vs => simp [HostState.durableTag] at h

end Thegn.Host
