import Mathlib

set_option autoImplicit false

/-! # The replay ring of a pane

The model of `Recording` (`thegn-host/src/replay.rs`): output chunks and resizes are appended to a
ring with keyframe markers, and `evict` drops the oldest events until the ring is within its byte
and time budgets.

Counters are naturals: their additions saturate only past the memory a machine has. The saturating
subtractions from the counters and from times are made by a parameter `sub`, so that the program
with `satSub` can be compared with the one with `checkedSub`, which stops where a subtraction would
clip.
-/

namespace Thegn.Replay

/-! ## Subtractions -/

/-- `saturating_sub`. -/
def satSub (a b : Nat) : Option Nat := some (a - b)

/-- A subtraction that must not clip. -/
def checkedSub (a b : Nat) : Option Nat := if b ≤ a then some (a - b) else none

/-! ## The ring -/

/-- The charge for a retained event or keyframe. -/
def replayEntryOverheadBytes : Nat := 64

structure ReplayConfig where
  maxBytesPerPane : Nat
  maxDurationSecs : Nat
  keyframeIntervalMs : Nat
  keyframeIntervalBytes : Nat

structure Budget where
  maxBytes : Nat
  maxDurationMs : Nat
  keyframeIntervalMs : Nat
  keyframeIntervalBytes : Nat

inductive EventKind
  | bytes (b : List UInt8)
  | resize (rows cols : Nat)
  deriving DecidableEq

structure Event where
  seq : Nat
  atMs : Nat
  kind : EventKind
  deriving DecidableEq

structure Keyframe where
  atMs : Nat
  eventSeq : Nat
  deriving DecidableEq

structure Recording where
  revision : UInt64
  /-- nanoseconds, as all instants -/
  epoch : Nat
  events : List Event
  keyframes : List Keyframe
  budget : Budget
  evicted : Nat
  nextSeq : Nat
  payloadBytesUsed : Nat
  bytesUsed : Nat
  bytesSinceKeyframe : Nat
  lastKeyframeMs : Nat
  baseRows : Nat
  baseCols : Nat
  historyTruncated : Bool

def Recording.fromConfig (cfg : ReplayConfig) (rows cols epoch : Nat) : Recording where
  revision := 0
  epoch := epoch
  events := []
  keyframes := []
  budget :=
    { maxBytes := cfg.maxBytesPerPane
      maxDurationMs := min (cfg.maxDurationSecs * 1000) (2 ^ 64 - 1)
      keyframeIntervalMs := max cfg.keyframeIntervalMs 1
      keyframeIntervalBytes := max cfg.keyframeIntervalBytes 1 }
  evicted := 0
  nextSeq := 0
  payloadBytesUsed := 0
  bytesUsed := 0
  bytesSinceKeyframe := 0
  lastKeyframeMs := 0
  baseRows := max rows 1
  baseCols := max cols 1
  historyTruncated := false

/-- Milliseconds since the epoch. -/
def Recording.elapsedMs (r : Recording) (now : Nat) : Nat := (now - r.epoch) / 1000000

/-! ## Eviction -/

section Evict

variable (sub : Nat → Nat → Option Nat)

/-- Keyframes whose event is gone: the keyframes are sorted, so they come first. -/
def Recording.orphaned (r : Recording) : Nat :=
  (r.keyframes.takeWhile fun k => decide (k.eventSeq < r.evicted)).length

/-- The accounting of an event that is popped off the front. -/
def Recording.popFront (r : Recording) (ev : Event) (rest : List Event) : Option Recording :=
  match ev.kind with
  | .bytes b => do
      let payloadBytesUsed ← sub r.payloadBytesUsed b.length
      let bytesUsed ← sub r.bytesUsed replayEntryOverheadBytes
      let bytesUsed ← sub bytesUsed b.length
      pure { r with
        events := rest, payloadBytesUsed, bytesUsed,
        evicted := r.evicted + 1 }
  | .resize rows cols => do
      let bytesUsed ← sub r.bytesUsed replayEntryOverheadBytes
      pure { r with
        events := rest, bytesUsed, baseRows := max rows 1, baseCols := max cols 1
        evicted := r.evicted + 1 }

/-- The loop of `evict`: pop events while the ring is over a budget. The flag is whether any was. -/
def evictLoop (nowMs : Nat) : List Event → Recording → Bool → Option (Recording × Bool)
  | [], r, evictedAny => some (r, evictedAny)
  | ev :: rest, r, evictedAny => do
      let liveBytes ← sub r.bytesUsed (r.orphaned * replayEntryOverheadBytes)
      let age ← sub nowMs ev.atMs
      if r.budget.maxBytes < liveBytes ∨
        (0 < r.budget.maxDurationMs ∧ r.budget.maxDurationMs < age) then do
        let r ← r.popFront sub ev rest
        evictLoop nowMs rest r true
      else pure (r, evictedAny)

/-- Drop the keyframes whose event is gone. -/
def Recording.dropOrphans (r : Recording) : Option Recording :=
  if 0 < r.evicted then do
    let kept := r.keyframes.filter fun k => decide (r.evicted ≤ k.eventSeq)
    let removed := r.keyframes.length - kept.length
    let bytesUsed ← sub r.bytesUsed (removed * replayEntryOverheadBytes)
    pure { r with keyframes := kept, bytesUsed }
  else pure r

/-- Note that output was dropped. -/
def Recording.noteDropped (r : Recording) (dropped : Bool) : Recording :=
  if dropped then { r with historyTruncated := true, revision := r.revision + 1 } else r

def Recording.evict (r : Recording) (nowMs : Nat) : Option Recording := do
  let (r, evictedAny) ← evictLoop sub nowMs r.events r false
  let r ← r.dropOrphans sub
  pure (r.noteDropped evictedAny)

/-! ## Recording -/

def Recording.maybeKeyframe (r : Recording) (atMs seq : Nat) (due : Bool) : Recording :=
  if due then
    { r with
      keyframes := r.keyframes ++ [{ atMs, eventSeq := seq }]
      bytesUsed := r.bytesUsed + replayEntryOverheadBytes
      lastKeyframeMs := atMs
      bytesSinceKeyframe := 0 }
  else r

/-- Append an output chunk that has been cut to its newest suffix. -/
def Recording.appendBytes (r : Recording) (bytes : List UInt8) (atMs : Nat) : Recording :=
  { r with
    nextSeq := r.nextSeq + 1
    payloadBytesUsed := r.payloadBytesUsed + bytes.length
    bytesUsed := r.bytesUsed + replayEntryOverheadBytes + bytes.length
    bytesSinceKeyframe := r.bytesSinceKeyframe + bytes.length
    events := r.events ++ [{ seq := r.nextSeq, atMs, kind := .bytes bytes }] }

/-- Whether a keyframe is due with a chunk of this length. -/
def Recording.markerDue (r : Recording) (sinceMs incoming : Nat) : Bool :=
  r.keyframes.isEmpty || decide (r.budget.keyframeIntervalMs ≤ sinceMs)
    || decide (r.budget.keyframeIntervalBytes ≤ r.bytesSinceKeyframe + incoming)

/-- The longest payload that fits beside its event and keyframe. -/
def Recording.maxPayload (r : Recording) (markerDue : Bool) : Nat :=
  r.budget.maxBytes - replayEntryOverheadBytes * (if markerDue then 2 else 1)

def Recording.pushBytes (r : Recording) (bytes : List UInt8) (now : Nat) : Option Recording :=
  if bytes = [] then some r
  else do
    let atMs := r.elapsedMs now
    let sinceMs ← sub atMs r.lastKeyframeMs
    let markerDue := r.markerDue sinceMs bytes.length
    let maxPayload := r.maxPayload markerDue
    let r := r.noteDropped (decide (min bytes.length maxPayload < bytes.length))
    let bytes := bytes.drop (bytes.length - maxPayload)
    if bytes = [] then some r
    else ((r.appendBytes bytes atMs).maybeKeyframe atMs r.nextSeq markerDue).evict sub atMs

def Recording.appendResize (r : Recording) (rows cols atMs : Nat) : Recording :=
  { r with
    nextSeq := r.nextSeq + 1
    events := r.events ++ [{ seq := r.nextSeq, atMs, kind := .resize rows cols }]
    bytesUsed := r.bytesUsed + replayEntryOverheadBytes }

def Recording.recordResize (r : Recording) (rows cols now : Nat) : Option Recording :=
  let atMs := r.elapsedMs now
  (r.appendResize rows cols atMs).evict sub atMs

end Evict

/-! ## Reading the ring -/

structure SearchSnapshot where
  events : List Event
  baseRows : Nat
  baseCols : Nat
  maxEvents : Nat
  incomplete : Bool
  historyTruncated : Bool

/-- Clone the retained ring; when it is cut, the last timestamp is left out whole. -/
def Recording.searchSnapshot (r : Recording) : SearchSnapshot :=
  let maxEvents := r.budget.maxBytes / replayEntryOverheadBytes
  let events := r.events.take maxEvents
  let incomplete := decide (maxEvents < r.events.length)
  let truncatedAtMs := events.getLast?.map Event.atMs
  { events :=
      if incomplete then (events.reverse.dropWhile fun ev => some ev.atMs == truncatedAtMs).reverse
        else events
    baseRows := r.baseRows
    baseCols := r.baseCols
    maxEvents := maxEvents
    incomplete := incomplete
    historyTruncated := r.historyTruncated }

/-- What the ring needs of an emulator. -/
structure Emulator (ε : Type) where
  new : Nat → Nat → ε
  advance : List UInt8 → ε → ε
  resize : Nat → Nat → ε → ε

section Feed

variable {ε : Type} (em : Emulator ε)

def Emulator.apply (emu : ε) : EventKind → ε
  | .bytes b => em.advance b emu
  | .resize rows cols => em.resize rows cols emu

/-- The loop of `feed_from_sequence`. -/
def feedLoop (toInclusive : Nat) : List Event → ε → Nat → ε × Nat
  | [], emu, nextSeq => (emu, nextSeq)
  | ev :: rest, emu, nextSeq =>
    if ev.seq < nextSeq then feedLoop toInclusive rest emu nextSeq
    else if toInclusive < ev.atMs then (emu, nextSeq)
    else feedLoop toInclusive rest (em.apply emu ev.kind) (ev.seq + 1)

def Recording.feedFromSequence (r : Recording) (emu : ε) (fromSeq toInclusive : Nat) : ε × Nat :=
  feedLoop em toInclusive r.events emu (max fromSeq r.evicted)

def Recording.firstSequence (r : Recording) : Nat := r.evicted

end Feed

end Thegn.Replay
