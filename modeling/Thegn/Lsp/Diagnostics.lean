import Thegn.Lib.Table
import Thegn.Lib.Run
import Thegn.Lib.Utf8

set_option autoImplicit false

/-! # The diagnostics bus

The model of `thegn-svc/src/lsp/diagnostics_queue.rs`: a queue of the latest diagnostics of each
document, bounded in documents and in bytes, between the readers of the language servers and the
host. A publication is admitted for the stream that is registered for its root and server; where
there is no room, documents of the root with the most pending documents are given up.

A root is a path in one spelling: a value of a linear order with a length in bytes. The sizes of the
structures are those of the build and are parameters. Hash maps are finite maps; the only function
that looks at all roots takes the greatest in an order in which no two roots are equal.
-/

namespace Thegn.Lsp

open Text Table List

/-! ## Limits and sizes -/

def maxIdentityBytes : Nat := 4 * 1024
def maxQueueDocuments : Nat := 256
def maxQueueBytes : Nat := 8 * 1024 * 1024
def maxRoots : Nat := 32
def maxServersPerRoot : Nat := 32
def maxLossMarks : Nat := maxQueueDocuments
def maxQueueMetadataBytes : Nat := 4 * 1024 * 1024

/-- `saturating_add` of 64-bit numbers. -/
def satAdd (a b : Nat) : Nat := min (a + b) (2 ^ 64 - 1)

/-- The sizes of the structures, in bytes, and the length of a path. -/
structure Env (R : Type) where
  pathBytes : R → Nat
  sizeOfDiagnostic : Nat
  sizeOfPublished : Nat
  sizeOfKey : Nat
  sizeOfEntry : Nat
  sizeOfPathBuf : Nat
  sizeOfDeque : Nat
  sizeOfStreamMap : Nat
  sizeOfString : Nat
  sizeOfStreamState : Nat
  sizeOfDeque_pos : 0 < sizeOfDeque

/-! ## The state -/

structure LspDiagnostic where
  message : Text
  code : Option Text
  source : Option Text

structure PublishedDiagnostics (R : Type) where
  root : R
  path : Text
  diagnostics : List LspDiagnostic
  serverIdentity : Text
  generation : Nat
  sequence : Nat

/-- One document within one stream. -/
structure DiagnosticKey (R : Type) where
  root : R
  serverIdentity : Text
  generation : Nat
  path : Text
  deriving DecidableEq

instance {R : Type} [LinearOrder R] : LawfulBEq (DiagnosticKey R) := inferInstance

structure StreamState where
  generation : Nat
  lastSequence : Nat
  /-- A loss that could not be recorded per document. -/
  lossy : Bool

structure Entry (R : Type) where
  publication : PublishedDiagnostics R
  cost : Nat
  admittedAt : Option Nat

structure LspHealth where
  dropped : Nat
  truncated : Nat
  stale : Nat
  incomplete : Nat
  invalid : Nat
  deriving DecidableEq

structure QueueCounters where
  admitted : Nat
  replaced : Nat
  evicted : Nat
  rejectedCapacity : Nat
  staleRejected : Nat
  purgedOnRetire : Nat
  delivered : Nat

structure QueueState (R : Type) where
  active : Table R (Table Text StreamState)
  nextGeneration : Nat
  pending : Table (DiagnosticKey R) (Entry R)
  /-- The pending documents of each root, first admitted first. -/
  perRoot : Table R (List (DiagnosticKey R))
  /-- Roots with pending documents, served in turn. -/
  ready : List R
  bytes : Nat
  metadataBytes : Nat
  lossMarks : List (DiagnosticKey R)
  health : LspHealth
  retiredDirty : Bool
  wakePending : Bool
  closed : Bool
  counters : QueueCounters
  timing : Bool

def LspHealth.zero : LspHealth := ⟨0, 0, 0, 0, 0⟩

def QueueCounters.zero : QueueCounters := ⟨0, 0, 0, 0, 0, 0, 0⟩

/-- `QueueState::default`. -/
def QueueState.new (R : Type) : QueueState R :=
  { active := ∅, nextGeneration := 1, pending := ∅, perRoot := ∅, ready := [], bytes := 0,
    metadataBytes := 0, lossMarks := [], health := .zero, retiredDirty := false,
    wakePending := false, closed := false, counters := .zero, timing := false }

/-! ## The cost model -/

section

variable {R : Type} (env : Env R)

def LspDiagnostic.bytes (d : LspDiagnostic) (n : Nat) : Nat :=
  satAdd (satAdd (satAdd (satAdd n (byteLen d.message)) ((d.code.map byteLen).getD 0))
    ((d.source.map byteLen).getD 0)) env.sizeOfDiagnostic

/-- Every owned byte that one publication retains. -/
def publishedDiagnosticsBytes (pd : PublishedDiagnostics R) : Nat :=
  let diagnosticBytes := pd.diagnostics.foldl (fun n d => d.bytes env n) 0
  satAdd (satAdd (satAdd (satAdd (env.pathBytes pd.root) (byteLen pd.path))
    (byteLen pd.serverIdentity)) diagnosticBytes) env.sizeOfPublished

def diagnosticKeyBytes (key : DiagnosticKey R) : Nat :=
  satAdd (satAdd (satAdd (env.pathBytes key.root) (byteLen key.serverIdentity)) (byteLen key.path))
    env.sizeOfKey

def keyBytesOf (pd : PublishedDiagnostics R) : Nat :=
  satAdd (satAdd (satAdd (env.pathBytes pd.root) (byteLen pd.serverIdentity)) (byteLen pd.path))
    env.sizeOfKey

/-- A pending entry: the publication, the key of the map and the key in the order of its root. -/
def entryCost (pd : PublishedDiagnostics R) : Nat :=
  satAdd (satAdd (publishedDiagnosticsBytes env pd) (min (keyBytesOf env pd * 2) (2 ^ 64 - 1)))
    env.sizeOfEntry

/-- A root with pending documents: two paths and a queue. -/
def readyRootCost (root : R) : Nat :=
  satAdd (satAdd (min (env.pathBytes root * 2) (2 ^ 64 - 1)) (env.sizeOfPathBuf * 2))
    env.sizeOfDeque

def streamCost (root : R) (identity : Text) (firstOnRoot : Bool) : Nat :=
  let rootCost :=
    if firstOnRoot then satAdd (satAdd (env.pathBytes root) env.sizeOfPathBuf) env.sizeOfStreamMap
    else 0
  satAdd (satAdd (satAdd rootCost (byteLen identity)) env.sizeOfString) env.sizeOfStreamState

end

/-! ## The state's own methods -/

namespace QueueState

variable {R : Type} [LinearOrder R] (env : Env R)

def stream (s : QueueState R) (root : R) (identity : Text) : Option StreamState :=
  (s.active.lookup root).bind fun m => m.lookup identity

/-- What is written through `stream_mut`. -/
def setStream (s : QueueState R) (root : R) (identity : Text) (st : StreamState) : QueueState R :=
  match s.active.lookup root with
  | some m => { s with active := s.active.insert root (m.insert identity st) }
  | none => s

def isCurrent (s : QueueState R) (root : R) (identity : Text) (generation : Nat) : Bool :=
  (s.stream root identity).any fun st => st.generation == generation

def signal (s : QueueState R) : QueueState R := { s with wakePending := true }

def dropReadyRoot (s : QueueState R) (root : R) : QueueState R :=
  match s.perRoot.lookup root with
  | some _ =>
    { s with
      perRoot := s.perRoot.erase root
      bytes := s.bytes - readyRootCost env root
      ready := s.ready.filter (· ≠ root) }
  | none => s

/-- Remove one pending document wherever it is referenced. -/
def removePending (s : QueueState R) (key : DiagnosticKey R) :
    QueueState R × Option (PublishedDiagnostics R) :=
  match s.pending.lookup key with
  | none => (s, none)
  | some entry =>
    let s := { s with pending := s.pending.erase key, bytes := s.bytes - entry.cost }
    match s.perRoot.lookup key.root with
    | some queue =>
      let queue := queue.erase key
      let s := { s with perRoot := s.perRoot.insert key.root queue }
      (if queue.isEmpty then s.dropReadyRoot env key.root else s, some entry.publication)
    | none => (s, some entry.publication)

/-- Remember a loss: for the document where there is room, and otherwise for its stream. -/
def putMark (s : QueueState R) (key : DiagnosticKey R) : QueueState R :=
  if key ∈ s.lossMarks then s
  else
    let cost := diagnosticKeyBytes env key
    if s.lossMarks.length < maxLossMarks ∧ satAdd s.metadataBytes cost ≤ maxQueueMetadataBytes then
      { s with metadataBytes := satAdd s.metadataBytes cost, lossMarks := key :: s.lossMarks }
    else
      match s.stream key.root key.serverIdentity with
      | some st =>
        if st.generation = key.generation then
          s.setStream key.root key.serverIdentity { st with lossy := true }
        else s
      | none => s

/-- Record that the latest publication of a document was lost. -/
def markLoss (s : QueueState R) (key : DiagnosticKey R) : QueueState R :=
  putMark env { s with health := { s.health with incomplete := satAdd s.health.incomplete 1 } } key

def clearLoss (s : QueueState R) (key : DiagnosticKey R) : QueueState R :=
  if key ∈ s.lossMarks then
    { s with
      lossMarks := s.lossMarks.erase key
      metadataBytes := s.metadataBytes - diagnosticKeyBytes env key }
  else s

/-- The order in which `evict_one` compares roots: by their number of pending documents, then the
incoming root before others, then the smaller path before the greater. -/
def evictKey (incoming : R) (e : R × List (DiagnosticKey R)) : Nat ×ₗ Bool ×ₗ Rᵒᵈ :=
  toLex (e.2.length, toLex (decide (e.1 = incoming), OrderDual.toDual e.1))

/-- The root from which a document is given up. -/
def victimRoot (s : QueueState R) (incoming : R) : Option (R × List (DiagnosticKey R)) :=
  (s.perRoot.entries.map fun e => (e.1, e.2)).argmax (evictKey incoming)

def countEvicted (s : QueueState R) : QueueState R :=
  { s with
    counters := { s.counters with evicted := satAdd s.counters.evicted 1 }
    health := { s.health with dropped := satAdd s.health.dropped 1 } }

/-- Give up the oldest pending document of the root with the most; whether there was one. -/
def evictOne (s : QueueState R) (incoming : R) : QueueState R × Bool :=
  match (s.victimRoot incoming).bind fun e => e.2.head? with
  | none => (s, false)
  | some victim =>
    ((s.removePending env victim).1.countEvicted.markLoss env victim, true)

/-- The retained bytes and the metadata bytes, computed from what is retained. -/
def recompute (s : QueueState R) : Nat × Nat :=
  let pending := (s.pending.entries.map fun e => entryCost env e.2.publication).foldl satAdd 0
  let roots := (s.perRoot.entries.map fun e => readyRootCost env e.1).foldl satAdd 0
  let registry := (s.active.entries.map fun e =>
    (e.2.keys.zipIdx.map fun i => streamCost env e.1 i.1 (i.2 == 0)).foldl satAdd 0).foldl satAdd 0
  let marks := (s.lossMarks.map (diagnosticKeyBytes env)).foldl satAdd 0
  (satAdd pending roots, satAdd registry marks)

/-- A stream is not registered any more, and its cost is released. -/
def unlist (s : QueueState R) (root : R) (identity : Text) (streams : Table Text StreamState) :
    QueueState R :=
  { s with
    active :=
      if streams.keys.length = 1 then s.active.erase root
        else s.active.insert root (streams.erase identity)
    metadataBytes :=
      s.metadataBytes - streamCost env root identity (decide (streams.keys.length = 1)) }

def countPurged (s : QueueState R) (n : Nat) : QueueState R :=
  { s with counters := { s.counters with purgedOnRetire := satAdd s.counters.purgedOnRetire n } }

/-- The documents of a retired stream: nothing to deliver. -/
def purge (s : QueueState R) (root : R) (identity : Text) (generation : Nat) : QueueState R :=
  let doomed := ((s.perRoot.lookup root).getD []).filter fun key =>
    key.serverIdentity = identity ∧ key.generation = generation
  doomed.foldl (fun s key => (s.removePending env key).1) (s.countPurged doomed.length)

/-- The marks of a retired stream. -/
def forget (s : QueueState R) (root : R) (identity : Text) (generation : Nat) : QueueState R :=
  let marks := s.lossMarks.filter fun key =>
    key.root = root ∧ key.serverIdentity = identity ∧ key.generation = generation
  marks.foldl (fun s key => s.clearLoss env key) s

/-- `retire_locked`: remove exactly this stream and purge what it has queued. -/
def retireLocked (s : QueueState R) (root : R) (identity : Text) (generation : Nat) :
    QueueState R × Bool :=
  match s.active.lookup root with
  | none => (s, false)
  | some streams =>
    if (streams.lookup identity).map StreamState.generation ≠ some generation then (s, false)
    else
      let s := ((s.unlist env root identity streams).purge env root identity generation).forget env
        root identity generation
      ({ s with retiredDirty := true }, true)

end QueueState

/-! ## The sender -/

inductive LspError
  | notAvailable
  | bounded (message : Text)

namespace QueueState

variable {R : Type} [LinearOrder R] (env : Env R)

/-- A registered stream of the pair is retired first, so a restart never inherits old data. -/
def retirePrevious (s : QueueState R) (root : R) (identity : Text) : QueueState R :=
  match s.stream root identity with
  | some previous => (s.retireLocked env root identity previous.generation).1
  | none => s

/-- The stream is registered for the next generation. -/
def enroll (s : QueueState R) (root : R) (identity : Text) (cost : Nat) : QueueState R :=
  { s with
    nextGeneration := s.nextGeneration + 1
    metadataBytes := satAdd s.metadataBytes cost
    active := s.active.insert root
      (((s.active.lookup root).getD ∅).insert identity ⟨s.nextGeneration, 0, false⟩) }

/-- The part of `register` that follows the retirement. -/
def registerFresh (s : QueueState R) (root : R) (identity : Text) :
    QueueState R × Except LspError Nat :=
  let rootKnown := (s.active.lookup root).isSome
  if !rootKnown ∧ maxRoots ≤ s.active.keys.length then
    (s, .error (.bounded "LSP root limit reached".toList))
  else if (s.active.lookup root).any fun streams =>
    decide (maxServersPerRoot ≤ streams.keys.length) then
    (s, .error (.bounded "LSP servers-per-root limit reached".toList))
  else
    let cost := streamCost env root identity !rootKnown
    if maxQueueMetadataBytes < satAdd s.metadataBytes cost then
      (s, .error (.bounded "LSP authority metadata limit reached".toList))
    else if s.nextGeneration = 0 ∨ s.nextGeneration = 2 ^ 64 - 1 then
      (s, .error (.bounded "LSP generation space exhausted".toList))
    else (s.enroll root identity cost, .ok s.nextGeneration)

/-- Register a stream for a root and a server. -/
def register (s : QueueState R) (root : R) (identity : Text) : QueueState R × Except LspError Nat :=
  if env.pathBytes root = 0 ∨ maxIdentityBytes < env.pathBytes root ∨ identity.isEmpty
      ∨ maxIdentityBytes < byteLen identity then
    (s, .error (.bounded "LSP authority identity limit".toList))
  else if s.closed then (s, .error .notAvailable)
  else (s.retirePrevious env root identity).registerFresh env root identity

def retire (s : QueueState R) (root : R) (identity : Text) (generation : Nat) :
    QueueState R × Bool :=
  let r := s.retireLocked env root identity generation
  (if r.2 then r.1.signal else r.1, r.2)

/-- What every refusal of a stream that is not current does. -/
def refuseStale (s : QueueState R) : QueueState R :=
  { s with
    health := { s.health with stale := satAdd s.health.stale 1 }
    counters := { s.counters with staleRejected := satAdd s.counters.staleRejected 1 } }

/-- The path of a publication that could not be projected, where it can be a key. -/
def keyPath (path : Option Text) : Option Text :=
  path.filter fun path => !path.isEmpty && decide (byteLen path ≤ maxIdentityBytes)

def countDropped (s : QueueState R) : QueueState R :=
  { s with health := { s.health with dropped := satAdd s.health.dropped 1 } }

def countIncomplete (s : QueueState R) : QueueState R :=
  { s with health := { s.health with incomplete := satAdd s.health.incomplete 1 } }

/-- The whole stream is marked lost. -/
def markStream (s : QueueState R) (root : R) (identity : Text) : QueueState R :=
  match s.stream root identity with
  | some st => s.setStream root identity { st with lossy := true }
  | none => s

/-- A publication that could not be projected: a pending one of its document is superseded. -/
def markLost (s : QueueState R) (root : R) (identity : Text) (generation : Nat)
    (path : Option Text) : QueueState R :=
  if !s.isCurrent root identity generation then s.refuseStale.signal
  else
    match keyPath path with
    | some path =>
      let key : DiagnosticKey R := ⟨root, identity, generation, path⟩
      ((s.countDropped.removePending env key).1.markLoss env key).signal
    | none => (s.countDropped.countIncomplete.markStream root identity).signal

def LspHealth.saturatingAdd (a b : LspHealth) : LspHealth :=
  ⟨satAdd a.dropped b.dropped, satAdd a.truncated b.truncated, satAdd a.stale b.stale,
    satAdd a.incomplete b.incomplete, satAdd a.invalid b.invalid⟩

/-- Record health findings. -/
def record (s : QueueState R) (health : LspHealth) : QueueState R :=
  if health = .zero then s
  else { s with health := LspHealth.saturatingAdd s.health health }.signal

def countRejected (s : QueueState R) : QueueState R :=
  { s with
    counters := { s.counters with rejectedCapacity := satAdd s.counters.rejectedCapacity 1 }
    health := { s.health with dropped := satAdd s.health.dropped 1 } }

/-- The loss of a publication that finds no room. -/
def rejectCapacity (s : QueueState R) (key : DiagnosticKey R) : QueueState R :=
  (s.countRejected.markLoss env key).signal

def keyOf (pd : PublishedDiagnostics R) : DiagnosticKey R :=
  ⟨pd.root, pd.serverIdentity, pd.generation, pd.path⟩

/-- What a root costs that is not ready yet. -/
def rootCost (s : QueueState R) (root : R) : Nat :=
  if (s.perRoot.lookup root).isSome then 0 else readyRootCost env root

/-- There is no room for a document of this cost and for that of its root. -/
def NoRoom (s : QueueState R) (cost rootCost : Nat) : Prop :=
  maxQueueDocuments ≤ s.pending.keys.length ∨ maxQueueBytes < satAdd (satAdd s.bytes cost) rootCost

instance (s : QueueState R) (cost rootCost : Nat) : Decidable (s.NoRoom cost rootCost) :=
  inferInstanceAs (Decidable (_ ∨ _))

/-- The eviction loop of `publish`. The ready cost of the incoming root is computed once, before
the loop, and counted where the root is not ready. -/
def evictLoop (cost rootCost : Nat) (root : R) : Nat → QueueState R → QueueState R
  | 0, s => s
  | fuel + 1, s =>
    if s.NoRoom cost (if (s.perRoot.lookup root).isSome then 0 else rootCost) then
      let r := s.evictOne env root
      if r.2 then evictLoop cost rootCost root fuel r.1 else r.1
    else s

/-- A root whose ready cost is counted gets its queue. -/
def openRoot (s : QueueState R) (root : R) (rootCost : Nat) : QueueState R :=
  if 0 < rootCost then { s with
    perRoot := s.perRoot.insert root [], ready := s.ready ++ [root] } else s

/-- Put a document at the end of its root's queue. -/
def pushBack (s : QueueState R) (key : DiagnosticKey R) : QueueState R :=
  match s.perRoot.lookup key.root with
  | some queue => { s with perRoot := s.perRoot.insert key.root (queue ++ [key]) }
  | none => s

def charge (s : QueueState R) (cost rootCost : Nat) : QueueState R :=
  { s with bytes := satAdd (satAdd s.bytes cost) rootCost }

/-- The document is counted, its loss is forgotten, and it is pending at the end of its queue. -/
def place (s : QueueState R) (pd : PublishedDiagnostics R) (cost rootCost : Nat) (now : Nat) :
    QueueState R :=
  let key := keyOf pd
  let s := ((s.charge cost rootCost).clearLoss env key).pushBack key
  let s := { s with
    pending := s.pending.insert key ⟨pd, cost, if s.timing then some now else none⟩
    counters := { s.counters with admitted := satAdd s.counters.admitted 1 } }
  s.signal

/-- The end of `publish`: there is room. -/
def enqueue (s : QueueState R) (pd : PublishedDiagnostics R) (cost rootCost : Nat) (now : Nat) :
    QueueState R :=
  (s.openRoot pd.root rootCost).place env pd cost rootCost now

/-- The last test of `publish`, with the cost of the root as it is now. -/
def enqueueIfRoom (s : QueueState R) (pd : PublishedDiagnostics R) (cost now : Nat) :
    QueueState R :=
  if s.NoRoom cost (s.rootCost env pd.root) then s.rejectCapacity env (keyOf pd)
  else s.enqueue env pd cost (s.rootCost env pd.root) now

/-- Admission of a document that is not pending. -/
def admitEntry (s : QueueState R) (pd : PublishedDiagnostics R) (cost now : Nat) : QueueState R :=
  let rootCost := s.rootCost env pd.root
  if maxQueueBytes < satAdd cost rootCost then s.rejectCapacity env (keyOf pd)
  else
    (evictLoop env cost rootCost pd.root (s.pending.keys.length + 1) s).enqueueIfRoom env
      pd cost now

/-- The pending publication of a document gives way to a newer one. -/
def supersede (s : QueueState R) (pd : PublishedDiagnostics R) (cost : Nat) (old : Entry R) :
    QueueState R :=
  let key := keyOf pd
  let s := clearLoss env { s with bytes := satAdd (s.bytes - old.cost) cost } key
  let s := { s with
    pending := s.pending.insert key ⟨pd, cost, old.admittedAt⟩
    counters := { s.counters with replaced := satAdd s.counters.replaced 1 } }
  s.signal

/-- Replacement of a pending document: it is superseded either way. -/
def replace (s : QueueState R) (pd : PublishedDiagnostics R) (cost : Nat) (old : Entry R) :
    QueueState R :=
  if maxQueueBytes < satAdd (s.bytes - old.cost) cost then
    ((s.removePending env (keyOf pd)).1).rejectCapacity env (keyOf pd)
  else s.supersede env pd cost old

/-- The part of `publish` behind the checks of authority and sequence. -/
def accept (s : QueueState R) (pd : PublishedDiagnostics R) (now : Nat) : QueueState R :=
  match s.pending.lookup (keyOf pd) with
  | some old => s.replace env pd (entryCost env pd) old
  | none => s.admitEntry env pd (entryCost env pd) now

/-- Admit one publication, latest per document. -/
def publish (s : QueueState R) (pd : PublishedDiagnostics R) (now : Nat) : QueueState R :=
  match s.stream pd.root pd.serverIdentity with
  | none => s.refuseStale.signal
  | some st =>
    if st.generation ≠ pd.generation then s.refuseStale.signal
    else if pd.sequence ≤ st.lastSequence then s.refuseStale.signal
    else
      (s.setStream pd.root pd.serverIdentity { st with lastSequence := pd.sequence }).accept
        env pd now

end QueueState

/-! ## The receiver -/

namespace QueueState

variable {R : Type} [LinearOrder R] (env : Env R)

def setTiming (s : QueueState R) (on : Bool) : QueueState R := { s with timing := on }

/-- The wake obligation is consumed when `wait` returns. -/
def wait (s : QueueState R) : QueueState R × Bool := ({ s with wakePending := false }, !s.closed)

def rearmIfPending (s : QueueState R) : QueueState R × Bool :=
  if s.ready.isEmpty then (s, false) else (s.signal, true)

/-- The first document of a root was taken: a root with other ones goes to the back of the ready
ring. -/
def rotate (s : QueueState R) (root : R) (queue : List (DiagnosticKey R)) : QueueState R :=
  if queue.isEmpty then
    { s with
      perRoot := s.perRoot.erase root
      bytes := s.bytes - readyRootCost env root }
  else { s with perRoot := s.perRoot.insert root queue, ready := s.ready ++ [root] }

def removeEntry (s : QueueState R) (key : DiagnosticKey R) (entry : Entry R) : QueueState R :=
  { s with pending := s.pending.erase key, bytes := s.bytes - entry.cost }

def countDelivered (s : QueueState R) : QueueState R :=
  { s with counters := { s.counters with delivered := satAdd s.counters.delivered 1 } }

/-- One turn of `try_recv`, for a root that was taken from the front of `ready`. -/
def turn (s : QueueState R) (root : R) : QueueState R × Option (PublishedDiagnostics R) :=
  match s.perRoot.lookup root with
  | none => (s, none)
  | some [] =>
    ({ s with
        perRoot := s.perRoot.erase root
        bytes := s.bytes - readyRootCost env root }, none)
  | some (key :: queue) =>
    let s := s.rotate env root queue
    match s.pending.lookup key with
    | none => (s, none)
    | some entry =>
      let pd := entry.publication
      -- Retirement purges what is queued, so this is not expected.
      if !s.isCurrent pd.root pd.serverIdentity pd.generation then
        ((s.removeEntry key entry).refuseStale, none)
      else ((s.removeEntry key entry).countDelivered, some pd)

/-- What the loop of `try_recv` can still look at. -/
def backlog (s : QueueState R) : Nat :=
  total (fun _ queue => queue.length) s.perRoot + s.ready.length

/-- A document that is taken makes up for the root that is ready again. -/
theorem backlog_rotate_le {s : QueueState R} {root : R} {key : DiagnosticKey R}
    {queue : List (DiagnosticKey R)} (h : s.perRoot.lookup root = some (key :: queue)) :
    (s.rotate env root queue).backlog ≤ s.backlog := by
  have hdrop := total_erase (f := fun _ queue => queue.length) h
  rw [length_cons] at hdrop
  rw [rotate]
  split_ifs
  · simp only [backlog]
    omega
  · simp only [backlog, total_insert_erase, length_append, length_singleton]
    omega

theorem backlog_turn_le (s : QueueState R) (root : R) :
    (s.turn env root).1.backlog ≤ s.backlog := by
  rw [turn]
  split
  · exact le_refl _
  · rename_i h
    have hdrop := total_erase (f := fun _ queue => queue.length) h
    simp only [backlog]
    omega
  · rename_i key queue h
    have hrotate := backlog_rotate_le env h
    dsimp only
    split
    · exact hrotate
    · split_ifs
      · exact hrotate
      · exact hrotate

/-- Pop the next publication, rotating across ready roots. -/
def tryRecv (s : QueueState R) : QueueState R × Option (PublishedDiagnostics R) :=
  match _hready : s.ready with
  | [] => (s, none)
  | root :: ready =>
    let r := turn env { s with ready := ready } root
    if r.2.isSome then r else tryRecv r.1
  termination_by s.backlog
  decreasing_by
    refine lt_of_le_of_lt (backlog_turn_le env _ root) ?_
    simp only [backlog, _hready, length_cons]
    omega

def takeHealth (s : QueueState R) : QueueState R × LspHealth :=
  ({ s with health := .zero }, s.health)

/-- Hand the loss marks to the host. -/
def takeLossMarks (s : QueueState R) :
    QueueState R × List (DiagnosticKey R) × List (R × Text × Nat) :=
  let released := s.lossMarks.foldl (fun n key => satAdd n (diagnosticKeyBytes env key)) 0
  let streams := s.active.entries.flatMap fun e => e.2.entries.filterMap fun i =>
    if i.2.lossy then some (e.1, i.1, i.2.generation) else none
  ({ s with
      metadataBytes := s.metadataBytes - released
      lossMarks := []
      active := updateAll (updateAll fun st => { st with lossy := false }) s.active },
    s.lossMarks, streams)

/-- The streams that are still current, if one was retired since the last call. -/
def takeRetirements (s : QueueState R) : QueueState R × Option (List (R × Text × Nat)) :=
  if s.retiredDirty then
    ({ s with retiredDirty := false },
      some (s.active.entries.flatMap fun e => e.2.entries.map fun i => (e.1, i.1, i.2.generation)))
  else (s, none)

/-- Free everything; the generations go on. -/
def shutdown (s : QueueState R) : QueueState R :=
  { QueueState.new R with nextGeneration := s.nextGeneration, closed := true }

end QueueState

/-! ## Runs -/

/-- The calls of both halves. Each is made under the lock, so what any number of threads do is a
list of calls. -/
inductive Call (R : Type)
  | register (root : R) (identity : Text)
  | retire (root : R) (identity : Text) (generation : Nat)
  | markLost (root : R) (identity : Text) (generation : Nat) (path : Option Text)
  | record (health : LspHealth)
  | publish (pd : PublishedDiagnostics R) (now : Nat)
  | setTiming (on : Bool)
  | wait
  | rearmIfPending
  | tryRecv
  | takeHealth
  | takeLossMarks
  | takeRetirements
  | shutdown

inductive Answer (R : Type)
  | done
  | flag (b : Bool)
  | registered (generation : Except LspError Nat)
  | received (pd : Option (PublishedDiagnostics R))
  | health (health : LspHealth)
  | losses (documents : List (DiagnosticKey R)) (streams : List (R × Text × Nat))
  | retirements (streams : Option (List (R × Text × Nat)))

variable {R : Type} [LinearOrder R] (env : Env R)

def step (s : QueueState R) : Call R → Answer R × QueueState R
  | .register root identity =>
    (.registered (s.register env root identity).2, (s.register env root identity).1)
  | .retire root identity generation =>
    (.flag (s.retire env root identity generation).2, (s.retire env root identity generation).1)
  | .markLost root identity generation path => (.done, s.markLost env root identity generation path)
  | .record health => (.done, s.record health)
  | .publish pd now => (.done, s.publish env pd now)
  | .setTiming on => (.done, s.setTiming on)
  | .wait => (.flag s.wait.2, s.wait.1)
  | .rearmIfPending => (.flag s.rearmIfPending.2, s.rearmIfPending.1)
  | .tryRecv => (.received (s.tryRecv env).2, (s.tryRecv env).1)
  | .takeHealth => (.health s.takeHealth.2, s.takeHealth.1)
  | .takeLossMarks =>
    (.losses (s.takeLossMarks env).2.1 (s.takeLossMarks env).2.2, (s.takeLossMarks env).1)
  | .takeRetirements => (.retirements s.takeRetirements.2, s.takeRetirements.1)
  | .shutdown => (.done, s.shutdown)

/-- The bus after some calls. -/
def bus (calls : List (Call R)) : QueueState R := Transducer.after (step env) (.new R) calls

/-- A build in which each structure takes one byte, and each path. -/
def unitSizes : Env Nat := ⟨fun _ => 1, 1, 1, 1, 1, 1, 1, 1, 1, 1, Nat.one_pos⟩

def samplePublication (root sequence : Nat) (path : Text) : PublishedDiagnostics Nat :=
  ⟨root, path, [], ['s'], root + 1, sequence⟩

/-- A build in which the bus has room for one entry. -/
def wideEntries : Env Nat := { unitSizes with sizeOfEntry := 5 * 2 ^ 20 }

/-- Two documents of a root, of which the first is given up for the second. -/
def wideCalls : List (Call Nat) :=
  [.register 0 ['s'], .publish (samplePublication 0 1 ['a']) 0,
    .publish (samplePublication 0 2 ['b']) 0]

end Thegn.Lsp
